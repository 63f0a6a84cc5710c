import Rexx.Proofs.Place.Soundness
import Rexx.Proofs.Session.Containment
import Rexx.Proofs.Tandem.Clauses

/-!
# `Tandem.Ticks` — ticks on two machines in step

A tick of two machines in step leaves them in step, provided that they face the same (`Machine.Faces`).
-/

namespace Rexx

open Engine Interpreter Stack

/-! ## Steps -/

/-- **What two machines come to** in the blocks at two cursors: the end on both, or statements that are executed alike and
noted under the same line. -/
inductive Machine.Faces {σ : Type} (P : Place → Place → Prop) (m w : Machine σ) (c c' : Cursor) : Prop where
  | ends (stmt : c.block[c.pc]? = none) (stmt' : c'.block[c'.pc]? = none)
  | paired {s s' : Stmt} (stmt : c.block[c.pc]? = some s) (stmt' : c'.block[c'.pc]? = some s')
      (pairs : s.Paired (Engine.Enters P m.place w.place) s') (line : w.interp.lineOf c' s' = m.interp.lineOf c s)

def Machine.Meet {σ : Type} (P : Place → Place → Prop) (m w : Machine σ) : Prop :=
  ∀ c cs c' cs', m.place.top = c :: cs → w.place.top = c' :: cs' → (∀ l, c.loop = some l → l.phase = .body) →
    m.Faces P w c c'

namespace Engine

variable {σ : Type} {P : Place → Place → Prop} {m w : Machine σ}

variable {cs cs' : List Cursor} {c c' : Cursor}

variable (hP : Place.Lawful P) (h : m.InStep P w)

include h

theorem announced_inStep {s s' : Stmt} (hline : w.interp.lineOf c' s' = m.interp.lineOf c s) :
    (m.announced c s).InStep P (w.announced c' s') := by
  have hnoted := (h.modifyInterp (f := fun i => { i with line := m.interp.lineOf c s }) fun _ _ => rfl).setReports
    (m.interp.diagnostics ++ (m.interp.traceOf c s).toArray) (w.interp.diagnostics ++ (w.interp.traceOf c' s').toArray)
  unfold Machine.announced Interpreter.announced Machine.modifyInterp
  dsimp only
  rw [hline]
  exact hnoted

include hP

theorem endBlock_tandem
    (hm : m.place.top = c :: cs) (hw : w.place.top = c' :: cs') : Matched P (endBlock c) (endBlock c') m w := by
  have hloops := hP.loops h.place
  have hlength : w.top.cursors.length = m.top.cursors.length := hloops.length_eq.symm
  rw [hm, hw] at hloops
  obtain ⟨hloop, -⟩ := List.forall₂_cons.1 hloops
  unfold endBlock
  rw [hloop]
  cases hl : c.loop with
  | some l =>
    have hplace : ∀ {m : Machine σ} {c : Cursor} {cs : List Cursor}, m.place.top = c :: cs →
        m.place.loop { l with phase := .after } =
          m.place.onTop fun cs => { c with loop := some { l with phase := .after } } :: cs.tail := by
      intro m c cs hm
      unfold Place.loop Place.onTop
      rw [hm]
      rfl
    have hback := hP.loop { l with phase := .after } h.place
    rw [hplace hm, hplace hw] at hback
    exact .value (h.onTop hback)
  | none =>
    refine Matched.interp ?_
    dsimp only
    rw [hlength, h.isMain]
    refine .ite (fun _ => (leaveBlock_tandem hP h)) fun _ => .ite (fun _ => returnWith_tandem hP h none) fun _ => ?_
    exact .seq (leaveBlock_tandem hP h) fun _ _ _ h1 => stop_tandem hP h1

theorem stepBlock_tandem (hm : m.place.top = c :: cs) (hw : w.place.top = c' :: cs') (hf : m.Faces P w c c') :
    Matched P (stepBlock c) (stepBlock c') m w := by
  unfold stepBlock
  cases hf with
  | ends hs hs' =>
    rw [hs, hs']
    exact endBlock_tandem hP h hm hw
  | paired hs hs' hpair hline =>
    have hexec := exec_tandem hP (announced_inStep h hline) hpair
    rw [hs, hs']
    unfold Matched at hexec ⊢
    dsimp only
    rw [execAt_apply, execAt_apply]
    exact hexec

theorem step_tandem (hf : m.Meet P w) : Tandem P step m w := by
  have hloops := hP.loops h.place
  refine Matched.top ?_
  cases hm : m.top.cursors with
  | nil =>
    rw [show m.place.top = [] from hm] at hloops
    rw [show w.top.cursors = [] from List.forall₂_nil_left_iff.1 hloops]
    exact stop_tandem hP h
  | cons c cs =>
    rw [show m.place.top = c :: cs from hm] at hloops
    obtain ⟨c', cs', hloop, -, hw⟩ := List.forall₂_cons_left_iff.1 hloops
    rw [show w.top.cursors = c' :: cs' from hw]
    dsimp only
    rw [hloop]
    cases hl : c.loop with
    | none => exact stepBlock_tandem hP h hm hw (hf c cs c' cs' hm hw fun l hl' => by rw [hl] at hl'; cases hl')
    | some l =>
      refine .ite (fun hphase => ?_) fun _ => (tandem_looping hP).stepLoop l _ _ h
      refine stepBlock_tandem hP h hm hw (hf c cs c' cs' hm hw fun l' hl' => ?_)
      cases hl.symm.trans hl'
      exact hphase

end Engine

/-! ## Conditions -/

theorem Interpreter.raise_eq {σ : Type} (i : Interpreter σ) (c : Condition) {line : Nat} (hline : c.line.getD i.line = line) :
    i.raise c = (if c.trappable then i.stack.unwindTo c.event else none).elim (i.fatal { c with line := some line })
      fun q => (i.sprung q.2 q.1.1 { c with line := some line } line).landed q.1.2 line := by
  subst hline
  unfold raise
  dsimp only
  cases if c.trappable then i.stack.unwindTo c.event else none <;> rfl

namespace Machine

variable {σ : Type} {P : Place → Place → Prop} {m w : Machine σ}

theorem unwindFrom_sameData (hP : Place.Lawful P) (e : Event) (π π' : Place) {top top' : Frame} {cs cs' : List Caller}
    (htop : top.SameData top') (hcs : List.Forall₂ Caller.SameData cs cs')
    (hplace : P (π.withStack ⟨top, cs⟩) (π'.withStack ⟨top', cs'⟩)) :
    Option.Rel (fun q q' => q'.1 = q.1 ∧ q.2.SameData q'.2 ∧ P (π.withStack q.2) (π'.withStack q'.2))
      (unwindFrom e top cs) (unwindFrom e top' cs') := by
  induction hcs generalizing top top' with
  | nil =>
    unfold unwindFrom
    rw [htop.trap?]
    cases top.trap? e with
    | none => exact .none
    | some t => exact .some ⟨rfl, ⟨htop, .nil⟩, hplace⟩
  | cons hc hcs ih =>
    unfold unwindFrom
    rw [htop.trap?]
    cases top.trap? e with
    | some t => exact .some ⟨rfl, ⟨htop, .cons hc hcs⟩, hplace⟩
    | none => exact ih hc.frame (hP.pop hplace)

theorem SameData.completeStep (h : m.SameData w) (depth : Nat) :
    (m.modifyInterp fun i => i.completeStep depth).SameData (w.modifyInterp fun i => i.completeStep depth) := by
  unfold Machine.modifyInterp Interpreter.completeStep
  dsimp only
  rw [h.depth]
  split
  · have hforget : m.top.forget.SameData w.top.forget :=
      Frame.DataOnly.sameData (fun _ _ _ => rfl) h.stack.top
    exact h.modifyTop ⟨by rw [hforget.same], by simp⟩
  · exact h

variable (hP : Place.Lawful P) (h : m.InStep P w)

include h

theorem InStep.sprung {s s' : Stack} (hst : s.SameData s') (hplace : P (m.place.withStack s) (w.place.withStack s'))
    (event : Event) (c : Condition) (line : Nat) :
    (m.modifyInterp fun i => i.sprung s event c line).InStep P (w.modifyInterp fun i => i.sprung s' event c line) := by
  have hdisarm : Frame.DataOnly fun f => (f.disarm event).forget := fun _ _ _ => rfl
  have hstacks := (h.replaceStack (s := s.modifyTop fun f => (f.disarm event).forget)
    (t := s'.modifyTop fun f => (f.disarm event).forget) ⟨hdisarm.sameData hst.top, hst.callers⟩ hplace).modifyInterp
    (f := fun i => { i with trapped := ⟨c.event.name, c.text, "SIGNAL"⟩ })
    fun _ _ => rfl
  exact hstacks.setVariables (v := describe ⟨m.interp.store, s.top.pool⟩ c line)
    (u := describe ⟨w.interp.store, s'.top.pool⟩ c line) (by rw [h.store, hst.top.same])

theorem InStep.completeStep (depth : Nat) :
    (m.modifyInterp fun i => i.completeStep depth).InStep P (w.modifyInterp fun i => i.completeStep depth) := by
  refine ⟨h.toSameData.completeStep depth, ?_⟩
  show P (m.interp.completeStep depth).place (w.interp.completeStep depth).place
  rw [completeStep_place, completeStep_place]
  exact h.place

theorem InStep.running_iff : w.Running ↔ m.Running := by
  unfold Running
  rw [h.status]

include hP

theorem InStep.fatal (c : Condition) : (m.modifyInterp fun i => i.fatal c).InStep P (w.modifyInterp fun i => i.fatal c) := by
  obtain ⟨line, hline⟩ : ∃ n, c.line.getD m.interp.line = n := ⟨_, rfl⟩
  obtain ⟨error, herror⟩ : ∃ e, m.interp.reportOf c line = e := ⟨_, rfl⟩
  have hline' : c.line.getD w.interp.line = line := by rw [h.line, hline]
  have herror' : w.interp.reportOf c line = error := by
    rw [← herror]
    unfold reportOf
    rw [h.title]
  have hmain : m.stack.main.forget.SameData w.stack.main.forget :=
    Frame.DataOnly.sameData (fun _ _ _ => rfl) h.main
  let reported (i : Interpreter σ) : Array Text := (i.diagnostics ++
    ((i.program.line? line).map fun text => Text.untilNul (sourceLine line "+++" text)).toArray).push (Text.untilNul error)
  have hdata := (h.setReports (reported m.interp) (reported w.interp)).modifyInterp
    (f := fun i => { i with error := error, exitCode := if 0 < c.code then c.code else 1 }) fun _ _ => rfl
  unfold Machine.modifyInterp Interpreter.fatal
  dsimp only
  rw [hline, hline', herror, herror']
  exact (hdata.clearStack hP hmain).stop hP

theorem InStep.landed (label : Text)
    (line : Nat) : (m.modifyInterp fun i => i.landed label line).InStep P (w.modifyInterp fun i => i.landed label line) := by
  have hfatal := h.fatal hP { (Fault.labelNotFound label).condition with line := some line }
  unfold Machine.modifyInterp Interpreter.landed at *
  dsimp only
  rw [h.labels]
  cases m.interp.program.labels[label]? with
  | some k => exact h.onTop (hP.goto k h.place)
  | none => exact hfatal

theorem InStep.raise (c : Condition) : (m.modifyInterp fun i => i.raise c).InStep P (w.modifyInterp fun i => i.raise c) := by
  obtain ⟨line, hm⟩ : ∃ n, c.line.getD m.interp.line = n := ⟨_, rfl⟩
  have hw : c.line.getD w.interp.line = line := by rw [h.line, hm]
  have hfatal := h.fatal hP { c with line := some line }
  unfold Machine.modifyInterp at hfatal ⊢
  dsimp only at hfatal ⊢
  rw [raise_eq _ c hm, raise_eq _ c hw]
  cases c.trappable with
  | false => exact hfatal
  | true =>
    have hrel := unwindFrom_sameData hP c.event m.place w.place h.stack.top h.stack.callers h.place
    simp only [if_true, unwindTo]
    generalize unwindFrom c.event m.top m.stack.callers = q at hrel ⊢
    generalize unwindFrom c.event w.top w.stack.callers = q' at hrel ⊢
    cases hrel with
    | none => exact hfatal
    | @some q q' hq =>
      obtain ⟨ht, hst, hplace⟩ := hq
      simp only [Option.elim_some, ht]
      exact (h.sprung hst hplace q.1.1 _ line).landed hP q.1.2 line

/-! ## Ticks -/

theorem InStep.tick_halted (hh : m.interp.halted = true) : m.tick.InStep P w.tick := by
  have hcleared := h.modifyInterp (f := fun i => { i with halted := false }) fun _ _ => rfl
  unfold tick
  rw [h.halted, hh]
  exact hcleared.raise hP _

theorem InStep.tick (hf : m.Meet P w) : m.tick.InStep P w.tick := by
  cases hh : m.interp.halted with
  | true => exact h.tick_halted hP hh
  | false =>
    have hstep := step_tandem hP h hf
    unfold Tandem Matched at hstep
    unfold Machine.tick
    rw [h.halted, hh, h.depth]
    generalize step m = r at hstep ⊢
    generalize step w = r' at hstep ⊢
    cases hstep with
    | value h1 => exact h1.completeStep _
    | @error e _ _ h1 =>
      cases e with
      | raised c => exact h1.raise hP c
      | suspended => exact h1

theorem InStep.answer (depth : Nat) (site : Site) (r : Outcome) {ch ch' : Channel} (hc : ch' = ch) :
    InStep P { m with channel := ch, interp := { m.interp.complete depth site r with status := .running } }
      { w with channel := ch', interp := { w.interp.complete depth site r with status := .running } } :=
  (h.complete depth site r).setStatus hP .running hc

end Machine

end Rexx
