import Rexx.Proofs.Grammar.Equality
import Rexx.Proofs.Inlining.Relation

/-!
# `Inlining.Equivalence` — INTERPRET does what a group of the same statements does

A program and the same program with INTERPRET clauses replaced by groups run in step.
-/

namespace Rexx

open Block Engine Fragment List Place Program

/-! ## What the machines come to -/

namespace Engine

variable {σ : Type} {t : Text} {B : List Stmt} {m w : Machine σ}

theorem enters_of_inlines {π π' : Place} (h : Inlines t B π π') {c c' : Cursor} {cs cs' : List Cursor}
    (hm : π.top = c :: cs) (hw : π'.top = c' :: cs') {b b' : List Stmt}
    (hb : Inlines t B (lineOf? π.fragments c.unit) (lineOf? π'.fragments c'.unit) b b') :
    Enters (Inlines t B) π π' b b' := by
  have hnext : ∀ {π : Place} {c : Cursor} {cs : List Cursor}, π.top = c :: cs → π.advance.top = c.next :: cs := by
    intro π c cs hπ
    unfold Place.advance Place.onTop
    rw [hπ]
    rfl
  exact ⟨hb.isEmpty, fun loop => h.advance.enter (hnext hm) (hnext hw) loop hb⟩

theorem paired_of_inlines {n n' : Option Nat} {s s' : Stmt} {E : List Stmt → List Stmt → Prop}
    (hE : ∀ {b b'}, Inlines t B n n' b b' → E b b') (hs : Stmt.Inlines t B n n' s s') :
    s.Paired E s' ∨ ∃ pos pos' x body, s = .clause pos (.interpret x) ∧ s' = .group pos' body ∧ x.Denotes t ∧
      Inlines t B (some (n.getD pos.line)) n' B body := by
  cases hs with
  | clause c _ => exact .inl (.clause _ _ c)
  | ifThen cond _ hthens helses => exact .inl (.ifThen _ _ cond (hE hthens) (hE helses))
  | group _ hbody => exact .inl (.group _ _ (hE hbody))
  | loop control guard _ hbody => exact .inl (.loop _ _ control guard (hE hbody))
  | select _ hwhens => exact .inl (.select _ _ (hwhens.forall₂.imp fun _ _ hw => ⟨hw.1, hE hw.2⟩) .none)
  | selectOtherwise _ hwhens hother =>
    exact .inl (.select _ _ (hwhens.forall₂.imp fun _ _ hw => ⟨hw.1, hE hw.2⟩) (.some (hE hother)))
  | inlined hx _ hbody => exact .inr ⟨_, _, _, _, rfl, rfl, hx, hbody⟩

/-! ## A clause that is replaced -/

theorem execInterpret_of_text {x : Expr} {p : Program} (hopen : m.interp.interpretBlocked = false)
    (hx : eval [0] x m = .ok t m) (hp : parse t m.interp.program.name = .ok p) (hl : p.labels.isEmpty = true) :
    execInterpret x m = .ok () (m.relocated (m.place.interpret m.interp.line p)) := by
  rw [execInterpret, bind_of_ok (permit_ok.2 ⟨hopen, rfl⟩), bind_of_ok hx, runText, bind_of_ok (interp_apply m), hp]
  dsimp only
  rw [hl]
  exact enterText_apply p m

theorem exec_group (pos : Position) (body : List Stmt) (m : Machine σ) :
    exec (.group pos body) m = .ok () (m.relocated (m.place.advance.enter body none)) := by
  rfl

end Engine

namespace Program

theorem parse_of_name {t name name' : Text} {p : Program} (h : parse t name = .ok p) :
    parse t name' = .ok { p with name := name' } := by
  obtain ⟨ts, us, hlex, hbody, hp⟩ := parse_eq_ok_iff.1 h
  refine parse_eq_ok_iff.2 ⟨ts, us, hlex, hbody, ?_⟩
  rw [hp]
  rfl

end Program

namespace Machine

variable {σ : Type} {t : Text} {B : List Stmt} {m w : Machine σ} {c : Cursor} {p : Program}

def finished (m : Machine σ) : Machine σ :=
  m.modifyTop fun f => { f.forget with steps := f.steps + 1 }

theorem completeStep_depth (m : Machine σ) : (m.modifyInterp fun i => i.completeStep m.stack.depth) = m.finished := by
  unfold finished Machine.modifyTop modifyInterp Interpreter.completeStep
  dsimp only
  rw [if_pos rfl]

theorem SameData.finished (h : m.SameData w) : m.finished.SameData w.finished := by
  have hdone := h.completeStep m.stack.depth
  rw [completeStep_depth] at hdone
  rw [← h.depth, completeStep_depth] at hdone
  exact hdone

theorem tick_of_exec {s : Stmt} {π : Place} (h : m.AboutTo c s) (hh : m.interp.halted = false)
    (hexec : exec s (m.announced c s) =
      .ok () ((m.announced c s).relocated π)) :
    m.tick = ((m.announced c s).relocated π).finished := by
  rw [← completeStep_depth]
  unfold tick
  rw [hh, step_of_aboutTo h, hexec]
  rfl

structure Trails (t : Text) (B : List Stmt) (m w : Machine σ) : Prop where
  same : m.SameData w
  running : w.Running
  catchesUp : m.InStep (Place.Inlines t B) w.tick

theorem faces_of_inlines (h : m.InStep (Inlines t B) w) {c' : Cursor} {cs cs' : List Cursor}
    (hm : m.place.top = c :: cs) (hw : w.place.top = c' :: cs') :
    m.Faces (Inlines t B) w c c' ∨ ∃ pos pos' x body,
      c.block[c.pc]? = some (.clause pos (.interpret x)) ∧ c'.block[c'.pc]? = some (.group pos' body) ∧ x.Denotes t ∧
      w.interp.lineOf c' (.group pos' body) = m.interp.lineOf c (.clause pos (.interpret x)) ∧
      Inlines t B (some (m.interp.lineOf c (.clause pos (.interpret x)))) (lineOf? w.place.fragments c'.unit)
        B body := by
  obtain ⟨hc, -⟩ := forall₂_cons.1 (hm ▸ hw ▸ h.place.top)
  have hrel := forall₂_getElem? hc.block.forall₂ c'.pc
  obtain ⟨q, hs⟩ : ∃ q, c.block[c.pc]? = q := ⟨_, rfl⟩
  obtain ⟨q', hs'⟩ : ∃ q', c'.block[c'.pc]? = q' := ⟨_, rfl⟩
  rw [hs', hc.pc, hs] at hrel
  cases hrel with
  | none => exact .inl (.ends hs hs')
  | @some s s' hinlines =>
    have hline : w.interp.lineOf c' s' = m.interp.lineOf c s := by cases hinlines <;> assumption
    obtain hpair | ⟨pos, pos', x, body, rfl, rfl, hx, hbody⟩ :=
      paired_of_inlines (enters_of_inlines h.place hm hw) hinlines
    · exact .inl (.paired hs hs' hpair hline)
    · exact .inr ⟨pos, pos', x, body, hs, hs', hx, hline, hbody⟩

theorem SameData.relocatedRight (h : m.SameData w) (π : Place) : m.SameData (w.relocated π) :=
  h.relocated m.place π

theorem SameData.finishedRight (h : m.finished.SameData w) : m.finished.SameData w.finished := by
  refine h.modifyTop (g := fun f => f) ⟨?_, ?_⟩
  · show ({ w.top.forget with steps := w.top.steps + 1 } : Frame) = _
    rw [h.top_eq]
    rfl
  · show w.top.steps + 1 = 0 ↔ m.top.steps + 1 = 0
    simp

theorem tick_leaves {cs : List Cursor} {unit : Option Nat} (hm : m.place.top = ⟨[], 0, unit, none⟩ :: c :: cs)
    (hh : m.interp.halted = false) :
    m.tick = (m.relocated { m.place with top := c :: cs }).finished := by
  have htop : m.top.cursors = ⟨[], 0, unit, none⟩ :: c :: cs := hm
  have hstep : step m = .ok () (m.relocated { m.place with top := c :: cs }) := by
    have hleave : leaveBlock m = .ok () (m.relocated { m.place with top := c :: cs }) := by
      have htail : m.top.cursors.tail = c :: cs := by rw [htop, tail_cons]
      rw [← htail]
      rfl
    rw [step, bind_of_ok (top_apply m), htop]
    show stepBlock _ m = _
    rw [stepBlock]
    show endBlock _ m = _
    rw [endBlock]
    dsimp only
    rw [bind_of_ok (interp_apply m), htop]
    exact hleave
  rw [← completeStep_depth]
  unfold tick
  rw [hh, hstep]
  rfl

theorem InStep.entered {line : Nat} {body : List Stmt} {cs : List Cursor}
    (h : m.InStep (Inlines t p.body) w) (hrun : m.Running) (hh : m.interp.halted = false) (hw : w.place.top = c :: cs)
    (hbody : Inlines t p.body (some line) (lineOf? w.place.fragments c.unit) p.body body) (name : Text) :
    InStep (Inlines t p.body) (m.relocated (m.place.interpret line { p with name })).finished
        (w.relocated (w.place.advance.enter body none)).finished ∨
      Trails t p.body (m.relocated (m.place.interpret line { p with name })).finished
        (w.relocated (w.place.advance.enter body none)).finished := by
  have hsame := (h.toSameData.relocated (m.place.interpret line { p with name }) (w.place.advance.enter body none)).finished
  cases hempty : p.body.isEmpty with
  | false => exact .inl ⟨hsame, h.place.inline hw rfl hempty hbody⟩
  | true =>
    obtain rfl : body = [] := isEmpty_iff.1 (hbody.isEmpty.trans hempty)
    have hnext : w.place.advance.top = c.next :: cs := by
      unfold Place.advance Place.onTop
      rw [hw]
      rfl
    have hleft : (w.relocated (w.place.advance.enter [] none)).finished.place.top = ⟨[], 0, c.unit, none⟩ :: c.next :: cs := by
      rw [← hnext, ← show w.place.advance.top.head?.bind Cursor.unit = c.unit by rw [hnext]; rfl]
      rfl
    refine .inr ⟨hsame, hsame.status.trans hrun, ?_⟩
    rw [tick_leaves hleft (h.halted.trans hh)]
    refine ⟨(hsame.relocatedRight _).finishedRight, ?_⟩
    rw [← hnext]
    exact h.place.skip line hempty

theorem InStep.tick_replaced (hread : parse t [] = .ok p) (hlabels : p.labels.isEmpty = true)
    (h : m.InStep (Inlines t p.body) w) (hrun : m.Running) (hh : m.interp.halted = false) {c' : Cursor} {pos pos' : Position}
    {x : Expr} {body : List Stmt} (hm : m.AboutTo c (.clause pos (.interpret x))) (hw : w.AboutTo c' (.group pos' body))
    (hx : x.Denotes t) (hopen : m.interp.interpretBlocked = false)
    (hline : w.interp.lineOf c' (.group pos' body) = m.interp.lineOf c (.clause pos (.interpret x)))
    (hbody : Inlines t p.body (some (m.interp.lineOf c (.clause pos (.interpret x))))
      (lineOf? w.place.fragments c'.unit) p.body body) :
    m.tick.InStep (Inlines t p.body) w.tick ∨ m.tick.Trails t p.body w.tick := by
  obtain ⟨cs', hcs'⟩ := head?_eq_some_iff.1 hw.cursor
  have hexec := execInterpret_of_text (m := m.announced c (.clause pos (.interpret x))) hopen
    (hx σ _) (parse_of_name hread) hlabels
  rw [tick_of_exec hm hh hexec, tick_of_exec hw (h.halted.trans hh) (exec_group pos' body _)]
  exact (announced_inStep h hline).entered hrun hh hcs' hbody _

theorem InStep.tick_inlines (hread : parse t [] = .ok p) (hlabels : p.labels.isEmpty = true)
    (h : m.InStep (Inlines t p.body) w) (hrun : m.Running)
    (hopen : ∀ c pos x, m.AboutTo c (.clause pos (.interpret x)) → x.Denotes t → m.interp.interpretBlocked = false) :
    m.tick.InStep (Inlines t p.body) w.tick ∨ m.tick.Trails t p.body w.tick := by
  have hP := Inlines.lawful t p.body
  cases hh : m.interp.halted with
  | true => exact .inl (h.tick_halted hP hh)
  | false =>
    by_cases hmeet : m.Meet (Inlines t p.body) w
    · exact .inl (h.tick hP hmeet)
    · unfold Meet at hmeet
      push Not at hmeet
      obtain ⟨c, cs, c', cs', hm, hw, hphase, hfaces⟩ := hmeet
      obtain ⟨pos, pos', x, body, hs, hs', hx, hline, hbody⟩ := (faces_of_inlines h hm hw).resolve_left hfaces
      have hloop : c'.loop = c.loop := (forall₂_cons.1 (hm ▸ hw ▸ h.place.top)).1.loop
      have habout : m.AboutTo c (.clause pos (.interpret x)) := ⟨head?_eq_some_iff.2 ⟨cs, hm⟩, hphase, hs⟩
      have habout' : w.AboutTo c' (.group pos' body) :=
        ⟨head?_eq_some_iff.2 ⟨cs', hw⟩, fun l hl => hphase l (hloop ▸ hl), hs'⟩
      exact h.tick_replaced hread hlabels hrun hh habout habout' hx (hopen c pos x habout hx) hline hbody

/-! ## Runs -/

/-- What the host does while a run waits for it: its state and what lies around may change, and then it answers. -/
structure Turn (σ : Type) where
  host : σ
  around : Surroundings σ
  response : Response

def turn? (m : Machine σ) (u : Turn σ) : Option (Machine σ) :=
  { m with host := u.host, around := u.around }.answer? u.response

/-- **The states that a run comes to**, with the turns of the host on the way. -/
inductive ComesTo (m : Machine σ) : List (Turn σ) → Machine σ → Prop where
  | here : ComesTo m [] m
  | tick {us : List (Turn σ)} {m' : Machine σ} (before : ComesTo m us m') (running : m'.Running) : ComesTo m us m'.tick
  | turn {us : List (Turn σ)} {m' m'' : Machine σ} {u : Turn σ} (before : ComesTo m us m') (turn : m'.turn? u = some m'') :
      ComesTo m (us ++ [u]) m''

/-- **What can be seen of a run is the same**: the lines said, the variables of all frames, the queue and the input, the
exit code, the result and the error, what the interpreter is doing, the state of the host and the channel to it. -/
structure SameEffects (m w : Machine σ) : Prop where
  said : w.interp.said = m.interp.said
  store : w.interp.store = m.interp.store
  pools : w.stack.frames.map Frame.pool = m.stack.frames.map Frame.pool
  queue : w.interp.queue = m.interp.queue
  input : w.interp.input = m.interp.input
  exitCode : w.interp.exitCode = m.interp.exitCode
  result : w.interp.result = m.interp.result
  error : w.interp.error = m.interp.error
  status : w.interp.status = m.interp.status
  host : w.host = m.host
  channel : w.channel = m.channel

theorem SameData.sameEffects (h : m.SameData w) : m.SameEffects w where
  said := by rw [h.same]; rfl
  store := h.store
  pools := by
    have hcallers : ∀ {cs cs' : List Caller}, Forall₂ Caller.SameData cs cs' →
        (cs'.map fun c => c.frame.pool) = cs.map fun c => c.frame.pool := by
      intro cs cs' hcs
      induction hcs with
      | nil => rfl
      | cons hc _ ih => rw [map_cons, map_cons, ih, hc.frame.same]
    unfold Stack.frames
    rw [map_cons, map_cons, h.pool, map_map, map_map]
    exact congrArg _ (hcallers h.stack.callers)
  queue := h.queue
  input := h.input
  exitCode := by rw [h.same]; rfl
  result := by rw [h.same]; rfl
  error := by rw [h.same]; rfl
  status := h.status
  host := h.host
  channel := h.channel

theorem begin_inlines {q : Program} (h : p.Inlines t B q) (m : Machine σ) (args : Args) :
    (m.begin p args).InStep (Inlines t B) (m.begin q args) where
  same := rfl
  status := rfl
  labels := h.labels
  name := h.name
  stack := ⟨⟨rfl, Iff.rfl⟩, .nil⟩
  place := ⟨h.body, .cons ⟨h.body, rfl, rfl, nofun, nofun⟩ .nil, .nil⟩

theorem InStep.turn (h : m.InStep (Inlines t B) w) (u : Turn σ) :
    Option.Rel (InStep (Inlines t B)) (m.turn? u) (w.turn? u) := by
  have hturn : InStep (Inlines t B) { m with host := u.host, around := u.around }
      { w with host := u.host, around := u.around } := h.setAround h.targets rfl rfl
  unfold turn? answer?
  rw [h.status, h.channel]
  cases m.interp.status with
  | stopped => exact .none
  | running => exact .none
  | held hold =>
    dsimp only
    split
    · exact .some (hturn.answer (Inlines.lawful t B) hold.depth hold.site u.response.outcome rfl)
    · exact .none

theorem not_running_of_turn {u : Turn σ} {m' : Machine σ} (h : m.turn? u = some m') : ¬ m.Running := by
  intro hrun
  obtain ⟨hold, hst, -⟩ := answer?_spec h
  cases hst.symm.trans hrun

section

variable {p : Program} (hread : Program.parse t [] = .ok p) (hlabels : p.labels.isEmpty = true)
  (h : m.InStep (Place.Inlines t p.body) w)
  (hopen : ∀ us m' c pos x, m.ComesTo us m' → m'.AboutTo c (.clause pos (.interpret x)) → x.Denotes t →
    m'.interp.interpretBlocked = false)

include hread hlabels h hopen

theorem comesTo_inlined {us : List (Turn σ)} {m' : Machine σ} (hm : m.ComesTo us m') :
    ∃ w', w.ComesTo us w' ∧ m'.InStep (Inlines t p.body) w' := by
  induction hm with
  | here => exact ⟨w, .here, h⟩
  | @tick us m' hm hrun ih =>
    obtain ⟨w', hw, hstep⟩ := ih
    have htick := hw.tick (hstep.running_iff.2 hrun)
    obtain hstep' | htrails := hstep.tick_inlines hread hlabels hrun fun c pos x => hopen us m' c pos x hm
    · exact ⟨_, htick, hstep'⟩
    · exact ⟨_, htick.tick htrails.running, htrails.catchesUp⟩
  | @turn us m' m'' u hm hturn ih =>
    obtain ⟨w', hw, hstep⟩ := ih
    have hrel := hstep.turn u
    rw [hturn] at hrel
    generalize hturn' : w'.turn? u = q at hrel
    cases hrel with
    | some hstep' => exact ⟨_, hw.turn hturn', hstep'⟩

theorem comesTo_of_inlined {us : List (Turn σ)} {w' : Machine σ} (hw : w.ComesTo us w') :
    ∃ m', m.ComesTo us m' ∧ (m'.InStep (Inlines t p.body) w' ∨ m'.Trails t p.body w') := by
  induction hw with
  | here => exact ⟨m, .here, .inl h⟩
  | @tick us w' hw hrun ih =>
    obtain ⟨m', hm, hstep | htrails⟩ := ih
    · have hrun' := hstep.running_iff.1 hrun
      exact ⟨_, hm.tick hrun', hstep.tick_inlines hread hlabels hrun' fun c pos x => hopen us m' c pos x hm⟩
    · exact ⟨m', hm, .inl htrails.catchesUp⟩
  | @turn us w' w'' u hw hturn ih =>
    obtain ⟨m', hm, hstep | htrails⟩ := ih
    · have hrel := hstep.turn u
      rw [hturn] at hrel
      generalize hturn' : m'.turn? u = q at hrel
      cases hrel with
      | some hstep' => exact ⟨_, hm.turn hturn', .inl hstep'⟩
    · exact absurd htrails.running (not_running_of_turn hturn)

end

/-- **INTERPRET does what a group of the same statements does.** Let a text be read without labels, and let `q` be the
program `p` with INTERPRET clauses of the text replaced by groups of its statements, in place. -/
theorem interpret_equals_inlining {text p q : Program} (hread : Program.parse t [] = .ok text)
    (hlabels : text.labels.isEmpty = true) (h : p.Inlines t text.body q) (m : Machine σ) (args : Args)
    (hopen : ∀ us m' c pos x, (m.begin p args).ComesTo us m' → m'.AboutTo c (.clause pos (.interpret x)) → x.Denotes t →
      m'.interp.interpretBlocked = false) :
    (∀ us m', (m.begin p args).ComesTo us m' → ∃ w', (m.begin q args).ComesTo us w' ∧ m'.SameEffects w') ∧
    (∀ us w', (m.begin q args).ComesTo us w' → ∃ m', (m.begin p args).ComesTo us m' ∧ m'.SameEffects w') := by
  have hbegin := begin_inlines h m args
  constructor
  · intro us m' hm
    obtain ⟨w', hw, hstep⟩ := comesTo_inlined hread hlabels hbegin hopen hm
    exact ⟨w', hw, hstep.toSameData.sameEffects⟩
  · intro us w' hw
    obtain ⟨m', hm, hstep | htrails⟩ := comesTo_of_inlined hread hlabels hbegin hopen hw
    · exact ⟨m', hm, hstep.toSameData.sameEffects⟩
    · exact ⟨m', hm, htrails.same.sameEffects⟩

/-! ### Two programs -/

theorem ComesTo.of_stops {n : Nat} (hstop : (run n m).interp.status = .stopped) {us : List (Turn σ)} {m' : Machine σ}
    (h : m.ComesTo us m') : ∃ k ≤ n, m' = run k m := by
  induction h with
  | here => exact ⟨0, Nat.zero_le n, rfl⟩
  | tick _ hrun ih =>
    obtain ⟨k, hk, rfl⟩ := ih
    have hlt : k ≠ n := by
      rintro rfl
      cases hstop.symm.trans hrun
    exact ⟨k + 1, by omega, ((run_succ k m).1 hrun).symm⟩
  | turn _ hturn ih =>
    obtain ⟨k, hk, rfl⟩ := ih
    obtain ⟨hold, hst, -⟩ := answer?_spec hturn
    rw [run_of_atRest (.inr ⟨hold, hst⟩) hk] at hstop
    cases hstop.symm.trans hst

theorem comesTo_run (n : Nat) (m : Machine σ) : m.ComesTo [] (run n m) := by
  induction n with
  | zero => exact .here
  | succ n ih =>
    by_cases hrun : (run n m).Running
    · rw [(run_succ n m).1 hrun]
      exact ih.tick hrun
    · rw [(run_succ n m).2 (not_running_iff.1 hrun)]
      exact ih

def reading (t : Text) : Program := (Program.parse t []).toOption.getD .empty

theorem parse_reading (h : (parse t []).isOk = true) : parse t [] = .ok (reading t) := by
  unfold reading
  cases hp : parse t [] with
  | ok p => rfl
  | error e =>
    rw [hp] at h
    cases h

def leaving : Text := "say 'in'; leave"

def rounds (s : Stmt) : Program :=
  .ofBody [] [] [.loop ⟨1, 1⟩ (.times (.literal "3" none)) none [s],
    .clause ⟨4, 1⟩ (.say (some (.literal "out" (some .single))))]

def roundsOfText : Program := rounds (.clause ⟨2, 1⟩ (.interpret (.literal leaving (some .double))))

def roundsOfGroup : Program := rounds (.group ⟨2, 1⟩ (Block.onLine 2 (reading leaving).body))

theorem rounds_inlines : roundsOfText.Inlines leaving (reading leaving).body roundsOfGroup where
  name := rfl
  labels := rfl
  body := by
    refine .cons (.loop _ _ rfl (.cons (.inlined ?_ rfl ?_) .nil)) (Inlines.refl _ _)
    · exact Expr.denotes_literal (by decide)
    · exact inlines_onLine 2 _

theorem interpret_equals_inlining_leaving :
    (run 9 (idle.begin roundsOfText [])).interp.said = #["in".toList, "out".toList] ∧
    ∃ w, (idle.begin roundsOfGroup []).ComesTo [] w ∧ w.interp.status = .stopped ∧
      w.interp.said = #["in".toList, "out".toList] := by
  have hstop : (run 9 (idle.begin roundsOfText [])).interp.status = .stopped := by decide +kernel
  have hsaid : (run 9 (idle.begin roundsOfText [])).interp.said = #["in".toList, "out".toList] := by decide +kernel
  have hopen : ∀ k < 10, (run k (idle.begin roundsOfText [])).interp.interpretBlocked = false := by decide +kernel
  obtain ⟨hforth, -⟩ := interpret_equals_inlining (parse_reading (by decide +kernel)) (by decide +kernel) rounds_inlines idle []
    fun us m' c pos x hm _ _ => by
      obtain ⟨k, hk, rfl⟩ := hm.of_stops hstop
      exact hopen k (by omega)
  obtain ⟨w, hw, heffects⟩ := hforth [] _ (comesTo_run 9 _)
  exact ⟨hsaid, w, hw, heffects.status.trans hstop, heffects.said.trans hsaid⟩

def forbidding (s : Stmt) : Program :=
  .ofBody [] [] [.loop ⟨1, 1⟩ (.times (.literal "2" none)) none [s, .clause ⟨3, 1⟩ .noInterpret],
    .clause ⟨5, 1⟩ (.say (some (.literal "done" (some .single))))]

/-- **NO-INTERPRET tells INTERPRET and the group apart**: if it is executed between two rounds of a loop around the clause,
the clause fails in the second round, and the group does not. -/
theorem noInterpret_tells_apart :
    (reading "do 2\ninterpret 'nop'\nno-interpret\nend\nsay 'done'").body =
      (forbidding (.clause ⟨2, 1⟩ (.interpret (.literal "nop" (some .single))))).body ∧
    (forbidding (.clause ⟨2, 1⟩ (.interpret (.literal "nop" (some .single))))).Inlines "nop" (reading "nop").body
      (forbidding (.group ⟨2, 1⟩ (Block.onLine 2 (reading "nop").body))) ∧
    (run 12 (idle.begin (forbidding (.clause ⟨2, 1⟩ (.interpret (.literal "nop" (some .single))))) [])).interp.said = #[] ∧
    (run 12 (idle.begin (forbidding (.clause ⟨2, 1⟩ (.interpret (.literal "nop" (some .single))))) [])).interp.exitCode = 35 ∧
    (run 20 (idle.begin (forbidding (.group ⟨2, 1⟩ (Block.onLine 2 (reading "nop").body))) [])).interp.said = #["done".toList] ∧
    (run 20 (idle.begin (forbidding (.group ⟨2, 1⟩ (Block.onLine 2 (reading "nop").body))) [])).interp.exitCode = 0 := by
  refine ⟨by decide +kernel, ⟨rfl, rfl, ?_⟩, by decide +kernel, by decide +kernel, by decide +kernel, by decide +kernel⟩
  refine .cons (.loop _ _ rfl (.cons (.inlined ?_ rfl ?_) (Block.Inlines.refl _ _))) (Block.Inlines.refl _ _)
  · exact Expr.denotes_literal (by decide)
  · exact Block.inlines_onLine 2 _

end Machine

end Rexx
