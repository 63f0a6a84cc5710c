import Rexx.Proofs.Session.Containment
import Rexx.Proofs.Structured.Evaluation

/-!
# `Structured.Ticks` — single ticks of structured programs

What one tick does to a machine in a structured program: the variables change as the computations of
`Rexx.Proofs.Structured.Semantics` say, the cursors move, and a fault ends the run.
-/

namespace Rexx

open Engine Interpreter Machine Plain Set Stmt Structured

/-! ## How a run ends -/

namespace Machine

variable {σ : Type} {m m' : Machine σ}

theorem run_add (j k : Nat) (m : Machine σ) : run (j + k) m = run k (run j m) := by
  induction k with
  | zero => rfl
  | succ k ih =>
    by_cases hrun : (run (j + k) m).Running
    · rw [← Nat.add_assoc, (run_succ (j + k) m).1 hrun, (run_succ k (run j m)).1 (ih ▸ hrun), ih]
    · have hrest := not_running_iff.1 hrun
      rw [← Nat.add_assoc, (run_succ (j + k) m).2 hrest, (run_succ k (run j m)).2 (ih ▸ hrest), ih]

theorem running_of_le {j k : Nat} (h : (run k m).Running) (hjk : j ≤ k) : (run j m).Running := by
  by_contra hj
  have hrest := not_running_iff.1 hj
  rw [run_of_atRest hrest hjk] at h
  exact hj h

def raises? (m : Machine σ) : Option (Event × Int) :=
  if m.interp.halted then some (Fault.interrupted.condition.event, Fault.interrupted.condition.code)
  else match Engine.step m with
    | .error (.raised c) _ => some (c.event, c.code)
    | _ => none

/-- **A run ends**: it stops with the variables of the main program and the lines said given, either normally and without a
report, or with the report of a condition. -/
structure EndsWith (m : Machine σ) (s : Structured.Scene) (r : Option (Event × Int)) : Prop where
  ends : ∃ n, (run n m).Running ∧ (run n m).raises? = r ∧ (run (n + 1) m).interp.status = .stopped ∧
    (run (n + 1) m).interp.mainVariables = s.vars ∧ (run (n + 1) m).interp.said = s.said ∧
    match r with
    | none => (run (n + 1) m).interp.error = []
    | some (e, code) => ∃ rest, (run (n + 1) m).interp.error = e.name ++ " " ++ Text.ofInt code ++ rest

theorem EndsWith.unique {s s' : Scene} {r r' : Option (Event × Int)} (h : m.EndsWith s r)
    (h' : m.EndsWith s' r') : s = s' ∧ r = r' := by
  obtain ⟨n, hrun, hr, hstop, hv, hs, -⟩ := h.ends
  obtain ⟨n', hrun', hr', hstop', hv', hs', -⟩ := h'.ends
  have hle : ∀ a b : Nat, (run (a + 1) m).interp.status = .stopped → (run b m).Running → b ≤ a := by
    intro a b ha hb
    by_contra hlt
    have hrunning := running_of_le hb (show a + 1 ≤ b by omega)
    cases ha.symm.trans hrunning
  obtain rfl : n = n' := le_antisymm (hle _ _ hstop' hrun) (hle _ _ hstop hrun')
  refine ⟨?_, hr.symm.trans hr'⟩
  cases s
  cases s'
  cases hv.symm.trans hv'
  cases hs.symm.trans hs'
  rfl

theorem EndsWith.before {s : Scene} {r : Option (Event × Int)} (j : Nat) (h : (run j m).EndsWith s r) :
    m.EndsWith s r := by
  obtain ⟨n, h⟩ := h.ends
  refine ⟨j + n, ?_⟩
  rw [Nat.add_assoc, run_add j n, run_add j (n + 1)]
  exact h

end Machine

namespace Structured

variable {σ α : Type} {o : Options} {S T : Set Site} {m m' : Machine σ} {cs cs' K : List Cursor} {c : Cursor} {s s' : Scene}
  {otherwise : Option (List Stmt)}

/-! ## Where a machine stands -/

structure Lands (o : Options) (S : Set Site) (m : Machine σ) (cs : List Cursor) (s : Scene) : Prop where
  calm : m.Calm o
  running : m.Running
  halted : m.interp.halted = false
  error : m.interp.error = []
  cursors : m.top.cursors = cs
  unnoted : ∀ k ∈ S, m.top.memo.lookup k = none
  vars : m.interp.vars = s.vars
  said : m.interp.said = s.said

abbrev Stands (o : Options) (m : Machine σ) (cs : List Cursor) (s : Scene) : Prop := Lands o Set.univ m cs s

section

variable (h : Lands o S m cs s)
include h

namespace Lands

theorem mono (hs : T ⊆ S) : Lands o T m cs s :=
  { h with unnoted := fun k hk => h.unnoted k (hs hk) }

theorem modifyTop {f : Frame → Frame} (hf : ∀ fr : Frame, fr.cursors = cs → f fr = { fr with cursors := cs' }) :
    ∃ m', Engine.modifyTop f m = .ok ⟨⟩ m' ∧ Lands o S m' cs' s := by
  refine ⟨m.modifyTop fun fr => { fr with cursors := cs' }, ?_, ?_⟩
  · rw [Engine.modifyTop_apply]
    simp only [Machine.modifyInterp, Interpreter.modifyTop, Stack.modifyTop, hf _ h.cursors]
  · exact ⟨⟨h.calm.options, h.calm.callers, h.calm.traps⟩, h.running, h.halted, h.error, rfl, h.unnoted, h.vars, h.said⟩

omit h in
theorem advance (h : Lands o S m (c :: K) s) :
    ∃ m', advance m = .ok ⟨⟩ m' ∧ Lands o S m' ({ c with pc := c.pc + 1 } :: K) s :=
  h.modifyTop fun fr hfr => by
    rw [Frame.advance, hfr]
    rfl

theorem announced (c : Cursor) (stmt : Stmt) : Lands o S (m.announced c stmt) cs s :=
  ⟨⟨h.calm.options, h.calm.callers, h.calm.traps⟩, h.running, h.halted, h.error, h.cursors, h.unnoted, h.vars, h.said⟩

end Lands

theorem Lands.mirrored {e : Engine σ α} {p : Plain α} (he : Mirrors o T e p) (hT : T ⊆ S) : match p s.vars with
    | .ok a v => ∃ m', e m = .ok a m' ∧ Lands o (S \ T) m' cs { s with vars := v }
    | .error f v => ∃ m', e m = .error (.raised f.condition) m' ∧ Lands o ∅ m' cs { s with vars := v } := by
  obtain ⟨memo, hmemo, hm⟩ := he m h.calm fun k hk => h.unnoted k (hT hk)
  rw [h.vars] at hm
  rw [hm]
  have hcalm : ∀ v, (m.dress memo v).Calm o := h.calm.dress memo
  cases p s.vars with
  | error f v =>
    exact ⟨_, rfl, hcalm v, h.running, h.halted, h.error, h.cursors, by simp, rfl, h.said⟩
  | ok a v =>
    refine ⟨_, rfl, hcalm v, h.running, h.halted, h.error, h.cursors, fun k hk => ?_, rfl, h.said⟩
    exact (hmemo k hk.2).trans (h.unnoted k hk.1)

def Acts (o : Options) (e : Engine σ Unit) (m : Machine σ) (s : Scene) (goal : α → List Cursor) :
    EStateM.Result Fault Variables α → Prop
  | .ok a v => ∃ m', e m = .ok ⟨⟩ m' ∧ Lands o ∅ m' (goal a) { s with vars := v }
  | .error f v => ∃ m' cs, e m = .error (.raised f.condition) m' ∧ Lands o ∅ m' cs { s with vars := v }

namespace Acts

variable {β : Type} {goal : β → List Cursor}

theorem bind {e : Engine σ α} {p : Plain α} {k : α → Engine σ Unit} {q : α → Plain β} (he : Mirrors o T e p) (hT : T ⊆ S)
    (hk : ∀ a v m', p s.vars = .ok a v → Lands o (S \ T) m' cs { s with vars := v } →
      Acts o (k a) m' { s with vars := v } goal (q a v)) :
    Acts o (e >>= k) m s goal ((p >>= q) s.vars) := by
  have hm := h.mirrored he hT
  rw [bind_apply]
  cases hp : p s.vars with
  | error f v =>
    rw [hp] at hm
    obtain ⟨m', hem, h'⟩ := hm
    exact ⟨m', cs, bind_of_error hem, h'⟩
  | ok a v =>
    rw [hp] at hm
    obtain ⟨m', hem, h'⟩ := hm
    have ha := hk a v m' hp h'
    unfold Acts at ha ⊢
    rw [bind_of_ok hem]
    exact ha

theorem moved {f : Frame → Frame} {k : PUnit → Engine σ Unit} {r : EStateM.Result Fault Variables β}
    (hf : ∀ fr : Frame, fr.cursors = cs → f fr = { fr with cursors := cs' })
    (hk : ∀ m', Lands o S m' cs' s → Acts o (k ⟨⟩) m' s goal r) : Acts o (modifyTop f >>= k) m s goal r := by
  obtain ⟨m', hm, h'⟩ := h.modifyTop hf
  have ha := hk m' h'
  unfold Acts at ha ⊢
  rw [bind_of_ok hm]
  exact ha

theorem moves {f : Frame → Frame} {b : β} (hf : ∀ fr : Frame, fr.cursors = cs → f fr = { fr with cursors := goal b }) :
    Acts o (modifyTop f) m s goal (.ok b s.vars) := by
  obtain ⟨m', hm, h'⟩ := h.modifyTop hf
  exact ⟨m', hm, h'.mono (empty_subset S)⟩

theorem mirrored {e : Engine σ Unit} {p : Plain Unit} (he : Mirrors o T e p) (hT : T ⊆ S) :
    Acts o e m s (fun _ => cs) (p s.vars) := by
  have hm := h.mirrored he hT
  cases hp : p s.vars with
  | error f v =>
    rw [hp] at hm
    obtain ⟨m', hem, h'⟩ := hm
    exact ⟨m', cs, hem, h'⟩
  | ok a v =>
    rw [hp] at hm
    obtain ⟨m', hem, h'⟩ := hm
    exact ⟨m', hem, h'.mono (empty_subset _)⟩

end Acts

end

/-! ## Ticks -/

theorem Lands.tick_ok (h : Stands o m cs s) (hstep : step m = .ok ⟨⟩ m') (h' : Lands o S m' cs' s') :
    Stands o (run 1 m) cs' s' := by
  have hdepth : m'.stack.depth = m.stack.depth := by
    unfold Stack.depth
    rw [h.calm.callers, h'.calm.callers]
  have htick : run 1 m = m'.modifyTop fun f => { f.forget with steps := f.steps + 1 } := by
    rw [(run_succ 0 m).1 h.running]
    simp only [run, tick, h.halted, hstep, Machine.modifyInterp, completeStep, hdepth]
    simp
  rw [htick]
  exact ⟨⟨h'.calm.options, h'.calm.callers, h'.calm.traps⟩, h'.running, h'.halted, h'.error, h'.cursors,
    fun _ _ => rfl, h'.vars, h'.said⟩

theorem raise_calm {i : Interpreter σ} (hcallers : i.stack.callers = []) (htraps : i.stack.top.traps = [])
    (e : Condition) : i.raise e = i.fatal { e with line := some (e.line.getD i.line) } := by
  have hnone : ∀ ev, i.stack.unwindTo ev = none := by
    intro ev
    unfold Stack.unwindTo
    rw [hcallers]
    simp [Stack.unwindFrom, Frame.trap?, htraps]
  unfold raise
  simp [hnone]

theorem Lands.tick_raised {f : Fault} (h : Stands o m cs s) (hstep : step m = .error (.raised f.condition) m')
    (h' : Lands o S m' cs' s') : m.EndsWith s' (some (f.condition.event, f.condition.code)) := by
  have htick : run (0 + 1) m = m'.modifyInterp fun i =>
      i.fatal { f.condition with line := some (f.condition.line.getD i.line) } := by
    rw [(run_succ 0 m).1 h.running]
    simp only [run, tick, h.halted, hstep, Machine.modifyInterp,
      raise_calm h'.calm.callers h'.calm.traps]
    simp
  have hraises : m.raises? = some (f.condition.event, f.condition.code) := by
    unfold raises?
    simp [h.halted, hstep]
  have hmain : m'.stack.main = m'.top := by
    unfold Stack.main
    rw [h'.calm.callers]
    rfl
  refine ⟨0, h.running, hraises, ?_⟩
  rw [htick]
  refine ⟨rfl, ?_, h'.said, ?_⟩
  · show (⟨m'.interp.store, _⟩ : Variables) = s'.vars
    rw [← h'.vars]
    show (⟨m'.interp.store, m'.stack.main.pool⟩ : Variables) = _
    rw [hmain]
    rfl
  · refine ⟨?_, ?_⟩
    · exact " running " ++ m'.interp.program.title ++ ", line " ++ Text.ofNat (f.condition.line.getD m'.interp.line) ++ ": "
        ++ f.condition.text
    · simp only [Machine.modifyInterp, fatal, reportOf, Option.getD_some, List.append_assoc]

/-! ## Statements -/

abbrev next (c : Cursor) : Cursor := { c with pc := c.pc + 1 }

theorem advance_next {fr : Frame} (h : fr.cursors = c :: K) : fr.advance = { fr with cursors := next c :: K } := by
  rw [Frame.advance, h]
  rfl

def inside (c : Cursor) (K : List Cursor) (block : List Stmt) : List Cursor := .at block 0 c.unit :: next c :: K

def insideUnlessEmpty (c : Cursor) (K : List Cursor) (block : List Stmt) : List Cursor :=
  if block.isEmpty then next c :: K else inside c K block

theorem enterBlock_acts (block : List Stmt) (h : Lands o S m (next c :: K) s) :
    Acts o (enterBlock block) m s (insideUnlessEmpty c K) (.ok block s.vars) := by
  unfold enterBlock
  split
  · rename_i hb
    have hstay : insideUnlessEmpty c K block = next c :: K := if_pos hb
    exact ⟨m, rfl, (hstay ▸ h).mono (empty_subset _)⟩
  · rename_i hb
    refine .moves h fun fr hfr => ?_
    unfold insideUnlessEmpty
    rw [if_neg hb]
    simp [Frame.enter, Frame.unit, hfr, inside]

theorem ifThen_acts {cond : Expr} (thens elses : List Stmt) (pos : Position) (hcond : cond.isPlain = true)
    (h : Stands o m (c :: K) s) :
    Acts o (Engine.exec (.ifThen pos cond thens elses)) m s
      (fun b => insideUnlessEmpty c K (if b = true then thens else elses)) (Plain.truth o cond s.vars) := by
  have hp : Plain.truth o cond = Plain.truth o cond >>= fun b => Pure.pure b := (bind_pure _).symm
  rw [hp]
  refine Acts.bind h (Engine.evalTruth_mirrors cond [0] hcond) (Set.subset_univ _) fun b v m' _ h' => ?_
  refine Acts.moved h' (fun fr => advance_next) fun m'' h'' => ?_
  have hb := enterBlock_acts (if b = true then thens else elses) h''
  exact hb

theorem execWhens_acts (whens : List (Expr × List Stmt)) {i : Nat}
    (hw : Stmt.whensStructured whens = true) (h : Lands o (Site.onward i) m (c :: K) s) :
    Acts o (Engine.execWhens otherwise i whens) m s (insideUnlessEmpty c K) (Plain.choose o otherwise whens s.vars) := by
  induction whens generalizing i m s with
  | nil =>
    cases otherwise with
    | none => exact ⟨m, _, rfl, h.mono (Set.empty_subset _)⟩
    | some block => exact Acts.moved h (fun fr => advance_next) fun m' h' => enterBlock_acts block h'
  | cons w whens ih =>
    obtain ⟨cond, block⟩ := w
    obtain ⟨⟨hcond, -⟩, hrest⟩ : (cond.isPlain = true ∧ Stmt.areStructured block = true) ∧
        Stmt.whensStructured whens = true := by simpa [Stmt.whensStructured] using hw
    have hsub : Site.tree [i] ⊆ Site.onward i := fun k hk => ⟨i, le_refl i, hk⟩
    refine Acts.bind h (Engine.evalTruth_mirrors cond [i] hcond) hsub fun b v m' _ h' => ?_
    cases b with
    | true => exact Acts.moved h' (fun fr => advance_next) fun m'' h'' => enterBlock_acts block h''
    | false =>
      refine ih hrest (h'.mono ?_)
      rintro k ⟨j, hij, hk⟩
      exact ⟨⟨j, by omega, hk⟩, Site.not_mem_tree_of_ne (by omega) hk⟩

theorem assign_acts (name : Text) {x : Expr} (hx : x.isPlain = true) {pos : Position} (h : Stands o m (c :: K) s) :
    Acts o (Engine.exec (.clause pos (.assign name x))) m s (fun _ => next c :: K)
      ((do Plain.assign name (← Plain.value o x)) s.vars) := by
  rw [Engine.exec, Engine.execClause]
  refine Acts.bind h (Engine.eval_mirrors x [0] hx) (Set.subset_univ _) fun value v m' _ h' => ?_
  refine Acts.moved h' (fun fr => advance_next) fun m'' h'' => ?_
  exact Acts.mirrored h'' (Engine.assign_mirrors name value) (Set.empty_subset _)

theorem choose_structured {whens : List (Expr × List Stmt)} {block : List Stmt}
    {v v' : Variables} (hw : whensStructured whens = true) (ho : otherwiseStructured otherwise = true)
    (h : choose o otherwise whens v = .ok block v') : areStructured block = true := by
  induction whens generalizing v with
  | nil =>
    cases otherwise with
    | none => cases h
    | some b =>
      cases h
      exact ho
  | cons w whens ih =>
    obtain ⟨cond, b⟩ := w
    obtain ⟨⟨-, hb⟩, hrest⟩ : (cond.isPlain = true ∧ areStructured b = true) ∧
        whensStructured whens = true := by simpa [whensStructured] using hw
    obtain ⟨t, v1, -, h⟩ := bind_eq_ok h
    cases t with
    | true =>
      cases h
      exact hb
    | false => exact ih hrest h

theorem assignFirst_mirrors (control : Control) (first : Option Float) :
    Engine.Mirrors (σ := σ) o S (Engine.assignFirst control first) (Plain.initialise o control first) := by
  unfold Engine.assignFirst Plain.initialise
  cases control.var? with
  | none => exact .pure _
  | some var =>
    cases first with
    | none => exact .pure _
    | some x => exact formatNumber_mirrors (assign_mirrors var _)

theorem execLoop_acts {control : Control} {guard : Option Guard} (body : List Stmt) (hcontrol : control.isPlain = true)
    (h : Stands o m (c :: K) s) :
    Acts o (Engine.execLoop control guard body) m s (fun l => ⟨body, 0, c.unit, some l⟩ :: next c :: K)
      ((do let (l, first) ← Plain.head o control guard; Plain.initialise o control first; return l) s.vars) := by
  refine Acts.bind h (Engine.loopStart_mirrors control guard hcontrol) (Set.subset_univ _) fun p v m' _ h' => ?_
  obtain ⟨l, first⟩ := p
  refine Acts.moved h' (fun fr => advance_next) fun m'' h'' => ?_
  refine Acts.bind h'' (assignFirst_mirrors control first) (Set.empty_subset _) fun _ v' m3 _ h3 => ?_
  refine Acts.moves h3 fun fr hfr => ?_
  simp [Frame.enter, Frame.unit, hfr]

/-! ## Loops -/

def around (c : Cursor) (K : List Cursor) : Option LoopState → List Cursor
  | some l => { c with pc := 0, loop := some { l with phase := .body } } :: K
  | none => K

theorem testLoop_acts {l : LoopState} {B : Set Site} (hB : B ⊆ S)
    (hguard : Engine.Mirrors (σ := σ) o B (Engine.guardAdmits l.guard) (Plain.guardAdmits o l.guard))
    (h : Lands o S m (c :: K) s) : Acts o (Engine.testLoop l) m s (around c K) (Plain.testRound o l s.vars) := by
  refine Acts.bind h (Engine.controlAdmits_mirrors l) (Set.empty_subset _) fun b v m' _ h' => ?_
  rw [Set.sdiff_empty] at h'
  cases b with
  | false => exact Acts.moves h' fun fr hfr => by simp [around, hfr]
  | true =>
    refine Acts.bind h' hguard hB fun b v' m'' _ h'' => ?_
    cases b with
    | false => exact Acts.moves h'' fun fr hfr => by simp [around, hfr]
    | true => exact Acts.moves h'' fun fr hfr => by simp [around, hfr]

theorem guard_mirrors {g : Option Guard} (h : g.all Guard.isPlain = true) :
    ∃ A B : Set Site, Mirrors (σ := σ) o A (guardEnds g) (guardEnds o g) ∧
      Mirrors (σ := σ) o B (guardAdmits g) (guardAdmits o g) ∧ B ⊆ univ \ A := by
  match g, h with
  | none, _ => exact ⟨∅, ∅, .pure false, .pure true, by simp⟩
  | some (.whilst x), h => exact ⟨∅, Site.tree [0], .pure false, evalTruth_mirrors x [0] h, by simp⟩
  | some (.untilTrue x), h => exact ⟨Site.tree [0], ∅, evalTruth_mirrors x [0] h, .pure true, by simp⟩

theorem stepLoop_acts {l : LoopState} (hguard : l.guard.all Guard.isPlain = true) (h : Stands o m (c :: K) s) :
    Acts o (Engine.stepLoop l) m s (around c K) (Plain.round o l s.vars) := by
  obtain ⟨A, B, hends, hadmits, hBA⟩ := guard_mirrors hguard
  unfold Engine.stepLoop Plain.round
  split
  · refine Acts.bind h hends (Set.subset_univ _) fun b v m' _ h' => ?_
    cases b with
    | true => exact Acts.moves h' fun fr hfr => by simp [around, hfr]
    | false =>
      have hreach : (reachRound l >>= fun _ => Engine.testLoop l.next : Engine σ Unit) =
          (countOn l >>= fun _ => pure l.next) >>= fun l' => setLoop l' >>= fun _ => Engine.testLoop l' := by
        simp [reachRound]
      show Acts o (reachRound l >>= _) _ _ _ _
      rw [hreach]
      refine Acts.bind h' (Engine.countOn_mirrors l) (Set.empty_subset _) fun l' v' m'' hadv h'' => ?_
      refine Acts.moved h'' (fun fr hfr => by rw [hfr, List.modifyHead_cons]) fun m3 h3 => ?_
      have hkeep : l'.guard = l.guard := Plain.advance_guard o hadv
      have hcursors : around { c with loop := some l' } K = around c K := by
        funext r
        cases r <;> rfl
      rw [Set.sdiff_empty] at h3
      exact hcursors ▸ testLoop_acts hBA (hkeep ▸ hadmits) h3
  · exact testLoop_acts (Set.subset_univ _) hadmits h

end Structured

end Rexx
