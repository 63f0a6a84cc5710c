import Rexx.Proofs.Replay.Routines

/-!
# `Replay.Rounds` — each round of a loop is decided once

A loop with WHILE is tested before each round: first its control, which may assign a variable, and then the condition.
-/

namespace Rexx

open Machine

/-- The loop of the innermost block. -/
def Machine.InLoop {σ : Type} (l : LoopState) (m : Machine σ) : Prop :=
  ∃ c cs, m.top.cursors = c :: cs ∧ c.loop = some l

/-- What has been tested of the control of a loop still holds: the control variable is a number within the limit, and
assigning the tail again changes nothing. -/
def LoopState.Upheld {σ : Type} (l : LoopState) (m : Machine σ) : Prop :=
  match l.control with
  | .counted var _ _ _ _ => ∀ limit ∈ l.limit, ∃ x,
    Engine.controlValue var m = .ok x m ∧ (if l.step >= 0.0 then decide (x > limit) else decide (x < limit)) = false
  | .tails var _ => ∀ t ∈ l.tails.head?, m.interp.vars.assign? var t = some m.interp.vars
  | _ => True

/-- The way back to the test of a loop, with the settings for numbers as they were, and with what has been tested of the
control upheld. -/
def Machine.Undisturbed {σ : Type} (d : Nat) (m u : Machine σ) : Prop :=
  m.Keeping d u ∧ ∀ l, u.InLoop l → l.Upheld u

theorem Machine.InLoop.later {σ : Type} {m u : Machine σ} {l : LoopState} {S : Set Site} (h : m.InLoop l)
    (hu : m.Later S u) : u.InLoop l := by
  obtain ⟨c, cs, hc, hl⟩ := h
  exact ⟨c, cs, by rw [hu.top.same]; exact hc, hl⟩

namespace Engine

variable {σ α : Type} {m m' u : Machine σ} {d : Nat} {l l' : LoopState} {x : Expr}

/-! ## A round that is decided once -/

def conclude (l : LoopState) (v : Text) : Engine σ Unit := do
  if ← orFail (truth v) then beginRound l else leaveBlock

/-- **A round that is decided once**: the control of the loop is tested, then the condition is evaluated, and the body begins
if both let it. -/
def roundInPlace (ρ : Machine σ → Machine σ → Prop) (l : LoopState) (x : Expr) : Machine σ → Result σ Unit → Prop :=
  Sequel (Once (controlAdmits l)) fun admits =>
    if admits then Sequel (evalInPlace ρ [0] x) fun v => Once (conclude l v) else Once leaveBlock

theorem testLoop_eq (h : l.guard = some (.whilst x)) : (testLoop l : Engine σ Unit) =
      controlAdmits l >>= fun admits => if admits then eval [0] x >>= conclude l else leaveBlock := by
  refine bind_congr fun admits => ?_
  cases admits with
  | false => rfl
  | true =>
    have hguard : (guardAdmits l.guard : Engine σ Bool) = eval [0] x >>= fun v => orFail (truth v) := by rw [h]; rfl
    rw [hguard, bind_assoc]
    refine bind_congr fun v => bind_congr fun b => ?_
    cases b <;> rfl

theorem conclude_immediate (l : LoopState) (v : Text) : Immediate (conclude l v : Engine σ Unit) :=
  .bind (.orFail _) fun b => by
    cases b
    · exact .modifyTop _
    · exact .modifyTop _

theorem step_of_test (hl : l.phase = .test) (h : m.InLoop l) : step m = testLoop l m := by
  obtain ⟨c, cs, hc, hloop⟩ := h
  simp [step, bind_of_ok (top_apply m), hc, hloop, hl, stepLoop]

theorem controlAdmits_of_upheld (hm : controlAdmits l m = .ok true m') (h : l.Upheld u) :
    controlAdmits l u = .ok true u := by
  unfold controlAdmits at hm ⊢
  unfold LoopState.Upheld at h
  split at hm
  · cases hm
  · rename_i hleft
    rw [if_neg hleft]
    cases hc : l.control with
    | counted =>
      rw [hc] at h
      cases hlimit : l.limit with
      | none => rfl
      | some limit =>
        obtain ⟨x, hx, hwithin⟩ := h limit hlimit
        dsimp only
        rw [bind_of_ok hx, hwithin]
        rfl
    | tails var stem =>
      rw [hc] at h hm
      cases ht : l.tails with
      | nil =>
        rw [ht] at hm
        cases hm
      | cons t ts =>
        have hassign : (assign var t) u = .ok () u := by
          rw [assign, bind_of_ok (interp_apply u), h t (ht ▸ rfl)]
          rfl
        exact bind_of_ok hassign
    | _ => rfl

theorem undisturbed_faithful (d : Nat) : Faithful (σ := σ) (Evaluating d) (Undisturbed d) where
  keeps := (keeping_faithful d).keeps
  later hm hs h := (keeping_faithful d).later hm hs h.1

theorem replays_testLoop_iff (hguard : l.guard = some (.whilst x)) (hm : m.Evaluating d)
    (hnotes : Unnoted Set.univ m) (hloop : m.InLoop l) (r : Result σ Unit) :
    Replays (Undisturbed d) (testLoop l) m r ↔ roundInPlace (Undisturbed d) l x m r := by
  have hρ := undisturbed_faithful (σ := σ) d
  have hlater : ∀ admits m', controlAdmits l m = .ok admits m' → m.Later ∅ m' := fun _ _ h =>
    ((evaluates_computing.controlAdmits l m).ok h).later
  rw [testLoop_eq hguard, Replays.bind_standing_iff (immediate_computing.controlAdmits l)
    (Q := fun admits u => admits = true ∧ u.InLoop l ∧ controlAdmits l u = .ok true u ∧ u.Evaluating d)
    (fun admits u hu => hu.1 ▸ hu.2.2.1)]
  · refine Sequel.congr (fun _ => .rfl) (fun admits m' h r => ?_) r
    split
    · exact (Operand.eval hρ [0] x).act_iff hρ (conclude_immediate l) (hρ.keeps hm (hlater _ _ h))
        ((hnotes.mono (Set.subset_univ _)).later (hlater _ _ h) fun _ _ => id) r
    · exact replays_iff_once (.modifyTop _) r
  · intro admits u m1 u' hu hs hr
    cases admits with
    | false => exact absurd hs (Immediate.modifyTop _ _ _)
    | true =>
      obtain ⟨⟨w, w', hw⟩, hu', hev⟩ : (∃ w w', controlAdmits l w = .ok true w') ∧ u.InLoop l ∧ u.Evaluating d := by
        obtain h | h := hu
        · exact ⟨⟨m, u, h⟩, hloop.later (hlater _ _ h), hρ.keeps hm (hlater _ _ h)⟩
        · exact ⟨⟨u, u, h.2.2.1⟩, h.2.1, h.2.2.2⟩
      have hback := hρ.later hev ((Defers.then (eval_evaluates [0] x u) (conclude_immediate l)).suspended hs) hr
      have hloop' := hu'.later hback
      exact ⟨rfl, hloop', controlAdmits_of_upheld hw (hr.2 l hloop'), hρ.keeps hev hback⟩

theorem testLoop_defers (h : l.guard = some (.whilst x)) (m : Machine σ) : Defers (testLoop l) m := by
  rw [testLoop_eq h]
  refine .bind ((evaluates_computing (S := ∅)).controlAdmits l m) fun admits m1 _ => ?_
  split
  · exact .then (eval_evaluates [0] x m1) (conclude_immediate l)
  · exact .of_immediate (.modifyTop _)

theorem stepLoop_of_after (hl : l.phase = .after) : (stepLoop l : Engine σ Unit) =
    guardEnds l.guard >>= fun ends => if ends then leaveBlock else reachRound l >>= fun _ => testLoop l.next := by
  rw [stepLoop, if_pos hl]

theorem step_of_after (hguard : l.guard = some (.whilst x)) (hl : l.phase = .after) (h : m.InLoop l) :
    (step : Engine σ Unit) m = (reachRound l >>= fun _ => testLoop l.next) m := by
  obtain ⟨c, cs, hc, hloop⟩ := h
  have hends : (guardEnds l.guard : Engine σ Bool) = pure false := by rw [hguard]; rfl
  have hstep : step m = stepLoop l m := by
    simp [step, bind_of_ok (top_apply m), hc, hloop, hl]
  rw [hstep, stepLoop_of_after hl, hends]
  rfl

theorem reachRound_spec (hm : m.Evaluating d) (hnotes : Unnoted Set.univ m) (hloop : m.InLoop l)
    (h : reachRound l m = .ok () m') : m'.Evaluating d ∧ Unnoted Set.univ m' ∧ m'.InLoop l.next := by
  unfold reachRound at h
  cases hn : countOn l m with
  | error e m1 =>
    rw [bind_of_error hn] at h
    cases h
  | ok _ m1 =>
    have hlater := (((evaluates_computing (S := ∅)).countOn l m).ok hn).later
    obtain ⟨c, cs, hc, -⟩ := hloop.later hlater
    have hset : (setLoop l.next) m1 = .ok () (m1.modifyTop fun f =>
        { f with cursors := { c with loop := some l.next } :: cs }) := by
      simp [setLoop, modifyCursor, modifyTop_apply, Machine.modifyInterp, Interpreter.modifyTop, Stack.modifyTop, hc]
    cases (hset.symm.trans ((bind_of_ok hn).symm.trans h))
    obtain ⟨hrun, hdepth⟩ := (Machine.keeping_faithful d).keeps hm hlater
    have hnotes1 : Unnoted Set.univ m1 := hnotes.later hlater fun _ _ => id
    exact ⟨⟨hrun, hdepth⟩, hnotes1, _, cs, rfl, rfl⟩

/-- **Loops are decided once a round**, with a condition in front of the body. The passes that lead from the end of a round, or
from the front of one, to the decision about it have exactly the results of testing the control once and then evaluating the
condition in place, as long as what has been tested of the control is upheld at each return. -/
theorem loop_decided_once (hguard : l.guard = some (.whilst x)) (hl : l.phase ≠ .body) (hrun : m.Running)
    (hd : m.stack.depth = d) (hnotes : Unnoted Set.univ m) (hloop : m.InLoop l) (r : Result σ Unit) :
    Replays (Machine.Undisturbed d) step m r ↔
      if l.phase = .after then
        Sequel (Once (reachRound l)) (fun _ => roundInPlace (Machine.Undisturbed d) l.next x) m r
      else roundInPlace (Machine.Undisturbed d) l x m r := by
  have hρ := undisturbed_faithful (σ := σ) d
  -- a pass that finds the loop in front of a round makes the test, and so does each later pass
  have htest : ∀ {l : LoopState} {m : Machine σ}, l.guard = some (.whilst x) → l.phase = .test → m.Evaluating d →
      m.InLoop l → (Replays (Machine.Undisturbed d) step m r ↔ Replays (Machine.Undisturbed d) (testLoop l) m r) := by
    intro l m hguard hl hm hloop
    refine Replays.congr (P := fun u => u.Evaluating d ∧ u.InLoop l) (fun u hu => step_of_test hl hu.2) ?_ ⟨hm, hloop⟩
    intro u m1 u' hu hs hr
    have hback := hρ.later hu.1 ((testLoop_defers hguard u).suspended hs) hr
    exact ⟨hρ.keeps hu.1 hback, hu.2.later hback⟩
  have hm : m.Evaluating d := ⟨hrun, hd⟩
  split
  · rename_i hafter
    have hfirst := step_of_after hguard hafter hloop
    have himmediate : Immediate (reachRound l : Engine σ Unit) :=
      .bind (immediate_computing.countOn l) fun _ => .modifyTop _
    cases hreach : reachRound l m with
    | error e m' =>
      cases e with
      | suspended => exact absurd hreach (himmediate _ _)
      | raised e => rw [sequel_once_of_raised hreach, Replays.raised_iff (hfirst.trans (bind_of_error hreach))]
    | ok v m' =>
      obtain ⟨hm', hnotes', hloop'⟩ := reachRound_spec hm hnotes hloop hreach
      have hguard' : l.next.guard = some (.whilst x) := hguard
      have hsame : step m = step m' := (hfirst.trans (bind_of_ok hreach)).trans (step_of_test rfl hloop').symm
      rw [sequel_once_of_ok hreach, ← replays_testLoop_iff hguard' hm' hnotes' hloop', ← htest hguard' rfl hm' hloop']
      exact Replays.congr_first hsame fun _ _ _ _ => .rfl
  · rename_i hafter
    have hphase : l.phase = .test := by cases h : l.phase <;> simp_all
    exact (htest hguard hphase hm hloop).trans (replays_testLoop_iff hguard hm hnotes hloop r)

/-- In front of the second round of a loop from 1 to 3, whose condition is a call of the routine `F`. -/
def tested : LoopState :=
  ⟨.counted "I" (.literal "1" none) (some (.literal "3" none)) none none, some (.whilst (.call "F" false [])), .test,
    some 3.0, 1.0, none, []⟩

def testing : Machine Unit :=
  ((poised.start "exit\nf:\nreturn 1" [] []).toOption.getD poised).modifyInterp fun i =>
    (i.setVariables (i.vars.set "I" "2")).modifyTop fun f => { f with cursors := [⟨[], 0, none, some tested⟩] }

def testingMidway : Machine Unit := (suspended? (step testing)).getD testing

theorem loop_decided_once_tested :
    testing.Running ∧ Unnoted Set.univ testing ∧ testing.InLoop tested ∧
    step testing = .error .suspended testingMidway ∧ Machine.Undisturbed 1 testingMidway testingMidway.tick ∧
    ∃ m', step testingMidway.tick = .ok () m' ∧
      roundInPlace (Machine.Undisturbed 1) tested (.call "F" false []) testing (.ok () m') := by
  have hrun : testing.Running := by decide +kernel
  have hd : testing.stack.depth = 1 := by decide +kernel
  have hmemo : testing.top.memo = [] := by decide +kernel
  have hnotes : Unnoted Set.univ testing := fun k _ => by rw [hmemo]; rfl
  have hloop : testing.InLoop tested := ⟨_, _, rfl, rfl⟩
  have hfirst : step testing = .error .suspended testingMidway := suspended_of_isSome (by decide +kernel)
  have hkeeping : Machine.Keeping 1 testingMidway testingMidway.tick := by
    obtain ⟨m', hm'⟩ := ok_of_run' (show (step : Engine Unit Unit).run' testingMidway = some () by decide +kernel)
    refine ⟨.returned ?_ ?_ ?_ hm' ?_ ?_, ?_⟩ <;> decide +kernel
  have hundisturbed : Machine.Undisturbed 1 testingMidway testingMidway.tick := by
    refine ⟨hkeeping, fun l hl => ?_⟩
    have hs := (testLoop_defers rfl testing).suspended ((step_of_test rfl hloop).symm.trans hfirst)
    obtain ⟨c, cs, hc, hloop'⟩ := hloop.later ((keeping_faithful 1).later ⟨hrun, hd⟩ hs hkeeping)
    obtain ⟨c', cs', hc', hl⟩ := hl
    cases hc.symm.trans hc'
    cases hl.symm.trans hloop'
    intro limit hlimit
    cases hlimit
    have hpeek : testingMidway.tick.interp.vars.peek? "I" = some ("2" : Text) := by decide +kernel
    have hnumber : Number.ofText? "2" = some 2.0 := by decide +kernel
    refine ⟨2.0, ?_, by decide +kernel⟩
    rw [controlValue, bind_of_ok (fetch_of_peek? hpeek), hnumber]
    rfl
  obtain ⟨m', hm'⟩ := ok_of_run' (show (step : Engine Unit Unit).run' testingMidway.tick = some () by decide +kernel)
  refine ⟨hrun, hnotes, hloop, hfirst, hundisturbed, m', hm', ?_⟩
  exact (loop_decided_once rfl (by decide) hrun hd hnotes hloop _).1 (.again hfirst hundisturbed (.value hm'))

theorem condition_redecides_limit :
    (((poised.start "do i = 1 to 3 while f()\nsay i\nend\nexit\nf:\nprocedure expose i\ni = 3\nreturn 1" [] []).toOption.map
      fun m => (m.run 40).interp.said) = some #[("3" : Text)]) ∧
    (((poised.start "do i = 1 to 3 while f()\nsay i\nend\nexit\nf:\nprocedure expose i\ni = 10\nreturn 1" [] []).toOption.map
      fun m => (m.run 40).interp.said) = some #[]) := by
  constructor <;> decide +kernel

end Engine

end Rexx
