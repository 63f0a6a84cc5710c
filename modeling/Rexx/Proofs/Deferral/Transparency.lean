import Rexx.Proofs.Deferral.Clauses
import Rexx.Proofs.Machine.Tick

/-!
# `Deferral.Transparency` — suspension does not show

A clause is made again from its start each time the host has answered; the ticks together come to what the clause does
with answers at once.
-/

namespace Rexx

open Engine

namespace Interpreter

variable {σ : Type}

theorem raise_halted (i : Interpreter σ) (c : Condition) : (i.raise c).halted = i.halted := by
  unfold raise landed
  dsimp only
  split
  · rfl
  · split <;> rfl

theorem completeStep_halted (i : Interpreter σ) (depth : Nat) : (i.completeStep depth).halted = i.halted := by
  unfold completeStep
  split <;> rfl

end Interpreter

namespace Machine

variable {σ : Type} {answer : Text → Params → σ → Outcome} {m m' u w : Machine σ} {c : Cursor} {s : Stmt} {d : Nat}
  {r : Engine.Result σ Unit}

/-! ## Clauses executed by ticks -/

/-- **A clause with answers that come later**: the machine `m` executes the clause at which it stands, with the host
answering each time it waits, and comes to `m'` when the clause is done. -/
inductive Deferred (answer : Text → Params → σ → Outcome) : Machine σ → Machine σ → Prop where
  | done {m : Machine σ} (h : ∀ hold, m.tick.interp.status ≠ .held hold) : Deferred answer m m.tick
  | held {m u m' : Machine σ} (h : HostAnswers answer m.tick u) (rest : Deferred answer u m') : Deferred answer m m'

theorem HostAnswers.unique (h : HostAnswers answer m u) (h' : HostAnswers answer m w) : u = w := by
  obtain ⟨hold, q, hst, hq, _, hu⟩ := h
  obtain ⟨hold', q', hst', hq', _, hw⟩ := h'
  cases hst.symm.trans hst'
  cases hq.symm.trans hq'
  exact Option.some.inj (hu.symm.trans hw)

theorem Deferred.unique (h : Deferred answer m m') (h' : Deferred answer m w) : m' = w := by
  induction h with
  | done hd =>
    cases h' with
    | done => rfl
    | held ha _ =>
      obtain ⟨hold, hst⟩ := ha.held
      exact absurd hst (hd hold)
  | held ha _ ih =>
    cases h' with
    | done hd =>
      obtain ⟨hold, hst⟩ := ha.held
      exact absurd hst (hd hold)
    | held ha' rest' =>
      cases ha.unique ha'
      exact ih rest'

def conclude (depth : Nat) : Engine.Result σ Unit → Machine σ
  | .ok _ m => m.modifyInterp fun i => i.completeStep depth
  | .error .suspended m => m
  | .error (.raised c) m => m.modifyInterp fun i => i.raise c

theorem tick_of_not_halted (h : m.interp.halted = false) : m.tick = conclude m.stack.depth (step m) := by
  unfold tick
  rw [h]
  rfl

theorem counterpart_of_concurs {r' : Result σ Unit} (h : Concurs answer d r r') :
    (conclude d r).Counterpart answer (conclude d r') := by
  cases h with
  | value h => exact h
  | raises h => exact h

/-! ## Every further pass -/

/-- What holds whenever the clause is made: the machine stands at it, has its line noted, and has the frames with which it
began. -/
structure Poised (c : Cursor) (s : Stmt) (d : Nat) (u : Machine σ) : Prop where
  about : u.AboutTo c s
  line : u.interp.line = u.interp.lineOf c s
  running : u.Running
  depth : u.stack.depth = d

theorem Poised.answered (h : Poised c s d u) (hs : s.Repeatable) (hsusp : exec s u = .error .suspended m)
    (ha : HostAnswers answer m w) :
    Poised c s d w ∧ w.top.replies ≠ [] ∧ (u.interp.halted = true → w.interp.halted = true) := by
  obtain ⟨m0, k, r, ch, hp, _, _, rfl⟩ :=
    ha.settled ((exec_prepares hs u).suspended hsusp) fun hp => hp.status.trans h.running
  have hsettle := settle_interp m0 k r
  have hcursors : m0.top.cursors = u.top.cursors := by rw [hp.top.same]
  have hlineOf : (m0.settle k r).interp.lineOf c s = u.interp.lineOf c s := by
    rw [hsettle]
    rw [hp.interp]
    rfl
  refine ⟨⟨⟨?_, h.about.phase, h.about.stmt⟩, ?_, ?_, ?_⟩, ?_, fun hh => ?_⟩
  · show (m0.settle k r).interp.stack.top.cursors.head? = some c
    rw [hsettle]
    show m0.top.cursors.head? = some c
    rw [hcursors, h.about.cursor]
  · show (m0.settle k r).interp.line = (m0.settle k r).interp.lineOf c s
    rw [hlineOf, ← h.line]
    show m0.interp.line = u.interp.line
    rw [hp.interp]
  · exact ha.running
  · show (m0.settle k r).interp.stack.depth = d
    rw [hsettle]
    exact (hp.steady.depth).trans h.depth
  · show (m0.settle k r).interp.stack.top.replies ≠ []
    rw [hsettle]
    exact List.cons_ne_nil _ _
  · show (m0.settle k r).interp.halted = true
    exact hp.halted hh

theorem Poised.halted (h : Poised c s d u) (hs : s.Repeatable)
    (hr : Replays (HostAnswers answer) (exec s) u r) (hh : u.interp.halted = true) :
    (conclude d r).interp.halted = true := by
  induction hr with
  | @value u m' v he =>
    exact (m'.interp.completeStep_halted d).trans (((exec_leads s u).ok he).halted hh)
  | @raises u m' e he =>
    exact (m'.interp.raise_halted e).trans (((exec_leads s u).raised he).halted hh)
  | again he ha _ ih =>
    obtain ⟨hw, _, hkeep⟩ := h.answered hs he ha
    exact ih hw (hkeep hh)

theorem not_held_of_moves (hrun : m.Running) (h : m.Moves m') (d : Nat) (hold : Hold) :
    (m'.interp.completeStep d).status ≠ .held hold := by
  rw [(completeStep_leads m'.interp d).2.1]
  cases h with
  | steady h =>
    rw [h.status, hrun]
    simp
  | returned hs hr =>
    rw [hr.status, hs.status, hrun]
    simp
  | stopped _ _ hst _ =>
    rw [hst]
    simp

theorem not_held_of_fails (hrun : m.Running) (h : m.Fails m') (e : Condition) (hold : Hold) :
    (m'.interp.raise e).status ≠ .held hold := by
  have hst : m'.interp.status = .running := by
    cases h with
    | steady h => exact h.status.trans hrun
    | left hs _ he =>
      rw [he]
      exact hs.status.trans hrun
  obtain ⟨hs, _⟩ | hs := (m'.interp.raise_leads e).2
  · rw [hs, hst]
    simp
  · rw [hs]
    simp

theorem Poised.deferred (h : Poised c s d u) (hs : s.Repeatable)
    (hr : Replays (HostAnswers answer) (exec s) u r) (hw : step w = exec s u)
    (hd : w.stack.depth = d) (hh : w.interp.halted = false) (hend : (conclude d r).interp.halted = false) :
    Deferred answer w (conclude d r) := by
  induction hr generalizing w with
  | @value u m' v he =>
    have htick : w.tick = conclude d (.ok v m') := by rw [tick_of_not_halted hh, hw, hd, he]
    rw [← htick]
    refine .done fun hold => ?_
    rw [htick]
    exact not_held_of_moves h.running ((exec_leads s u).ok he) d hold
  | @raises u m' e he =>
    have htick : w.tick = conclude d (.error (.raised e) m') := by rw [tick_of_not_halted hh, hw, hd, he]
    rw [← htick]
    refine .done fun hold => ?_
    rw [htick]
    exact not_held_of_fails h.running ((exec_leads s u).raised he) e hold
  | @again u m1 u' r he ha hrest ih =>
    obtain ⟨hu', hreplies, _⟩ := h.answered hs he ha
    have htick : w.tick = m1 := by
      rw [tick_of_not_halted hh, hw, he]
      rfl
    have hstep : step u' = exec s u' := by
      rw [step_of_aboutTo hu'.about]
      exact congrArg (fun i => exec s { u' with interp := i }) (u'.interp.announced_again hu'.line hreplies)
    have hhalted : u'.interp.halted = false := by
      by_contra hne
      rw [hu'.halted hs hrest (Bool.not_eq_false _ ▸ hne)] at hend
      cases hend
    exact .held (htick ▸ ha) (ih hu' hstep hu'.depth hhalted hend)

/-! ## The comparison -/

theorem atOnce_twin (answer : Text → Params → σ → Outcome) (hroom : m.channel.outstanding < 2 ^ 32 - 1) :
    (m.atOnce answer).Twin answer m :=
  ⟨rfl, rfl, fun name => by simp [atOnce, Registry.atOnce], rfl, rfl, hroom⟩

theorem deferred_counterpart (hnext : m.AboutTo c s) (hs : s.Repeatable) (hout : m.interp.Outward (m.interp.callsOf s))
    (hrun : m.Running) (hroom : m.channel.outstanding < 2 ^ 32 - 1) (hbefore : m.interp.halted = false)
    (hduring : (m.atOnce answer).tick.interp.halted = false) :
    ∃ m', m.Deferred answer m' ∧ (m.atOnce answer).tick.Counterpart answer m' := by
  let m1 := m.announced c s
  have hout1 : m1.interp.Outward (m1.interp.callsOf s) := hout
  obtain ⟨r, hr, hconcurs⟩ := Engine.exec_concurs hs (atOnce_twin (m := m1) answer hroom) hrun hout1
  have hatOnce : (m.atOnce answer).tick = conclude m.stack.depth (Engine.exec s (m1.atOnce answer)) := by
    have hnext' : (m.atOnce answer).AboutTo c s := ⟨hnext.cursor, hnext.phase, hnext.stmt⟩
    have hbefore' : (m.atOnce answer).interp.halted = false := hbefore
    exact (tick_of_not_halted hbefore').trans (congrArg (conclude _) (Engine.step_of_aboutTo hnext'))
  have hpart : (m.atOnce answer).tick.Counterpart answer (conclude m.stack.depth r) :=
    hatOnce ▸ counterpart_of_concurs hconcurs
  have hpoised : Poised c s m.stack.depth m1 := ⟨⟨hnext.cursor, hnext.phase, hnext.stmt⟩, rfl, hrun, rfl⟩
  have hdeferred : m.Deferred answer (conclude m.stack.depth r) :=
    hpoised.deferred hs hr (Engine.step_of_aboutTo hnext) rfl hbefore (by rw [hpart.interp, hduring])
  exact ⟨_, hdeferred, hpart⟩

/-- **Suspension does not show.** A machine is about to execute a statement of which no call enters a routine of the
program, and nobody asks for an interruption before or during it. -/
theorem deferred_transparent (hnext : m.AboutTo c s) (hs : s.Repeatable) (hout : m.interp.Outward (m.interp.callsOf s))
    (hrun : m.Running) (hroom : m.channel.outstanding < 2 ^ 32 - 1) (hbefore : m.interp.halted = false)
    (hduring : (m.atOnce answer).tick.interp.halted = false) :
    ∃ m', (∀ w, m.Deferred answer w ↔ w = m') ∧ (m.atOnce answer).tick.Counterpart answer m' := by
  obtain ⟨m', hdeferred, hpart⟩ := deferred_counterpart hnext hs hout hrun hroom hbefore hduring
  exact ⟨m', fun w => ⟨fun hw => hw.unique hdeferred, fun hw => hw ▸ hdeferred⟩, hpart⟩

def counting : Target Nat where
  id := 1
  name := "TALLY"
  commands := true
  methods := true
  interpolates := true
  methodNames := []
  handle cmd params _ := do
    HostCode.modifyState (· + 1)
    return .wait ⟨cmd, params, 0⟩

def twoCalls : Stmt :=
  .clause ⟨1, 1⟩ (.say (some (.binary (.concat false) (.call "F" false []) (.call "G" false []))))

def tallying : Machine Nat where
  interp := { Interpreter.fresh 0 with
    status := .running
    stack := ⟨{ Frame.fresh with target := some "TALLY", cursors := [.at [twoCalls] 0 none] }, []⟩ }
  targets := (∅ : Registry Nat).insert "TALLY" ⟨counting, [], []⟩
  channel := .empty
  around := ⟨0, ⟨#[], 0⟩, [], []⟩
  host := 0

def inTurn (_ : Text) (_ : Params) (calls : Nat) : Outcome := .done (Text.ofNat calls)

theorem deferred_transparent_tallying :
    ∃ m', (∀ w, tallying.Deferred inTurn w ↔ w = m') ∧ (tallying.atOnce inTurn).tick.Counterpart inTurn m' ∧
      m'.interp.said = #[("12" : Text)] ∧ m'.host = 2 := by
  have hnext : tallying.AboutTo (.at [twoCalls] 0 none) twoCalls := ⟨rfl, (by rintro _ ⟨⟩), rfl⟩
  have hout : tallying.interp.Outward (tallying.interp.callsOf twoCalls) := fun p _ h => h.2.2.2 rfl
  have hduring : (tallying.atOnce inTurn).tick.interp.halted = false := by decide +kernel
  obtain ⟨m', hiff, hpart⟩ := deferred_transparent hnext (.say _ _) hout rfl (by decide +kernel) rfl hduring
  refine ⟨m', hiff, hpart, ?_, ?_⟩
  · rw [hpart.interp]
    decide +kernel
  · rw [hpart.host]
    decide +kernel

end Machine

end Rexx
