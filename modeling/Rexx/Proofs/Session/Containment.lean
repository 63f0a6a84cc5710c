import Rexx.Proofs.Replay.Passes
import Rexx.Proofs.Session.Reachable

/-!
# `Session.Containment` — nothing but an end comes out of a run

Whatever fails in a script, a run ends with a status of the interpreter and a report.
-/

namespace Rexx

open Interpreter

/-! ## Scripts that have failed -/

namespace Interpreter

variable {σ : Type} {i : Interpreter σ} {c : Condition}

structure Failed (i : Interpreter σ) : Prop where
  stopped : i.status = .stopped
  exitCode : i.exitCode ≠ 0
  error : i.error ≠ []
  alone : i.stack.callers = []
  idle : i.stack.top.cursors = []

theorem fatal_failed (i : Interpreter σ) (c : Condition) : (i.fatal c).Failed where
  stopped := rfl
  exitCode := by
    show (if 0 < c.code then c.code else 1) ≠ 0
    split <;> omega
  error := by simp [fatal, reportOf]
  alone := rfl
  idle := rfl

theorem raise_failed (hi : i.status = .running) (h : (i.raise c).status = .stopped) : (i.raise c).Failed := by
  revert h
  unfold raise landed
  dsimp only
  split
  · exact fun _ => fatal_failed i _
  · split
    · exact fun h => (by cases (show i.status = .stopped from h).symm.trans hi)
    · exact fun _ => fatal_failed _ _

end Interpreter

/-! ## Runs -/

namespace Machine

variable {σ : Type} {m : Machine σ}

def AtRest (m : Machine σ) : Prop := m.interp.status = .stopped ∨ ∃ hold, m.interp.status = .held hold

theorem not_running_iff : ¬ m.Running ↔ m.AtRest := by
  unfold AtRest Running
  cases m.interp.status <;> simp

def Completes (m : Machine σ) : Prop := m.interp.halted = false ∧ ∃ w, Engine.step m = .ok () w

theorem tick_stops (hrun : m.Running) (hstop : m.tick.interp.status = .stopped) :
    m.Completes ∨ m.tick.interp.Failed := by
  cases hh : m.interp.halted with
  | true =>
    have htick : m.tick = m.modifyInterp fun i => { i with halted := false }.raise Fault.interrupted.condition := by
      unfold tick
      rw [if_pos hh]
    rw [htick] at hstop ⊢
    exact .inr (raise_failed hrun hstop)
  | false =>
    cases hstep : Engine.step m with
    | ok v w => exact .inl ⟨hh, w, hstep⟩
    | error e w =>
      have hleads := Engine.step_leads m
      cases e with
      | suspended =>
        have htick : m.tick = w := by simp [tick, hh, hstep]
        -- A suspended clause waits for the host or for a routine.
        rw [htick] at hstop
        cases hleads.suspended hstep with
        | held _ _ _ hold =>
          obtain ⟨p, _, rfl⟩ := Option.map_eq_some_iff.1 hold
          cases hstop
        | @entered m0 _ _ _ _ hs _ _ he =>
          rw [he] at hstop
          cases ((show m0.interp.status = .stopped from hstop).symm.trans (hs.status.trans hrun))
        | refused hs => cases hstop.symm.trans (hs.status.trans hrun)
      | raised c =>
        have htick : m.tick = w.modifyInterp fun i => i.raise c := by simp [tick, hh, hstep]
        rw [htick] at hstop ⊢
        refine .inr (raise_failed ?_ hstop)
        cases hleads.raised hstep with
        | steady hs => exact hs.status.trans hrun
        | left hs _ he =>
          rw [he]
          exact hs.status.trans hrun

theorem run_succ (n : Nat) (m : Machine σ) :
    ((run n m).Running → run (n + 1) m = (run n m).tick) ∧ ((run n m).AtRest → run (n + 1) m = run n m) := by
  induction n generalizing m with
  | zero =>
    refine ⟨fun hrun => ?_, fun hrest => ?_⟩
    · have hst : m.interp.status = .running := hrun
      simp [run, hst]
    · obtain hst | ⟨hold, hst⟩ := hrest
      · have hst : m.interp.status = .stopped := hst
        simp [run, hst]
      · have hst : m.interp.status = .held hold := hst
        simp [run, hst]
  | succ n ih =>
    cases hst : m.interp.status with
    | running =>
      have hhead : ∀ k, run (k + 1) m = run k m.tick := fun k => by simp [run, hst]
      rw [hhead n, hhead (n + 1)]
      exact ih m.tick
    | stopped =>
      have hhead : ∀ k, run (k + 1) m = m := fun k => by simp [run, hst]
      rw [hhead n, hhead (n + 1)]
      exact ⟨fun hrun => (by cases hst.symm.trans hrun), fun _ => rfl⟩
    | held hold =>
      have hhead : ∀ k, run (k + 1) m = m := fun k => by simp [run, hst]
      rw [hhead n, hhead (n + 1)]
      exact ⟨fun hrun => (by cases hst.symm.trans hrun), fun _ => rfl⟩

theorem run_of_atRest {n k : Nat} (h : (run n m).AtRest) (hk : n ≤ k) : run k m = run n m := by
  induction k, hk using Nat.le_induction with
  | base => rfl
  | succ k _ ih => rw [(run_succ k m).2 (ih ▸ h), ih]

structure Contained (m : Machine σ) : Prop where
  rests : (∀ n, (run n m).Running) ∨ ∃ n, (run n m).AtRest ∧ ∀ k, n ≤ k → run k m = run n m
  breaks : ∀ n, (run n m).Running → (run (n + 1) m).interp.status = .stopped →
    (run n m).Completes ∨ (run (n + 1) m).interp.Failed

theorem contained (m : Machine σ) : m.Contained where
  rests := by
    by_cases h : ∀ n, (run n m).Running
    · exact .inl h
    · obtain ⟨n, hn⟩ := not_forall.1 h
      exact .inr ⟨n, not_running_iff.1 hn, fun k hk => run_of_atRest (not_running_iff.1 hn) hk⟩
  breaks n hrun hstop := by
    rw [(run_succ n m).1 hrun] at hstop ⊢
    exact tick_stops hrun hstop

end Machine

/-! ## Steps of the host -/

namespace Hosting

variable {σ : Type} {s s' : Session σ} {name : Text} {mb : Member σ} {m : Machine σ} {r : Response}

/-- In a step of the host that led from `s` to `s'` the interpreter `name` has run from the machine `m` on. -/
structure Ran (s : Session σ) (name : Text) (m : Machine σ) (s' : Session σ) : Prop where
  contained : m.Contained
  member : ∃ mb, s'.members[name]? = some mb ∧ mb.interp = (m.run s.patience).interp

theorem run_ran (h : s.members[name]? = some mb) :
    ∃ s', run name s = .ok ((s.machine mb).run s.patience).interp.status s' ∧ Ran s name (s.machine mb) s' :=
  ⟨_, run_of_some h, Machine.contained _, _, Session.member_putBack s name mb _, rfl⟩

theorem start_ran (h : s.members[name]? = some mb) {source title : Text} {p : Program}
    (hp : Program.parse source title = .ok p) :
    ∃ s', start name source title s = .ok (((s.machine mb).begin p []).run s.patience).interp.status s' ∧
      Ran s name ((s.machine mb).begin p []) s' := by
  obtain ⟨s', hrun, hran⟩ := run_ran (Session.member_putBack s name mb ((s.machine mb).begin p []))
  rw [Session.machine_putBack] at hrun hran
  refine ⟨s', (bind_of_ok (operate_of_ok (a := ()) h ?_)).trans hrun, hran.contained, hran.member⟩
  simp only [bind_apply, get_apply, Machine.start_eq_ok.2 ⟨p, hp, rfl⟩, set_apply]

theorem ran_of_same (h : (s.putBack name mb (m.run s.patience)).Same s') : Ran s name m s' :=
  ⟨m.contained, _, (h.members name).trans (Session.member_putBack s name mb _), rfl⟩

/-- **No fault comes out of a run.** Whatever the script does, and whatever the functions, operations and targets of the
host do when they are called, the steps of the host that let an interpreter run end well: to run it, to start a source
that can be read, to answer the request that it waits for, and to deliver an answer on a channel. -/
theorem faults_contained (h : s.Reachable) (hmb : s.members[name]? = some mb) :
    (∃ s', run name s = .ok ((s.machine mb).run s.patience).interp.status s' ∧ Ran s name (s.machine mb) s') ∧
    (∀ source title p, Program.parse source title = .ok p →
      ∃ s', start name source title s = .ok (((s.machine mb).begin p []).run s.patience).interp.status s' ∧
        Ran s name ((s.machine mb).begin p []) s') ∧
    (∀ r hold, mb.interp.status = .held hold → hold.id = r.id → hold.depth = mb.interp.stack.depth ∧
      ∃ m s', (s.machine mb).answer? r = some m ∧ resume name r s = .ok (m.run s.patience).interp.status s' ∧
        Ran s name m s') ∧
    (∀ ref key r, keyOf? s ref = some key →
      deliver ref r s = .ok false s ∨ ∃ name' m s', m.Running ∧ deliver ref r s = .ok true s' ∧ Ran s name' m s') := by
  have hl := h.linked
  refine ⟨run_ran hmb, fun _ _ _ hp => start_ran hmb hp, fun r hold hst hid => ?_, fun ref key r hkey => ?_⟩
  · have hm := Machine.answer?_of_held (m := s.machine mb) hst hid
    obtain ⟨s', hres, hs⟩ := resume_of_some hmb hm
    exact ⟨(machine_agrees hl hmb).depth hold hst, _, s', hm, hres, ran_of_same hs⟩
  · cases ho : (s.channelAt key).owner? r.id with
    | none => exact .inl (deliver_of_none hkey ho)
    | some owner =>
      -- The request has an owner, and that the owner waits for it is what links a session.
      obtain ⟨name', mb', m, s', _, _, _, hm, hdel, hs⟩ := deliver_answers hl hkey ho
      obtain ⟨_, _, _, rfl⟩ := Machine.answer?_spec hm
      exact .inr ⟨name', _, s', rfl, hdel, ran_of_same hs⟩

theorem faults_contained_waitingPair :
    Session.waitingPair.Reachable ∧
    (∃ m s', Ran Session.waitingPair "A" m s' ∧
      resume "A" ⟨1, true, "ok", [], 0⟩ Session.waitingPair = .ok (m.run Session.waitingPair.patience).interp.status s') ∧
    (∃ st s', start "A" "x = 1/0" "b" Session.waitingPair = .ok st s') := by
  have hr := Session.waitingPair_reachable
  obtain ⟨mb, hmb, hold, hst, hid⟩ : ∃ mb, Session.waitingPair.members[("A" : Text)]? = some mb ∧
      ∃ hold, mb.interp.status = .held hold ∧ hold.id = 1 := by
    have hpending : (Session.waitingPair.members[("A" : Text)]?.map fun mb => mb.interp.status.pending) = some 1 := by
      decide +kernel
    obtain ⟨mb, hmb, hp⟩ := Option.map_eq_some_iff.1 hpending
    cases hst : mb.interp.status with
    | held hold => exact ⟨mb, hmb, hold, hst, by rw [hst] at hp; exact hp⟩
    | stopped =>
      rw [hst] at hp
      cases hp
    | running =>
      rw [hst] at hp
      cases hp
  obtain ⟨p, hp⟩ : ∃ p, Program.parse "x = 1/0" "b" = .ok p := by
    have hok : (Program.parse "x = 1/0" "b").toOption.isSome = true := by decide +kernel
    cases h : Program.parse "x = 1/0" "b" with
    | ok p => exact ⟨p, rfl⟩
    | error e =>
      rw [h] at hok
      cases hok
  obtain ⟨_, hstart, hresume, _⟩ := faults_contained hr hmb
  obtain ⟨_, m, s', _, hres, hran⟩ := hresume ⟨1, true, "ok", [], 0⟩ hold hst hid
  obtain ⟨s1, hs1, _⟩ := hstart "x = 1/0" "b" p hp
  exact ⟨hr, ⟨m, s', hran, hres⟩, _, s1, hs1⟩

end Hosting

end Rexx
