import Rexx.Proofs.Machine.Tick
import Rexx.Proofs.Clause.Suspension
import Rexx.Proofs.Replay.InPlace

/-!
# `Replay.Routines` — what happens between two passes

A clause that has entered a routine is given up until the routine returns.
-/

namespace Rexx

open Engine List Stack

theorem CallersAligned.suffix {cs cs' l : List Caller} (h : CallersAligned cs cs') (hl : l <:+ cs)
    (hlen : l.length ≤ cs'.length) : ∃ l', CallersKept l l' ∧ l' <:+ cs' := by
  obtain ⟨k, hk, hsuf⟩ := h
  obtain ⟨upper, rfl⟩ := hl
  have hl' : CallersKept l (k.drop upper.length) := by
    have := forall₂_drop upper.length hk
    rwa [drop_left] at this
  refine ⟨k.drop upper.length, hl', ?_⟩
  obtain hsuf | hsuf := hsuf
  · exact suffix_of_suffix_length_le (drop_suffix _ k) hsuf (by rw [← hl'.length_eq]; exact hlen)
  · exact (drop_suffix _ k).trans hsuf

namespace Machine

variable {σ : Type} {d : Nat} {m m' u w : Machine σ} {c : Caller} {cs : List Caller}

/-! ## The way back to a clause -/

/-- **The way back to the frame** that has `d - 1` frames below it, after its clause was suspended. -/
inductive Rejoins (d : Nat) : Machine σ → Machine σ → Prop where
  | here {m : Machine σ} (running : m.Running) (depth : m.stack.depth = d) : Rejoins d m m
  | answered {m u w : Machine σ} {r : Response} (answer : m.answer? r = some u) (rest : Rejoins d u w) : Rejoins d m w
  | tick {m w : Machine σ} (running : m.Running) (above : d < m.stack.depth)
      (stays : d < m.tick.stack.depth) (rest : Rejoins d m.tick w) : Rejoins d m w
  | returned {m m' : Machine σ} (running : m.Running) (above : d < m.stack.depth) (halted : m.interp.halted = false)
      (step : Engine.step m = .ok () m') (depth : m.tick.stack.depth = d) (goesOn : m.tick.Running) :
      Rejoins d m m.tick

/-- The way back, with the settings for numbers as they were. -/
def Keeping (d : Nat) (m u : Machine σ) : Prop :=
  Rejoins d m u ∧ u.interp.options.numeric = m.interp.options.numeric

theorem Rejoins.eq_of_running (h : Rejoins d m w) (hrun : m.Running) (hd : m.stack.depth = d) : w = m := by
  cases h with
  | here => rfl
  | answered ha =>
    obtain ⟨hold, hst, _⟩ := answer?_spec ha
    cases hrun.symm.trans hst
  | tick _ habove => omega
  | returned _ habove => omega

/-! ## The frames that wait -/

structure Guards (c : Caller) (cs : List Caller) (m : Machine σ) : Prop where
  callers : ∃ l, CallersKept (c :: cs) l ∧ l <:+ m.stack.callers
  answers : ∀ h, m.interp.status = .held h → h.depth = m.stack.depth

theorem Rejoins.not_stopped (h : Rejoins d m w) : m.interp.status ≠ .stopped := by
  intro hstop
  cases h with
  | here hrun => cases hstop.symm.trans hrun
  | answered ha =>
    obtain ⟨hold, hst, _⟩ := answer?_spec ha
    cases hstop.symm.trans hst
  | tick hrun => cases hstop.symm.trans hrun
  | returned hrun => cases hstop.symm.trans hrun

theorem Guards.tick (h : Guards c cs m) (hrun : m.Running) (hstays : (c :: cs).length < m.tick.stack.depth)
    (hgo : m.tick.interp.status ≠ .stopped) : Guards c cs m.tick := by
  obtain ⟨l, hl, hsuf⟩ := h.callers
  have hlen : l.length ≤ m.tick.stack.callers.length := by
    rw [← hl.length_eq]
    unfold depth at hstays
    omega
  cases tick_goes hrun with
  | on _ _ hst hal =>
    obtain ⟨l', hl', hsuf'⟩ := hal.suffix hsuf hlen
    exact ⟨⟨l', hl.trans hl', hsuf'⟩, fun hold hh => (by cases hst.symm.trans hh)⟩
  | stops _ _ hst => exact absurd hst hgo
  | @holds m0 site k hs hold =>
    obtain ⟨⟨id, ch⟩, _, htick⟩ := Option.map_eq_some_iff.1 hold
    rw [← htick] at hlen ⊢
    obtain ⟨l', hl', hsuf'⟩ := CallersAligned.suffix ⟨_, hs.callers, .inl suffix_rfl⟩ hsuf hlen
    exact ⟨⟨l', hl.trans hl', hsuf'⟩, fun hold' hh => (by cases hh; rfl)⟩

theorem Guards.answered {r : Response} (h : Guards c cs m) (ha : m.answer? r = some u) :
    Guards c cs u ∧ u.stack.depth = m.stack.depth := by
  obtain ⟨hold, hst, _, rfl⟩ := answer?_spec ha
  have hcallers : (m.interp.complete hold.depth hold.site r.outcome).stack.callers = m.stack.callers := by
    show (m.stack.modifyAt hold.depth _).callers = _
    unfold modifyAt
    rw [if_pos (h.answers hold hst)]
    rfl
  refine ⟨⟨?_, fun _ hh => (by cases hh)⟩, ?_⟩
  · show ∃ l, _ ∧ l <:+ (m.interp.complete hold.depth hold.site r.outcome).stack.callers
    rw [hcallers]
    exact h.callers
  · unfold depth
    rw [hcallers]

structure Resumes (c : Caller) (cs : List Caller) (v : Text) (w : Machine σ) : Prop where
  running : w.Running
  top : w.top = { c.frame with pool := w.top.pool, memo := (c.site, v) :: c.frame.memo }
  callers : CallersKept cs w.stack.callers

theorem Guards.returned (h : Guards c cs m) (hh : m.interp.halted = false)
    (hstep : step m = .ok () m') (hdepth : m.tick.stack.depth = (c :: cs).length) (hgo : m.tick.Running) :
    ∃ v, Resumes c cs v m.tick := by
  obtain ⟨l, hl, hsuf⟩ := h.callers
  have htick : m.tick = m'.modifyInterp fun i => i.completeStep m.stack.depth := by simp [Machine.tick, hh, hstep]
  have hlen : (c :: cs).length ≤ m.stack.callers.length := hl.length_eq ▸ hsuf.length_le
  cases (step_leads m).ok hstep with
  | steady hs =>
    have hsame : m.tick.stack.depth = m.stack.depth := by
      rw [htick]
      show (m'.interp.completeStep _).stack.callers.length + 1 = _
      rw [(completeStep_leads m'.interp _).2.2]
      exact hs.depth
    rw [hsame, depth] at hdepth
    omega
  | stopped _ _ hst _ =>
    rw [htick] at hgo
    cases ((completeStep_leads m'.interp _).2.1.trans hst).symm.trans hgo
  | @returned m0 c' cs' v hs hr =>
    have hcs' : m'.stack.callers = cs' := by rw [hr.stack]
    have hkept : CallersKept m.stack.callers (c' :: cs') := hr.callers ▸ hs.callers
    -- One frame has been left, so the tick forgets nothing.
    have hsame : m'.interp.completeStep m.stack.depth = m'.interp := by
      unfold Interpreter.completeStep depth
      rw [if_neg]
      rw [hcs', hkept.length_eq, length_cons]
      omega
    have htick' : m.tick = m' := by
      rw [htick]
      exact congrArg (fun i => Machine.mk i _ _ _ _) hsame
    rw [htick'] at hdepth hgo ⊢
    have hl' : l = m.stack.callers := by
      refine hsuf.eq_of_length ?_
      rw [← hl.length_eq, hkept.length_eq, ← hdepth, depth, hcs', length_cons]
    cases (hl' ▸ hl).trans hkept with
    | cons hc hcs =>
      refine ⟨v, hgo, ?_, hcs' ▸ hcs⟩
      rw [show m'.top = _ from congrArg Stack.top hr.stack, hc]

theorem Rejoins.returns (h : Rejoins d m w) (hg : Guards c cs m) (hd : (c :: cs).length = d)
    (habove : d < m.stack.depth) : ∃ v, Resumes c cs v w := by
  induction h with
  | here _ hdepth => omega
  | answered ha _ ih =>
    obtain ⟨hg', hdepth⟩ := hg.answered ha
    exact ih hg' (hdepth ▸ habove)
  | tick hrun _ hstays hrest ih => exact ih (hg.tick hrun (hd ▸ hstays) hrest.not_stopped) hstays
  | returned _ _ hh hstep hdepth hgo => exact hg.returned hh hstep (hd ▸ hdepth) hgo

/-! ## Passes of a clause with routines between them -/

def Evaluating (d : Nat) (m : Machine σ) : Prop := m.Running ∧ m.stack.depth = d

theorem Rejoins.evaluating (h : Rejoins d m w) : w.Evaluating d := by
  induction h with
  | here hrun hd => exact ⟨hrun, hd⟩
  | answered _ _ ih => exact ih
  | tick _ _ _ _ ih => exact ih
  | returned _ _ _ _ hd hgo => exact ⟨hgo, hd⟩

theorem Rejoins.back {S : Set Site} (h : Rejoins d m' u) (hm : m.Evaluating d) (hs : m.Suspends (Evolves S) S m') :
    m.top.Extends S u.top := by
  cases hs with
  | @held m0 k ck hev hk hopen hold =>
    have hrun0 : m0.Running := hev.status.trans hm.1
    obtain ⟨p, _, hp⟩ := Option.map_eq_some_iff.1 hold
    have hheld : ¬ m'.Running := by
      rintro hrun
      rw [← hp] at hrun
      cases hrun
    -- Only an answer leads on, and it leads back to the clause at once.
    cases h with
    | here hrun => exact absurd hrun hheld
    | tick hrun => exact absurd hrun hheld
    | returned hrun => exact absurd hrun hheld
    | @answered _ _ _ r ha hrest =>
      obtain ⟨channel, rfl⟩ := answer?_of_hold hrun0 hold ha
      have hset := hev.trans (Evolves.settle hk m0 hopen r.outcome)
      have hw := hrest.eq_of_running (hset.status.trans hm.1) (hset.depth.trans hm.2)
      subst hw
      exact hset.top
  | @entered m0 k i a needsValue hev hk hopen henter =>
    subst henter
    have hdepth0 := hev.depth.trans hm.2
    have hg : Guards ⟨m0.top, k, needsValue⟩ m0.stack.callers (m0.enter k i a needsValue) := by
      refine ⟨⟨_, .refl _, suffix_rfl⟩, fun hold hh => ?_⟩
      cases (show m0.interp.status = .held hold from hh).symm.trans (hev.status.trans hm.1)
    obtain ⟨v, hres⟩ := h.returns hg hdepth0 (by
      show d < m0.stack.callers.length + 1 + 1
      unfold depth at hdepth0
      omega)
    rw [hres.top]
    exact hev.top.trans ((Frame.Extends.setPool S _ _).note hk hopen v)
  | refused hev =>
    have hw := h.eq_of_running (hev.status.trans hm.1) (hev.depth.trans hm.2)
    subst hw
    exact hev.top

theorem keeping_faithful (d : Nat) : Faithful (σ := σ) (Evaluating d) (Keeping d) where
  keeps hm hu := ⟨hu.status.trans hm.1, hu.depth.trans hm.2⟩
  later {S m m1 u} hm hs hρ := by
    obtain ⟨hrejoins, hnumeric⟩ := hρ
    have hnumeric1 : m1.interp.options.numeric = m.interp.options.numeric := by
      cases hs with
      | held hev _ _ hold =>
        obtain ⟨p, _, rfl⟩ := Option.map_eq_some_iff.1 hold
        exact hev.numeric
      | entered hev _ _ henter =>
        subst henter
        exact hev.numeric
      | refused hev => exact hev.numeric
    obtain ⟨hrun, hd⟩ := hrejoins.evaluating
    exact ⟨hrejoins.back hm hs, hnumeric.trans hnumeric1, hrun.trans hm.1.symm, hd.trans hm.2.symm⟩

end Machine

def Engine.poised : Machine Unit :=
  ⟨{ Interpreter.fresh 0 with status := .running }, ∅, .empty, ⟨0, ⟨#[], 0⟩, [], []⟩, ()⟩

end Rexx
