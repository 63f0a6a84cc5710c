import Rexx.Proofs.Place.Steps

/-!
# `Isolation.Beginning` — the first clause of a routine

PROCEDURE is taken only from a frame that has completed no clause.
-/

namespace Rexx

open Engine List Option Stack

/-! ## Frames by their place on the stack -/

def Stack.frameAt? (s : Stack) (n : Nat) : Option Frame := s.frames.reverse[n]?

namespace Stack

variable {top top' : Frame} {c : Caller} {cs cs' : List Caller} {n : Nat} {f f' : Frame}

theorem frameAt?_top (top : Frame) (cs : List Caller) : frameAt? ⟨top, cs⟩ cs.length = some top := by
  simp [frameAt?, frames]

theorem frameAt?_of_lt (hn : n < cs.length) : frameAt? ⟨top, cs⟩ n = ((cs.map Caller.frame).reverse)[n]? := by
  unfold frameAt? frames
  rw [reverse_cons, getElem?_append_left (by simpa using hn)]

theorem frameAt?_of_gt (hn : cs.length < n) : frameAt? ⟨top, cs⟩ n = none := by
  unfold frameAt? frames
  simpa using hn

theorem le_of_frameAt? {s : Stack} (h : s.frameAt? n = some f) : n ≤ s.callers.length := by
  by_contra hn
  rw [frameAt?_of_gt (not_le.1 hn)] at h
  cases h

theorem frameAt?_push (hn : n ≤ cs.length) (hc : c.frame = top) : frameAt? ⟨top', c :: cs⟩ n = frameAt? ⟨top, cs⟩ n := by
  rw [frameAt?_of_lt (by simpa using Nat.lt_succ_of_le hn)]
  unfold frameAt? frames
  rw [map_cons, hc]

theorem frameAt?_kept {s s' : Stack} (h : CallersKept s.callers s'.callers) (hn : n < s.callers.length)
    (hf' : s'.frameAt? n = some f') : ∃ f, s.frameAt? n = some f ∧ f' = { f with pool := f'.pool } := by
  obtain ⟨top, cs⟩ := s
  obtain ⟨top', cs'⟩ := s'
  dsimp only at h hn
  have hn' : n < cs'.length := h.length_eq ▸ hn
  rw [frameAt?_of_lt hn', getElem?_reverse (by simpa using hn'), getElem?_map] at hf'
  rw [frameAt?_of_lt hn, getElem?_reverse (by simpa using hn), getElem?_map]
  simp only [length_map] at hf' ⊢
  rw [← h.length_eq] at hf'
  have hi : cs.length - 1 - n < cs.length := by omega
  have hi' : cs.length - 1 - n < cs'.length := h.length_eq ▸ hi
  rw [getElem?_eq_getElem hi'] at hf'
  rw [getElem?_eq_getElem hi]
  have hsame : Caller.SameButPool cs[cs.length - 1 - n] cs'[cs.length - 1 - n] := h.get hi hi'
  cases hf'
  exact ⟨_, rfl, by rw [hsame]⟩

end Stack

/-! ## Frames that have completed no clause -/

def Frame.Upheld (f f' : Frame) : Prop :=
  f'.steps ≠ 0 ∨ f'.steps = f.steps ∧ (f.traps ≠ [] ∨ f'.cursors = f.cursors ∧ f'.traps = f.traps)

theorem Frame.Upheld.of_eq {f f' : Frame} (hs : f'.steps = f.steps) (hc : f'.cursors = f.cursors) (ht : f'.traps = f.traps) :
    f.Upheld f' := .inr ⟨hs, .inr ⟨hc, ht⟩⟩

theorem Frame.Upheld.refl (f : Frame) : f.Upheld f := .of_eq rfl rfl rfl

theorem Frame.Upheld.trans {f f' f'' : Frame} (h : f.Upheld f') (h' : f'.Upheld f'') : f.Upheld f'' := by
  obtain hs' | ⟨hs', h'⟩ := h'
  · exact .inl hs'
  · obtain hs | ⟨hs, h⟩ := h
    · exact .inl (hs' ▸ hs)
    · refine .inr ⟨hs'.trans hs, ?_⟩
      obtain ht | ⟨hc, ht⟩ := h
      · exact .inl ht
      · by_cases hnil : f.traps = []
        · obtain ht' | ⟨hc', ht'⟩ := h'
          · exact absurd (ht.trans hnil) ht'
          · exact .inr ⟨hc'.trans hc, ht'.trans ht⟩
        · exact .inl hnil

def Stack.Upholds (n : Nat) (s s' : Stack) : Prop :=
  ∀ f', s'.frameAt? n = some f' → ∃ f, s.frameAt? n = some f ∧ f.Upheld f'

namespace Stack

variable {n : Nat} {s s' s'' : Stack} {cs : List Caller} {top : Frame}

theorem Upholds.refl (n : Nat) (s : Stack) : s.Upholds n s := fun f hf => ⟨f, hf, .refl f⟩

theorem Upholds.trans (h : s.Upholds n s') (h' : s'.Upholds n s'') : s.Upholds n s'' := by
  intro f'' hf''
  obtain ⟨f', hf', hu'⟩ := h' f'' hf''
  obtain ⟨f, hf, hu⟩ := h f' hf'
  exact ⟨f, hf, hu.trans hu'⟩

theorem Upholds.of_kept (h : CallersKept s.callers s'.callers) (ht : n = s.callers.length → s.top.Upheld s'.top) :
    s.Upholds n s' := by
  intro f' hf'
  rcases lt_trichotomy n s.callers.length with hn | hn | hn
  · obtain ⟨f, hf, he⟩ := frameAt?_kept h hn hf'
    exact ⟨f, hf, .of_eq (by rw [he]) (by rw [he]) (by rw [he])⟩
  · subst hn
    rw [h.length_eq, frameAt?_top s'.top s'.callers] at hf'
    cases hf'
    exact ⟨s.top, frameAt?_top s.top s.callers, ht rfl⟩
  · have hle := le_of_frameAt? hf'
    rw [← h.length_eq] at hle
    exact absurd hn (not_lt.2 hle)

theorem Upholds.pop {c : Caller} : Upholds n ⟨top, c :: cs⟩ ⟨c.frame, cs⟩ := by
  intro f' hf'
  have hn : n ≤ cs.length := le_of_frameAt? hf'
  exact ⟨f', (frameAt?_push hn rfl).trans hf', .refl f'⟩

theorem Upholds.unwind {e : Event} {t : Event × Text}
    (h : unwindFrom e top cs = some (t, s)) : Upholds n ⟨top, cs⟩ s ∧ s.top.traps ≠ [] := by
  have htrap : ∀ {f : Frame} {t : Event × Text}, f.trap? e = some t → f.traps ≠ [] := by
    intro f t ht hnil
    simp [Frame.trap?, hnil] at ht
  induction cs generalizing top with
  | nil =>
    obtain ⟨_, ht, hs⟩ := map_eq_some_iff.1 h
    cases hs
    exact ⟨.refl _ _, htrap ht⟩
  | cons c cs ih =>
    unfold unwindFrom at h
    split at h
    · rename_i ht
      cases h
      exact ⟨.refl _ _, htrap ht⟩
    · obtain ⟨hup, ht⟩ := ih h
      exact ⟨Upholds.pop.trans hup, ht⟩

theorem unwindFrom_frameAt? {e : Event} {t : Event × Text}
    (h : unwindFrom e top cs = some (t, s)) (hn : n ≤ s.callers.length) : frameAt? ⟨top, cs⟩ n = s.frameAt? n := by
  induction cs generalizing top with
  | nil =>
    obtain ⟨_, ht, hs⟩ := map_eq_some_iff.1 h
    cases hs
    rfl
  | cons c cs ih =>
    unfold unwindFrom at h
    split at h
    · cases h
      rfl
    · rw [← ih h]
      exact frameAt?_push (hn.trans (unwindFrom_callers h).length_le) rfl

end Stack

/-! ## Ticks -/

namespace Engine

variable {σ : Type} {m m' : Machine σ}

theorem step_waits (h : ∀ c, m.top.cursors.head? = some c → c.loop = none)
    (hstep : (step : Engine σ Unit) m = .error .suspended m') : m.place.Waits m'.place := by
  cases hcs : m.top.cursors with
  | nil =>
    rw [step, bind_of_ok (top_apply m), hcs] at hstep
    cases hstep
  | cons c cs =>
    have hc : c.loop = none := h c (by rw [hcs]; rfl)
    rw [step, bind_of_ok (top_apply m), hcs] at hstep
    dsimp only at hstep
    rw [hc] at hstep
    unfold stepBlock at hstep
    cases hs : c.block[c.pc]? with
    | none =>
      rw [hs] at hstep
      exact absurd hstep (immediate_elementary.endBlock c _ _)
    | some s =>
      rw [hs] at hstep
      dsimp only at hstep
      rw [execAt_apply] at hstep
      exact (exec_travels s (m.announced c s) ⟨c, cs, hcs, hs⟩).suspended hstep

end Engine

namespace Machine

variable {σ : Type} {n : Nat} {m m' : Machine σ}

theorem Steady.upholds (h : m.Steady m') (hn : n ≠ m.stack.callers.length) : m.stack.Upholds n m'.stack :=
  .of_kept h.callers fun he => absurd he hn

theorem completed_upholds (h : m.Steady m') : m.stack.Upholds n (m'.interp.completeStep m.stack.depth).stack := by
  unfold Interpreter.completeStep
  rw [if_pos h.depth]
  exact .of_kept h.callers fun _ => .inl (Nat.succ_ne_zero _)

theorem completeStep_upholds (i : Interpreter σ) (depth : Nat) : i.stack.Upholds n (i.completeStep depth).stack := by
  unfold Interpreter.completeStep
  split
  · exact .of_kept (.refl _) fun _ => .inl (Nat.succ_ne_zero _)
  · exact .refl _ _

theorem MovesBy.upholds (h : m.LocalMoves m') (hgo : m'.interp.status ≠ .stopped) :
    m.stack.Upholds n (m'.interp.completeStep m.stack.depth).stack := by
  cases h with
  | stays h => exact completed_upholds h.toSteady
  | stopped _ he => exact absurd he.status hgo
  | @returned m0 c cs value h hc hd hb =>
    obtain ⟨store, pool, hb'⟩ := handBack_of_data hd (popped m0 c cs)
    cases hb.symm.trans hb'
    refine .trans ?_ (completeStep_upholds _ _)
    intro f' hf'
    -- the frame is one of those that are left
    have hn : n ≤ cs.length := le_of_frameAt? hf'
    have hlen : cs.length + 1 = m.stack.callers.length := by
      rw [← h.length_eq, hc]
      rfl
    have hm0 : m.stack.Upholds n ⟨m0.top, c :: cs⟩ := by
      rw [← hc]
      exact h.toSteady.upholds (by omega)
    refine (hm0.trans (.trans .pop ?_)) f' hf'
    exact .of_kept (.refl _) fun _ => .of_eq rfl rfl rfl

theorem raise_upholds (i : Interpreter σ) (c : Condition) (hgo : (i.raise c).status ≠ .stopped) :
    i.stack.Upholds n (i.raise c).stack := by
  cases i.raise_raised c with
  | ended hst _ => exact absurd hst hgo
  | @trapped event label s v cursors hu hgrows hstore hstack =>
    obtain ⟨hup, ht⟩ := Upholds.unwind hu
    rw [hstack]
    exact hup.trans (.of_kept (.refl _) fun _ => .inr ⟨rfl, .inl ht⟩)

theorem FailsBy.upholds (h : m.LocalFails m') (c : Condition) (hgo : (m'.interp.raise c).status ≠ .stopped) :
    m.stack.Upholds n (m'.interp.raise c).stack := by
  cases h with
  | @left m0 k ks h hc he =>
    subst he
    intro f' hf'
    have hn : n ≤ ks.length := by
      obtain ⟨f, hf, _⟩ := raise_upholds _ c hgo f' hf'
      exact le_of_frameAt? hf
    have hlen : ks.length + 1 = m.stack.callers.length := by
      rw [← h.length_eq, hc]
      rfl
    have hm0 : m.stack.Upholds n ⟨m0.top, k :: ks⟩ := by
      rw [← hc]
      exact h.toSteady.upholds (by omega)
    exact (hm0.trans (.trans .pop (raise_upholds _ c hgo))) f' hf'
  | stays h =>
    by_cases hn : n = m.stack.callers.length
    · -- the frame being executed is left where it has a trap itself
      cases m'.interp.raise_raised c with
      | ended hst _ => exact absurd hst hgo
      | @trapped event label s v cursors hu hgrows hstore hstack =>
        intro f' hf'
        rw [hstack] at hf'
        have hns : n ≤ s.callers.length := by
          have hle := le_of_frameAt? hf'
          exact hle
        have hlen : s.callers.length = n :=
          le_antisymm ((unwindFrom_callers hu).length_le.trans (h.length_eq.trans hn.symm).le) hns
        have htop : m'.top = s.top := by
          have hat := unwindFrom_frameAt? hu hns
          rw [← hlen, frameAt?_top s.top s.callers, hlen, hn, ← h.length_eq, frameAt?_top] at hat
          exact some.inj hat
        rw [← hlen, frameAt?_top] at hf'
        cases hf'
        have hmoved := h.frame
        rw [htop] at hmoved
        refine ⟨m.top, hn ▸ frameAt?_top _ _, .inr ⟨?_, .inl ?_⟩⟩
        · show s.top.steps = _
          rw [hmoved]
        · have htraps : s.top.traps = m.top.traps := by rw [hmoved]
          exact htraps ▸ (Upholds.unwind (n := n) hu).2
    · exact (h.toSteady.upholds hn).trans (raise_upholds _ c hgo)

theorem frameAt?_of_waits (h : m.place.Waits m'.place) : ∃ f', m'.stack.frameAt? m.stack.callers.length = some f' ∧
    f'.cursors = m.top.cursors := by
  have hlen : ∀ m : Machine σ, m.place.callers.length = m.stack.callers.length := fun m => length_map _
  have hsame : m'.place.top = m.place.top → m'.place.callers = m.place.callers →
      ∃ f', m'.stack.frameAt? m.stack.callers.length = some f' ∧ f'.cursors = m.top.cursors := by
    intro ht hc
    rw [← hlen m, ← hc, hlen m']
    exact ⟨_, frameAt?_top _ _, ht⟩
  generalize hπ : m'.place = π at h
  cases h with
  | held hold => exact hsame (by rw [hπ]) (by rw [hπ])
  | refused => exact hsame (by rw [hπ]) (by rw [hπ])
  | entered _ _ =>
    obtain ⟨c, cs, hcs, hc, hrest⟩ := map_eq_cons_iff.1 (congrArg Place.callers hπ)
    have hcs' : m'.stack = ⟨m'.top, c :: cs⟩ := by rw [← hcs]
    have hlen' : m.stack.callers.length = cs.length := by rw [← hlen m, ← hrest, length_map]
    rw [hcs', hlen', frameAt?_push le_rfl rfl]
    exact ⟨c.frame, frameAt?_top c.frame cs, hc⟩

theorem Suspends.frameAt? {R : Machine σ → Machine σ → Prop} {S : Set Site} {P : Frame → Prop} (h : m.Suspends R S m')
    (hR : ∀ m0, R m m0 → m0.stack.callers.length = m.stack.callers.length ∧ P m0.top) :
    ∃ f', m'.stack.frameAt? m.stack.callers.length = some f' ∧ P f' := by
  cases h with
  | @held m0 _ _ h _ _ hh =>
    obtain ⟨⟨id, channel⟩, _, rfl⟩ := map_eq_some_iff.1 hh
    obtain ⟨hl, hp⟩ := hR _ h
    exact ⟨_, hl ▸ frameAt?_top m0.top m0.stack.callers, hp⟩
  | @entered m0 k i a needsValue h _ _ he =>
    subst he
    obtain ⟨hl, hp⟩ := hR _ h
    refine ⟨_, ?_, hp⟩
    rw [← hl]
    exact (frameAt?_push (le_refl _) rfl).trans (frameAt?_top m0.top m0.stack.callers)
  | refused h =>
    obtain ⟨hl, hp⟩ := hR _ h
    exact ⟨_, hl ▸ frameAt?_top m'.top m'.stack.callers, hp⟩

theorem suspended_upholds (h : m.Suspends Local Set.univ m') (hn : n ≤ m.stack.callers.length)
    (hplace : n = m.stack.callers.length → m.top.steps = 0 → m.place.Waits m'.place) :
    m.stack.Upholds n m'.stack := by
  by_cases he : n = m.stack.callers.length
  · intro f' hf'
    obtain ⟨g, hg, hsteps, htraps⟩ := h.frameAt? (P := fun f => f.steps = m.top.steps ∧
        f.traps = m.top.traps) fun m0 h0 => ⟨h0.length_eq, by rw [h0.frame], by rw [h0.frame]⟩
    rw [he, hg] at hf'
    cases hf'
    refine ⟨m.top, he ▸ frameAt?_top _ _, ?_⟩
    by_cases hz : m.top.steps = 0
    · obtain ⟨g', hg', hcursors⟩ := frameAt?_of_waits (hplace he hz)
      cases hg.symm.trans hg'
      exact .of_eq hsteps hcursors htraps
    · exact .inl (hsteps ▸ hz)
  · have hlt : n < m.stack.callers.length := lt_of_le_of_ne hn he
    cases h with
    | @held m0 _ _ h _ _ hh =>
      obtain ⟨⟨id, channel⟩, _, rfl⟩ := map_eq_some_iff.1 hh
      exact h.toSteady.upholds he
    | @entered m0 k i a needsValue h _ _ he' =>
      subst he'
      exact (h.toSteady.upholds he).trans fun f' hf' => ⟨f', (frameAt?_push (h.length_eq ▸ hn) rfl).symm.trans hf', .refl f'⟩
    | refused h => exact h.toSteady.upholds he

theorem hosts_any (m : Machine σ) : m.Hosts fun _ _ => True := by
  have hcode : ∀ {α : Type} (code : HostCode σ α), HostCode.Keeps (fun _ _ => True) code := fun code view => by
    split <;> trivial
  have hdecl : ∀ d : Declaration σ, d.Keeps fun _ _ => True := fun d =>
    ⟨fun _ _ _ => hcode _, fun _ _ _ => hcode _, fun _ _ _ _ _ => hcode _⟩
  exact ⟨⟨fun _ _ _ _ => hcode _, fun _ _ _ _ => hcode _, fun _ _ _ _ _ _ => hcode _⟩,
    ⟨fun _ _ _ _ _ _ _ _ d _ _ => hdecl d, fun _ _ _ _ d _ _ => hdecl d, fun _ _ _ _ _ _ _ d _ _ => hdecl d⟩⟩

theorem tick_upholds (hn : n ≤ m.stack.callers.length)
    (hloop : n = m.stack.callers.length → m.top.steps = 0 →
      ∀ c, m.top.cursors.head? = some c → c.loop = none)
    (hgo : m.tick.interp.status ≠ .stopped) : m.stack.Upholds n m.tick.stack := by
  unfold tick at hgo ⊢
  split
  · rename_i hh
    rw [if_pos hh] at hgo
    exact raise_upholds { m.interp with halted := false } _ hgo
  · rename_i hh
    rw [if_neg hh] at hgo
    by_cases hs : ∃ c s, m.AboutTo c s ∧ s.reaches = true
    · obtain ⟨c, s, hs, hr⟩ := hs
      have hreach := step_reaches m.hosts_any hs hr
      cases hstep : step m with
      | ok v m' =>
        rw [hstep] at hgo
        refine completed_upholds ?_
        -- it is on as many frames, so it has stayed in its own
        cases (step_leads m).ok hstep with
        | steady h => exact h
        | @returned m0 k ks w h hr' =>
          have hlen := (hreach.ok hstep).2
          have hlen0 := h.callers.length_eq
          rw [hr'.callers] at hlen0
          rw [hr'.stack, hlen0] at hlen
          exact absurd hlen (Nat.succ_ne_self _).symm
        | stopped _ _ hst _ => exact absurd ((completeStep_leads m'.interp _).2.1.trans hst) hgo
      | error e m' =>
        rw [hstep] at hgo
        cases e with
        | suspended => exact (hreach.suspended hstep).elim
        | raised c => exact (hreach.raised hstep).upholds c hgo
    · have hlocal : Proceeds step m := step_proceeds fun c s h => by
        by_contra hr
        exact hs ⟨c, s, h, by simpa using hr⟩
      cases hstep : step m with
      | ok v m' =>
        rw [hstep] at hgo
        exact (hlocal.ok hstep).upholds fun hst => hgo ((completeStep_leads m'.interp _).2.1.trans hst)
      | error e m' =>
        rw [hstep] at hgo
        cases e with
        | suspended =>
          exact suspended_upholds (hlocal.suspended hstep) hn fun he hz => step_waits (hloop he hz) hstep
        | raised c => exact (hlocal.raised hstep).upholds c hgo

end Machine

end Rexx
