import Rexx.Proofs.Tandem.Ticks

/-!
# `Trap.Unwinding` — where a condition goes

A condition is raised if some frame has a trap for it, and frames are given up down to that one: the two searches of
the stack agree.
-/

namespace Rexx

open Engine List Option Stack

/-! ## The traps of a frame -/

namespace Frame

variable {f : Frame} {e t : Event} {label : Text}

theorem trap?_eq_some (h : f.trap? e = some (t, label)) :
    f.traps.lookup t = some label ∧ (t = e ∨ t = .error ∧ e.fallsToError = true ∧ f.traps.lookup e = none) := by
  unfold trap? at h
  cases hl : f.traps.lookup e with
  | some label' =>
    rw [hl] at h
    cases h
    exact ⟨hl, .inl rfl⟩
  | none =>
    rw [hl] at h
    dsimp only at h
    split at h
    · rename_i hfalls
      obtain ⟨label', hl', heq⟩ := map_eq_some_iff.1 h
      cases heq
      exact ⟨hl', .inr ⟨rfl, hfalls, rfl⟩⟩
    · cases h

theorem lookup_disarm (f : Frame) (e t : Event) :
    (f.disarm e).traps.lookup t = if t = e then none else f.traps.lookup t := by
  unfold disarm
  induction f.traps with
  | nil => simp
  | cons p l ih =>
    obtain ⟨e', label⟩ := p
    by_cases he : e' = e
    · -- The entry goes; it was one for `e`.
      subst he
      rw [filter_cons_of_neg (by simp), ih, lookup_cons]
      by_cases ht : t = e'
      · rw [if_pos ht, if_pos ht]
      · rw [if_neg ht, if_neg ht, beq_eq_false_iff_ne.2 ht]
    · rw [filter_cons_of_pos (by simpa using he), lookup_cons, lookup_cons, ih]
      by_cases ht : t = e'
      · subst ht
        simp [he]
      · rw [beq_eq_false_iff_ne.2 ht]

theorem lookup_arm (f : Frame) (e : Event) (label : Text) (t : Event) :
    (f.arm e label).traps.lookup t = if t = e then some label else f.traps.lookup t := by
  unfold arm
  rw [lookup_cons]
  by_cases ht : t = e
  · subst ht
    simp
  · rw [beq_eq_false_iff_ne.2 ht, if_neg ht]
    exact (f.lookup_disarm e t).trans (if_neg ht)

end Frame

/-! ## Unwinding -/

/-- **The frame that an event goes to**: the frames above it have no trap that takes the event and are given up, and the
frame has the trap `t`, for the event itself or for ERROR where it has none for the event. -/
structure Stack.Unwinds (s : Stack) (e t : Event) (label : Text) (s' : Stack) : Prop where
  frames : ∃ above, s.frames = above ++ s'.frames ∧ ∀ f ∈ above, f.trap? e = none
  callers : s'.callers <:+ s.callers
  trap : s'.top.traps.lookup t = some label
  takes : t = e ∨ t = .error ∧ e.fallsToError = true ∧ s'.top.traps.lookup e = none

namespace Stack

variable {s s' : Stack} {e t : Event} {label : Text}

theorem unwindFrom_unwinds {top : Frame} {cs : List Caller} (h : unwindFrom e top cs = some ((t, label), s')) :
    Unwinds ⟨top, cs⟩ e t label s' := by
  induction cs generalizing top with
  | nil =>
    obtain ⟨_, ht, hs⟩ := map_eq_some_iff.1 h
    cases hs
    obtain ⟨htrap, htakes⟩ := Frame.trap?_eq_some ht
    exact ⟨⟨[], rfl, fun _ hf => absurd hf not_mem_nil⟩, suffix_rfl, htrap, htakes⟩
  | cons c cs ih =>
    unfold unwindFrom at h
    cases ht : top.trap? e with
    | some _ =>
      rw [ht] at h
      cases h
      obtain ⟨htrap, htakes⟩ := Frame.trap?_eq_some ht
      exact ⟨⟨[], rfl, fun _ hf => absurd hf not_mem_nil⟩, suffix_rfl, htrap, htakes⟩
    | none =>
      rw [ht] at h
      obtain ⟨⟨above, hframes, hnone⟩, hcallers, htrap, htakes⟩ := ih h
      refine ⟨⟨top :: above, ?_, ?_⟩, hcallers.trans (suffix_cons c cs), htrap, htakes⟩
      · rw [cons_append, ← hframes]
        rfl
      · intro f hf
        obtain rfl | hf := mem_cons.1 hf
        · exact ht
        · exact hnone f hf

theorem unwindTo_unwinds (h : s.unwindTo e = some ((t, label), s')) : s.Unwinds e t label s' := unwindFrom_unwinds h

theorem unwindTo_isSome (s : Stack) (e : Event) : (s.unwindTo e).isSome = s.traps e := by
  obtain ⟨top, cs⟩ := s
  show (unwindFrom e top cs).isSome = (frames ⟨top, cs⟩).any fun f => (f.trap? e).isSome
  induction cs generalizing top with
  | nil => simp [unwindFrom, frames]
  | cons c cs ih =>
    unfold unwindFrom
    cases ht : top.trap? e with
    | some _ => simp [frames, ht]
    | none =>
      rw [ih c.frame]
      simp [frames, ht]

/-! ## Traps by the place of their frame -/

def Armed (s : Stack) (n : Nat) (t : Event) : Prop := ∃ f, s.frameAt? n = some f ∧ (f.traps.lookup t).isSome = true

variable {n : Nat} {top top' : Frame} {c : Caller} {cs : List Caller}

theorem Armed.le (h : s.Armed n t) : n ≤ s.callers.length :=
  let ⟨_, hf, _⟩ := h
  le_of_frameAt? hf

theorem Armed.of_traps_eq (h : s'.Armed n t) (htraps : s'.frames.map Frame.traps = s.frames.map Frame.traps) :
    s.Armed n t := by
  obtain ⟨f', hf', ht⟩ := h
  have heq : (s'.frameAt? n).map Frame.traps = (s.frameAt? n).map Frame.traps := by
    unfold frameAt?
    rw [← List.getElem?_map, ← List.getElem?_map, List.map_reverse, List.map_reverse, htraps]
  rw [hf'] at heq
  obtain ⟨f, hf, hft⟩ := Option.map_eq_some_iff.1 heq.symm
  exact ⟨f, hf, hft ▸ ht⟩

theorem Armed.of_pop (h : Armed ⟨c.frame, cs⟩ n t) : Armed ⟨top, c :: cs⟩ n t := by
  obtain ⟨f, hf, ht⟩ := h
  exact ⟨f, (frameAt?_push (le_of_frameAt? hf) rfl).trans hf, ht⟩

theorem Armed.of_push (h : Armed ⟨top', c :: cs⟩ n t) (hc : c.frame = top) (htop : top'.traps = []) :
    Armed ⟨top, cs⟩ n t := by
  obtain ⟨f, hf, ht⟩ := h
  by_cases hn : n ≤ cs.length
  · exact ⟨f, (frameAt?_push hn hc).symm.trans hf, ht⟩
  · have hle : n ≤ cs.length + 1 := le_of_frameAt? hf
    have heq : n = (c :: cs).length := by
      rw [length_cons]
      omega
    rw [heq, frameAt?_top] at hf
    cases hf
    rw [htop] at ht
    cases ht

theorem Armed.of_top (h : Armed ⟨top', cs⟩ n t) (hn : n = cs.length → (top'.traps.lookup t).isSome = true →
    (top.traps.lookup t).isSome = true) : Armed ⟨top, cs⟩ n t := by
  obtain ⟨f, hf, ht⟩ := h
  obtain hlt | rfl := lt_or_eq_of_le (show n ≤ cs.length from le_of_frameAt? hf)
  · rw [frameAt?_of_lt hlt] at hf
    exact ⟨f, (frameAt?_of_lt hlt).trans hf, ht⟩
  · rw [frameAt?_top] at hf
    cases hf
    exact ⟨top, frameAt?_top top cs, hn rfl ht⟩

theorem Unwinds.armed (h : s.Unwinds e t label s') : s'.Armed s'.callers.length t :=
  ⟨s'.top, frameAt?_top s'.top s'.callers, by rw [h.trap]; rfl⟩

theorem Armed.of_unwindFrom {p : Event × Text} (h : s'.Armed n t) (hu : unwindFrom e top cs = some (p, s')) :
    Armed ⟨top, cs⟩ n t := by
  obtain ⟨f, hf, ht⟩ := h
  exact ⟨f, (unwindFrom_frameAt? hu (le_of_frameAt? hf)).trans hf, ht⟩

end Stack

namespace Interpreter

variable {σ : Type}

/-- **What a condition comes to that a trap takes.** -/
inductive Diverts (i : Interpreter σ) (c : Condition) (i' : Interpreter σ) : Prop where
  /-- The topmost frame with a trap for it goes on after the label. The frames above are gone, those below are as they
  were, and of its traps only the one that fired is off. -/
  | lands {t : Event} {label : Text} {s : Stack} {k : Nat} (unwinds : i.stack.Unwinds c.event t label s)
      (found : i.program.labels[label]? = some k) (below : i'.stack.callers = s.callers)
      (place : i'.stack.top.cursors = [.at i.program.body (k + 1) none])
      (traps : ∀ t', i'.stack.top.traps.lookup t' = if t' = t then none else s.top.traps.lookup t')
      (status : i'.status = i.status) (error : i'.error = i.error)
  | lost {t : Event} {label : Text} {s : Stack} (unwinds : i.stack.Unwinds c.event t label s)
      (missing : i.program.labels[label]? = none) (status : i'.status = .stopped) (exitCode : i'.exitCode = 16)
      (error : i'.error = i.reportOf (Fault.labelNotFound label).condition (c.line.getD i.line))

theorem raise_diverts (i : Interpreter σ) {c : Condition} (hc : c.trappable = true) (h : i.stack.traps c.event = true) :
    i.Diverts c (i.raise c) := by
  rw [← unwindTo_isSome] at h
  obtain ⟨⟨⟨t, label⟩, s⟩, hs⟩ := isSome_iff_exists.1 h
  rw [i.raise_eq c rfl, if_pos hc, hs]
  have hunwinds := unwindTo_unwinds hs
  dsimp only [Option.elim]
  unfold landed
  cases hk : (i.sprung s t { c with line := some (c.line.getD i.line) } (c.line.getD i.line)).program.labels[label]? with
  | some k => exact .lands hunwinds hk rfl rfl (fun t' => s.top.lookup_disarm t t') rfl rfl
  | none => exact .lost hunwinds hk rfl rfl rfl

end Interpreter

/-! ## Traps along a run -/

namespace Machine

variable {σ : Type} {n : Nat} {t : Event} {m m' u : Machine σ} {c : Condition} {i : Interpreter σ}

def raised? (m : Machine σ) : Option (Interpreter σ × Condition) :=
  if m.interp.halted then some ({ m.interp with halted := false }, Fault.interrupted.condition)
  else match Engine.step m with
    | .error (.raised c) m' => some (m'.interp, c)
    | _ => none

/-- The trap that a tick springs: the number of frames below its frame, and its event. -/
def fires? (m : Machine σ) : Option (Nat × Event) :=
  m.raised?.bind fun q =>
    if q.2.trappable then (q.1.stack.unwindTo q.2.event).map fun p => (p.2.callers.length, p.1.1) else none

theorem tick_of_raised? (h : m.raised? = some (i, c)) : m.tick.interp = i.raise c := by
  unfold raised? at h
  unfold tick
  split at h
  · rename_i hh
    cases h
    rw [if_pos hh]
    rfl
  · rename_i hh
    rw [if_neg hh]
    cases hstep : step m with
    | ok v m' =>
      rw [hstep] at h
      cases h
    | error e m' =>
      rw [hstep] at h
      cases e with
      | suspended => cases h
      | raised c' =>
        cases h
        rfl

theorem fires?_eq_some (h : m.fires? = some (n, t)) :
    ∃ i c label s, m.raised? = some (i, c) ∧ i.stack.unwindTo c.event = some ((t, label), s) ∧ s.callers.length = n := by
  obtain ⟨⟨i, c⟩, hr, h⟩ := bind_eq_some_iff.1 h
  split at h
  · obtain ⟨⟨⟨t', label⟩, s⟩, hu, heq⟩ := map_eq_some_iff.1 h
    cases heq
    exact ⟨i, c, label, s, hr, hu, rfl⟩
  · cases h

theorem traps_of_callersKept {cs cs' : List Caller} (h : CallersKept cs cs') :
    cs'.map (fun c => c.frame.traps) = cs.map fun c => c.frame.traps := by
  induction h with
  | nil => rfl
  | cons hc _ ih => rw [map_cons, map_cons, ih, hc]

theorem traps_eq_of_top {s s' : Stack} (hcallers : CallersKept s.callers s'.callers)
    (htop : s'.top.traps = s.top.traps) : s'.frames.map Frame.traps = s.frames.map Frame.traps := by
  unfold frames
  rw [map_cons, map_cons, List.map_map, List.map_map, htop]
  exact congrArg _ (traps_of_callersKept hcallers)

theorem Local.traps_eq (h : m.Local m') : m'.stack.frames.map Frame.traps = m.stack.frames.map Frame.traps :=
  traps_eq_of_top h.callers (by rw [show m'.stack.top = _ from h.frame])

theorem FailsBy.armed (h : m.LocalFails m') (ha : m'.stack.Armed n t) : m.stack.Armed n t := by
  cases h with
  | stays h => exact ha.of_traps_eq h.traps_eq
  | @left m0 c cs h hc he =>
    subst he
    have hpop : Armed ⟨m0.top, c :: cs⟩ n t := ha.of_pop
    rw [← hc] at hpop
    exact hpop.of_traps_eq h.traps_eq

/-- The machine executes SIGNAL ON for an event in the frame that has `n` frames below it. -/
structure SetsTrap (m : Machine σ) (n : Nat) (t : Event) : Prop where
  about : ∃ c pos label, m.AboutTo c (.clause pos (.signalOn t label))
  running : m.Running
  halted : m.interp.halted = false
  place : m.stack.callers.length = n

theorem reaches_or_proceeds (m : Machine σ) : (∃ c s, m.AboutTo c s ∧ s.reaches = true) ∨ Proceeds step m := by
  by_cases hs : ∃ c s, m.AboutTo c s ∧ s.reaches = true
  · exact .inl hs
  · refine .inr (step_proceeds fun c s h => ?_)
    by_contra hr
    exact hs ⟨c, s, h, by simpa using hr⟩

theorem step_raised_armed (hstep : step m = .error (.raised c) m')
    (h : m'.stack.Armed n t) : m.stack.Armed n t := by
  obtain ⟨c, s, hs, hr⟩ | hlocal := m.reaches_or_proceeds
  · exact ((step_reaches m.hosts_any hs hr).raised hstep).armed h
  · exact (hlocal.raised hstep).armed h

theorem raised?_armed (h : m.raised? = some (i, c)) (ha : i.stack.Armed n t) : m.stack.Armed n t := by
  unfold raised? at h
  split at h
  · cases h
    exact ha
  · split at h
    · rename_i hstep
      cases h
      exact step_raised_armed hstep ha
    · cases h

theorem armed_of_fires (h : m.fires? = some (n, t)) : m.stack.Armed n t := by
  obtain ⟨i, c, label, s, hr, hu, rfl⟩ := fires?_eq_some h
  exact raised?_armed hr ((unwindTo_unwinds hu).armed.of_unwindFrom hu)

theorem not_armed_of_fires (h : m.fires? = some (n, t)) (hgo : m.tick.interp.status ≠ .stopped) :
    ¬ m.tick.stack.Armed n t := by
  obtain ⟨i, c, label, s, hr, hu, rfl⟩ := fires?_eq_some h
  rw [Machine.stack, tick_of_raised? hr]
  rw [tick_of_raised? hr] at hgo
  cases i.raise_raised c with
  | ended hst _ => exact absurd hst hgo
  | @trapped event label' s' v cursors hu' hgrows hstore hstack =>
    have hu'' : i.stack.unwindTo c.event = some ((event, label'), s') := hu'
    rw [hu] at hu''
    cases hu''
    rintro ⟨f, hf, ht⟩
    rw [hstack, frameAt?_top] at hf
    cases hf
    have hoff : ((s.top.disarm t).traps.lookup t).isSome = true := ht
    rw [s.top.lookup_disarm, if_pos rfl] at hoff
    cases hoff

theorem raise_armed (hgo : (i.raise c).status ≠ .stopped) (h : (i.raise c).stack.Armed n t) : i.stack.Armed n t := by
  cases i.raise_raised c with
  | ended hst _ => exact absurd hst hgo
  | @trapped event label s v cursors hu hgrows hstore hstack =>
    rw [hstack] at h
    have hs : s.Armed n t := h.of_top fun _ ht => by
      have hlookup : ((s.top.disarm event).traps.lookup t).isSome = true := ht
      rw [s.top.lookup_disarm] at hlookup
      split at hlookup
      · cases hlookup
      · exact hlookup
    exact hs.of_unwindFrom hu

theorem completeStep_armed {depth : Nat} (h : (i.completeStep depth).stack.Armed n t) : i.stack.Armed n t := by
  unfold Interpreter.completeStep at h
  split at h
  · exact h.of_traps_eq rfl
  · exact h

theorem MovesBy.armed (h : m.LocalMoves m') (hgo : m'.interp.status ≠ .stopped) (ha : m'.stack.Armed n t) :
    m.stack.Armed n t := by
  cases h with
  | stays h => exact ha.of_traps_eq h.traps_eq
  | stopped _ he => exact absurd he.status hgo
  | @returned m0 c cs value h hc hd hb =>
    obtain ⟨store, pool, hb'⟩ := handBack_of_data hd (popped m0 c cs)
    cases hb.symm.trans hb'
    have hpopped : Armed ⟨c.frame, cs⟩ n t := ha.of_traps_eq rfl
    have hpop : Armed ⟨m0.top, c :: cs⟩ n t := hpopped.of_pop
    rw [← hc] at hpop
    exact hpop.of_traps_eq h.traps_eq

theorem Suspends.armed (h : m.Suspends Local Set.univ m') (ha : m'.stack.Armed n t) : m.stack.Armed n t := by
  cases h with
  | @held m0 _ _ h _ _ hh =>
    obtain ⟨⟨id, channel⟩, _, rfl⟩ := map_eq_some_iff.1 hh
    exact Armed.of_traps_eq ha h.traps_eq
  | @entered m0 k i a needsValue h _ _ he =>
    subst he
    have hpush : m0.stack.Armed n t := Armed.of_push ha rfl rfl
    exact hpush.of_traps_eq h.traps_eq
  | refused h => exact ha.of_traps_eq h.traps_eq

theorem step_reaches_armed {c : Cursor} {s : Stmt} (hs : m.AboutTo c s) (hr : s.reaches = true)
    (hstep : Engine.step m = .ok () m') (h : m'.stack.Armed n t) :
    m.stack.Armed n t ∨
      m.stack.callers.length = n ∧ ∃ c pos label, m.AboutTo c (.clause pos (.signalOn t label)) := by
  have hexec := Engine.step_of_aboutTo hs
  cases s with
  | clause pos k =>
    cases k with
    | procedure names =>
      -- The traps of both frames stay.
      cases hc : m.stack.callers with
      | nil =>
        have hfails : Engine.step m = .error (.raised Fault.unexpectedProcedure.condition) _ :=
          hexec.trans (execProcedure_of_nil hc)
        cases hfails.symm.trans hstep
      | cons k ks =>
        by_cases hsteps : m.top.steps = 0
        · have hshares : Engine.step m = .ok () _ := hexec.trans (execProcedure_of_first hc hsteps)
          cases hshares.symm.trans hstep
          refine .inl (h.of_traps_eq (traps_eq_of_top ?_ rfl))
          rw [hc]
          exact .cons rfl (CallersKept.refl ks)
        · have hfails : Engine.step m = .error (.raised Fault.unexpectedProcedure.condition) _ :=
            hexec.trans (execProcedure_of_late hc hsteps)
          cases hfails.symm.trans hstep
    | signalOn e label =>
      have harms : Engine.step m = .ok () ((m.announced c (.clause pos (.signalOn e label))).modifyInterp
          fun i => i.modifyTop fun f => (f.arm e label).advance) := hexec.trans rfl
      cases harms.symm.trans hstep
      by_cases ht : t = e
      · subst ht
        by_cases hn : m.stack.callers.length = n
        · exact .inr ⟨hn, c, pos, label, hs⟩
        · exact .inl (Stack.Armed.of_top h fun hn' _ => absurd hn'.symm hn)
      · refine .inl (Stack.Armed.of_top h fun _ htop => ?_)
        have hlookup : ((m.top.arm e label).advance.traps.lookup t).isSome = true := htop
        rw [Frame.advance, Frame.lookup_arm, if_neg ht] at hlookup
        exact hlookup
    | signalOff e =>
      have hdisarms : Engine.step m = .ok () ((m.announced c (.clause pos (.signalOff e))).modifyInterp
          fun i => i.modifyTop fun f => (f.disarm e).advance) := hexec.trans rfl
      cases hdisarms.symm.trans hstep
      refine .inl (Stack.Armed.of_top h fun _ htop => ?_)
      have hlookup : ((m.top.disarm e).advance.traps.lookup t).isSome = true := htop
      rw [Frame.advance, Frame.lookup_disarm] at hlookup
      split at hlookup
      · cases hlookup
      · exact hlookup
    | _ => cases hr
  | _ => cases hr

/-- **Traps are set by SIGNAL ON only**: a frame that has a trap after a tick had it before, or is being executed and its
clause is SIGNAL ON. -/
theorem tick_armed (hrun : m.Running) (hgo : m.tick.interp.status ≠ .stopped) (h : m.tick.stack.Armed n t) :
    m.stack.Armed n t ∨ m.SetsTrap n t := by
  unfold tick at hgo h
  by_cases hh : m.interp.halted = true
  · rw [if_pos hh] at hgo h
    exact .inl (raise_armed (i := { m.interp with halted := false }) hgo h)
  · rw [if_neg hh] at hgo h
    cases hstep : step m with
    | error e m' =>
      rw [hstep] at hgo h
      cases e with
      | raised c => exact .inl (step_raised_armed hstep (raise_armed hgo h))
      | suspended =>
        left
        obtain ⟨c, s, hs, hr⟩ | hlocal := m.reaches_or_proceeds
        · exact ((step_reaches m.hosts_any hs hr).suspended hstep).elim
        · exact (hlocal.suspended hstep).armed h
    | ok v m' =>
      rw [hstep] at hgo h
      have hst : m'.interp.status ≠ .stopped := fun hst => hgo ((completeStep_leads m'.interp _).2.1.trans hst)
      have ha : m'.stack.Armed n t := completeStep_armed h
      obtain ⟨c, s, hs, hr⟩ | hlocal := m.reaches_or_proceeds
      · obtain ha | ⟨hn, hon⟩ := step_reaches_armed hs hr hstep ha
        · exact .inl ha
        · exact .inr ⟨hon, hrun, by simpa using hh, hn⟩
      · exact .inl ((hlocal.ok hstep).armed hst ha)

end Machine

end Rexx
