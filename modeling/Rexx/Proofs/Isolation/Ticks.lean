import Rexx.Proofs.Clause.Suspension
import Rexx.Proofs.Isolation.Memory
import Rexx.Proofs.Machine.Tick

/-!
# `Isolation.Ticks` — the moves of a tick

Whatever a tick executes, what it does to cells and frames is made of moves (`Machine.tick_shifts`).
-/

namespace Rexx

open Engine Interpreter Machine Memory Stack

namespace Machine

variable {σ : Type} {H : Policy} {m m' m'' : Machine σ}

/-! ## Moves -/

structure Exposes (m : Machine σ) (names : List Text) : Prop where
  first : m.top.steps = 0
  clause : ∃ c pos, m.AboutTo c (.clause pos (.procedure names))

def sharing (m : Machine σ) : Memory → List Text → Prop := fun a names => a = m.interp.memory ∧ m.Exposes names

/-- What was done to cells and frames is made of moves, none of which goes below the frames that are left, and code of the
host still keeps to the policy. -/
structure Shifts (H : Policy) (A : Memory → List Text → Prop) (m m' : Machine σ) : Prop where
  hosts : m'.Hosts H
  moves : Memory.Moves H A m'.stack.callers.length m.interp.memory m'.interp.memory

variable {A : Memory → List Text → Prop} {ks : List Caller} {names : List Text}

variable {cs : List Caller} {c : Caller} {a b : Memory} {d d' : Nat} {k : Caller}

theorem move_lower (hd : d' ≤ d) (h : Move H A d a b) : Move H A d' a b := by
  cases h with
  | write h => exact .write h
  | push hp => exact .push hp
  | pop habove => exact .pop (hd.trans habove)
  | share ha hs => exact .share ha hs

theorem moves_lower (hd : d' ≤ d) (h : Memory.Moves H A d a b) : Memory.Moves H A d' a b := by
  induction h with
  | refl => exact .refl
  | tail _ hm ih => exact ih.tail (move_lower hd hm)

theorem Shifts.trans (h : m.Shifts H A m') (hd : m''.stack.callers.length ≤ m'.stack.callers.length)
    (h' : m'.Shifts H A m'') : m.Shifts H A m'' :=
  ⟨h'.hosts, (moves_lower hd h.moves).trans h'.moves⟩

theorem Local.shifts (h : m.Local m') (hm : m.Hosts H) : m.Shifts H A m' := ⟨h.hosts H hm, (h.writes H hm).moves⟩

theorem Local.then (h : m.Local m') (hm : m.Hosts H) (h' : m'.Hosts H → m'.Shifts H A m'') : m.Shifts H A m'' :=
  have h2 := h' (h.hosts H hm)
  ⟨h2.hosts, (h.writes H hm).moves.trans h2.moves⟩

theorem Local.length_eq (h : m.Local m') : m'.stack.callers.length = m.stack.callers.length :=
  h.callers.length_eq.symm

theorem popped_shifts (hc : m.stack.callers = c :: cs) (hm : m.Hosts H) : m.Shifts H A (popped m c cs) := by
  refine ⟨⟨hm.provisions, hm.loader⟩, .single ?_⟩
  have hpop : Move H A cs.length (m.interp.store, ⟨m.top, c :: cs⟩) (m.interp.store, ⟨c.frame, cs⟩) :=
    .pop (le_refl _)
  rwa [← hc] at hpop

theorem handBack_local {value : Option Text} (h : handBack c value m = .ok () m') : m.Local m' := by
  cases hv : c.needsValue && value.isNone with
  | true =>
    rw [handBack_of_noData hv] at h
    cases h
  | false =>
    have hnote : ∀ m1 : Machine σ, m1.Local (m1.modifyTop fun f =>
        { f with memo := (c.site, value.getD []) :: f.memo }) := fun m1 => .modifyTop rfl rfl
    simp only [handBack, hv] at h
    cases hn : c.needsValue with
    | true =>
      rw [hn] at h
      cases h
      exact hnote m
    | false =>
      rw [hn] at h
      cases h
      refine (Evolves.local (.setVariables ∅ m ?_)).trans (hnote _)
      cases value with
      | some value => exact .set _ _ value
      | none => exact .drop _ _

theorem MovesBy.shifts (h : m.LocalMoves m') (hm : m.Hosts H) : m.Shifts H A m' ∨ ∃ m0, m.Local m0 ∧ m0.Ends m' := by
  cases h with
  | stays h => exact .inl (h.shifts hm)
  | @returned m0 c cs value h hc _ hb =>
    have hback := handBack_local hb
    refine .inl (h.then hm fun hm0 => ?_)
    have hpop : m0.Shifts H A (popped m0 c cs) := popped_shifts hc hm0
    exact hpop.trans hback.length_eq.le (hback.shifts hpop.hosts)
  | @stopped m0 h he => exact .inr ⟨m0, h, he⟩

theorem FailsBy.shifts (h : m.LocalFails m') (hm : m.Hosts H) : m.Shifts H A m' := by
  cases h with
  | stays h => exact h.shifts hm
  | @left m0 c cs h hc he =>
    subst he
    exact h.then hm (popped_shifts hc)

theorem enter_shifts (hm : m.Hosts H) (k : Site) (i : Nat) (a : Args) (needsValue : Bool) :
    m.Shifts H A (m.enter k i a needsValue) := by
  let f : Frame :=
    { Frame.fresh with
      target := m.top.target, args := a, cursors := [.at m.interp.program.body (i + 1) none] }
  have hpush : Move H A (m.stack.callers.length + 1) m.interp.memory
      (m.interp.store, ⟨f, ⟨m.top, k, needsValue⟩ :: m.stack.callers⟩) := .push rfl
  exact ⟨⟨hm.provisions, hm.loader⟩, .tail (.single hpush) (.write (.vars (.set _ _ _)))⟩

theorem Suspends.shifts {S : Set Site} (h : m.Suspends Local S m') (hm : m.Hosts H) : m.Shifts H A m' := by
  cases h with
  | held h _ _ hh =>
    obtain ⟨⟨id, channel⟩, _, rfl⟩ := Option.map_eq_some_iff.1 hh
    exact h.then hm fun hm0 => ⟨⟨hm0.provisions, hm0.loader⟩, .refl⟩
  | @entered m0 k i a needsValue h _ _ he =>
    subst he
    exact h.then hm fun hm0 => enter_shifts hm0 k i a needsValue
  | refused h => exact h.shifts hm

/-! ## Steps -/

def Reaches (H : Policy) (m m' : Machine σ) : Prop :=
  m.Shifts H m.sharing m' ∧ m'.stack.callers.length = m.stack.callers.length

theorem Reaches.modifyTop {f : Frame → Frame} (h : m.Reaches H m') (hf : ∀ fr, (f fr).pool = fr.pool) :
    m.Reaches H (m'.modifyTop f) :=
  ⟨⟨⟨h.1.hosts.provisions, h.1.hosts.loader⟩, h.1.moves.tail (.write (.frame (hf _)))⟩, h.2⟩

theorem Reaches.advance (h : m.Reaches H m') : m.Reaches H (m'.modifyTop Frame.advance) :=
  h.modifyTop fun _ => rfl

def sharingWith (m : Machine σ) (names : List Text) (k : Caller) (ks : List Caller) : Machine σ :=
  m.modifyInterp fun i =>
    let b := Store.share names (i.store, i.stack.top.pool, k.frame.pool)
    { i with
      store := b.1
      stack := ⟨{ i.stack.top with pool := b.2.1 }, { k with frame := { k.frame with pool := b.2.2 } } :: ks⟩ }

theorem execProcedure_of_first (hc : m.stack.callers = k :: ks) (hsteps : m.top.steps = 0) :
    execProcedure names m =
      .ok () ((m.sharingWith names k ks).modifyTop Frame.advance) := by
  rw [execProcedure, bind_of_ok (interp_apply m), hc]
  dsimp only
  rw [if_neg (not_not.2 hsteps)]
  rfl

theorem execProcedure_of_late (hc : m.stack.callers = k :: ks) (hsteps : m.top.steps ≠ 0) :
    execProcedure names m = .error (.raised Fault.unexpectedProcedure.condition) m := by
  rw [execProcedure, bind_of_ok (interp_apply m), hc]
  dsimp only
  rw [if_pos hsteps]
  rfl

theorem execProcedure_of_nil (hc : m.stack.callers = []) :
    execProcedure names m = .error (.raised Fault.unexpectedProcedure.condition) m := by
  rw [execProcedure, bind_of_ok (interp_apply m), hc]
  rfl

theorem sharingWith_reaches {c : Cursor} {pos : Position}
    (hm : m.Hosts H) (hs : m.AboutTo c (.clause pos (.procedure names))) (hc : m.stack.callers = k :: ks)
    (hsteps : m.top.steps = 0) :
    m.Reaches H ((m.announced c (.clause pos (.procedure names))).sharingWith names k ks) := by
  refine ⟨⟨⟨hm.provisions, hm.loader⟩, .single ?_⟩, (congrArg List.length hc).symm⟩
  have hmem : m.interp.memory = (m.interp.store, ⟨m.top, k :: ks⟩) := by rw [← hc]; rfl
  rw [hmem]
  exact .share ⟨hmem.symm, hsteps, c, pos, hs⟩ rfl

theorem step_reaches {c : Cursor} {s : Stmt} (hm : m.Hosts H) (hs : m.AboutTo c s) (hr : s.reaches = true) :
    Ensures (Reaches H) LocalFails (fun _ _ => False) step m := by
  have hann := announced_local m c s
  have hstep := step_of_aboutTo hs
  cases s with
  | clause pos cl =>
    cases cl with
    | procedure names =>
      cases hc : m.stack.callers with
      | nil => exact .of_raised (hstep.trans (execProcedure_of_nil hc)) (.stays hann)
      | cons k ks =>
        by_cases hsteps : m.top.steps = 0
        · exact .of_ok (hstep.trans (execProcedure_of_first hc hsteps)) (sharingWith_reaches hm hs hc hsteps).advance
        · exact .of_raised (hstep.trans (execProcedure_of_late hc hsteps)) (.stays hann)
    | signalOn event label =>
      have hann' : Reaches H m (m.announced c (.clause pos (.signalOn event label))) :=
        ⟨hann.shifts hm, rfl⟩
      exact .of_ok (hstep.trans rfl) (hann'.modifyTop (f := fun f => f.arm event label) fun _ => rfl).advance
    | signalOff event =>
      have hann' : Reaches H m (m.announced c (.clause pos (.signalOff event))) :=
        ⟨hann.shifts hm, rfl⟩
      exact .of_ok (hstep.trans rfl) (hann'.modifyTop (f := fun f => f.disarm event) fun _ => rfl).advance
    | _ => cases hr
  | _ => cases hr

/-! ## Conditions -/

theorem unwindFrom_moves {e : Event} {st : Store} {top : Frame} {t : Event × Text} {s : Stack}
    (h : Stack.unwindFrom e top cs = some (t, s)) : Memory.Moves H A s.callers.length (st, ⟨top, cs⟩) (st, s) := by
  induction cs generalizing top with
  | nil =>
    obtain ⟨_, _, hs⟩ := Option.map_eq_some_iff.1 h
    cases hs
    exact .refl
  | cons c cs ih =>
    unfold Stack.unwindFrom at h
    split at h
    · cases h
      exact .refl
    · exact .head (.pop (Stack.unwindFrom_callers h).length_le) (ih h)

theorem unwound_moves (st : Store) (s : Stack) : Memory.Moves H A 0 (st, s) (st, s.unwound) := by
  obtain ⟨top, cs⟩ := s
  induction cs generalizing top with
  | nil => exact .refl
  | cons c cs ih =>
    have hmain : Stack.main ⟨top, c :: cs⟩ = Stack.main ⟨c.frame, cs⟩ := by
      cases cs with
      | nil => rfl
      | cons d ds => rw [Stack.main]; rfl
    rw [Stack.unwound, hmain]
    exact .head (.pop (Nat.zero_le _)) (ih c.frame)

end Machine

inductive Interpreter.Raised {σ : Type} (e : Event) (i i' : Interpreter σ) : Prop where
  | trapped {event : Event} {label : Text} {s : Stack} {v : Variables} {cursors : List Cursor}
      (unwinds : Stack.unwindFrom e i.stack.top i.stack.callers = some ((event, label), s))
      (grows : Variables.Grows ⟨i.store, s.top.pool⟩ v) (store : i'.store = v.store)
      (stack : i'.stack = ⟨{ (s.top.disarm event).forget with pool := v.pool, cursors }, s.callers⟩)
  | ended (status : i'.status = .stopped) (moves : ∀ H A, Memory.Moves H A 0 i.memory i'.memory)

namespace Interpreter

variable {σ : Type}

variable (i : Interpreter σ) (c : Condition)

theorem fatal_moves {H : Policy} {A : Memory → List Text → Prop} : Moves H A 0 i.memory (i.fatal c).memory :=
  (unwound_moves i.store i.stack).tail (.write (.frame rfl))

theorem raise_raised : Raised c.event i (i.raise c) := by
  unfold raise
  dsimp only
  split
  · exact .ended rfl fun H A => fatal_moves i _
  · rename_i event label stack hu
    have hunwound : unwindFrom c.event i.stack.top i.stack.callers = some ((event, label), stack) := by
      split at hu
      · exact hu
      · cases hu
    unfold landed
    split
    · exact .trapped hunwound (.describe _ _ _) rfl rfl
    · refine .ended rfl fun H A => ?_
      have hpops : Moves H A 0 i.memory (i.store, stack) :=
        moves_lower (Nat.zero_le _) (unwindFrom_moves hunwound)
      refine .trans ?_ (fatal_moves _ _)
      exact (hpops.tail (.write (.frame (f := (stack.top.disarm event).forget) rfl))).tail
        (.write (.vars (.describe _ _ _)))

theorem raise_code :
    (i.raise c).functions = i.functions ∧ (i.raise c).operations = i.operations ∧ (i.raise c).loader = i.loader := by
  unfold raise landed
  dsimp only
  split
  · exact ⟨rfl, rfl, rfl⟩
  · split <;> exact ⟨rfl, rfl, rfl⟩

end Interpreter

namespace Machine

variable {σ : Type} {H : Policy} {A : Memory → List Text → Prop} {m m' m'' : Machine σ}

theorem Hosts.of_code {f : Interpreter σ → Interpreter σ} (hm : m.Hosts H)
    (h : (f m.interp).functions = m.interp.functions ∧ (f m.interp).operations = m.interp.operations ∧
      (f m.interp).loader = m.interp.loader) : (m.modifyInterp f).Hosts H := by
  obtain ⟨hf, ho, hl⟩ := h
  refine ⟨?_, ?_⟩
  · show Provisions.Keeps H ⟨(f m.interp).functions, (f m.interp).operations, m.targets⟩
    rw [hf, ho]
    exact hm.provisions
  · show (f m.interp).loader.Keeps H m.around.files
    rw [hl]
    exact hm.loader

theorem raise_shifts (hm : m.Hosts H) (c : Condition) (hgo : (m.interp.raise c).status ≠ .stopped) :
    m.Shifts H A (m.modifyInterp fun i => i.raise c) := by
  refine ⟨hm.of_code (m.interp.raise_code c), ?_⟩
  show Memory.Moves H A (m.interp.raise c).stack.callers.length m.interp.memory (m.interp.raise c).memory
  cases m.interp.raise_raised c with
  | ended hst _ => exact absurd hst hgo
  | @trapped event label s v cursors hu hgrows hstore hstack =>
    have hmemory : (m.interp.raise c).memory = (v.store, _) := Prod.ext hstore hstack
    rw [hmemory, hstack]
    have hpops : Memory.Moves H A s.callers.length m.interp.memory (m.interp.store, s) := unwindFrom_moves hu
    exact (hpops.tail (.write (.vars hgrows))).tail (.write (.frame rfl))

/-! ## Ticks -/

theorem completeStep_shifts (hm : m.Hosts H) (depth : Nat) :
    m.Shifts H A (m.modifyInterp fun i => i.completeStep depth) := by
  refine ⟨hm.of_code (by unfold completeStep; split <;> exact ⟨rfl, rfl, rfl⟩), ?_⟩
  show Memory.Moves H A _ m.interp.memory (m.interp.completeStep depth).memory
  unfold completeStep
  split
  · exact .single (.write (.frame rfl))
  · exact .refl

theorem completeStep_length (m : Machine σ) (depth : Nat) :
    (m.modifyInterp fun i => i.completeStep depth).stack.callers.length = m.stack.callers.length :=
  congrArg List.length (completeStep_leads m.interp depth).2.2

theorem raise_length (m : Machine σ) (c : Condition) (hgo : (m.interp.raise c).status ≠ .stopped) :
    (m.modifyInterp fun i => i.raise c).stack.callers.length ≤ m.stack.callers.length := by
  obtain ⟨-, ⟨-, hs⟩ | hs⟩ := m.interp.raise_leads c
  · exact hs.length_le
  · exact absurd hs hgo

theorem step_shifts (hm : m.Hosts H) :
    Ensures (fun m m' => m.Shifts H m.sharing m' ∨ ∃ m0, m.Local m0 ∧ m0.Ends m') (Shifts H m.sharing)
      (Shifts H m.sharing) step m := by
  by_cases hs : ∃ c s, m.AboutTo c s ∧ s.reaches = true
  · obtain ⟨c, s, hs, hr⟩ := hs
    exact (step_reaches hm hs hr).imp (fun h => .inl h.1) (fun h => h.shifts hm) fun h => h.elim
  · have hlocal : Proceeds step m := step_proceeds fun c s h => by
      by_contra hr
      exact hs ⟨c, s, h, by simpa using hr⟩
    exact hlocal.imp (fun h => h.shifts hm) (fun h => h.shifts hm) fun h => h.shifts hm

theorem tick_shifts (hm : m.Hosts H) (hgo : m.tick.interp.status ≠ .stopped) : m.Shifts H m.sharing m.tick := by
  unfold tick at hgo ⊢
  split
  · rename_i hh
    rw [if_pos hh] at hgo
    have hraise := raise_shifts (A := m.sharing) (m := m.modifyInterp fun i => { i with halted := false })
      ⟨hm.provisions, hm.loader⟩ _ hgo
    exact ⟨hraise.hosts, hraise.moves⟩
  · rename_i hh
    rw [if_neg hh] at hgo
    cases hstep : step m with
    | ok v m' =>
      rw [hstep] at hgo
      have hst : m'.interp.status ≠ .stopped := fun hst => hgo ((completeStep_leads m'.interp _).2.1.trans hst)
      obtain h1 | ⟨_, _, he⟩ := (step_shifts hm).ok hstep
      · exact h1.trans (completeStep_length m' _).le (completeStep_shifts h1.hosts _)
      · exact absurd he.status hst
    | error e m' =>
      rw [hstep] at hgo
      cases e with
      | suspended => exact (step_shifts hm).suspended hstep
      | raised c =>
        have h1 := (step_shifts hm).raised hstep
        exact h1.trans (raise_length m' c hgo) (raise_shifts h1.hosts c hgo)

/-! ## Cells with one name -/

theorem tidy_of_subset {a b : Memory} (h : a.Tidy) (hst : b.1 = a.1)
    (hf : ∀ f ∈ b.2.frames, ∃ g ∈ a.2.frames, g.pool = f.pool) : b.Tidy := by
  constructor
  · rw [hst]
    refine h.vars.subset ?_
    rintro _ ⟨f, hfb, rfl⟩
    obtain ⟨g, hg, hgf⟩ := hf f hfb
    exact ⟨g, hg, by rw [hgf]⟩
  · rw [hst]
    refine h.stems.subset ?_
    rintro _ ⟨f, hfb, rfl⟩
    obtain ⟨g, hg, hgf⟩ := hf f hfb
    exact ⟨g, hg, by rw [hgf]⟩

theorem raise_tidy {i : Interpreter σ} (h : i.memory.Tidy) (c : Condition) : (i.raise c).memory.Tidy := by
  cases i.raise_raised c with
  | ended _ hmoves => exact (hmoves _ fun _ _ => True).tidy h
  | @trapped event label s v cursors hu hgrows hstore hstack =>
    have hmemory : (i.raise c).memory = (v.store, _) := Prod.ext hstore hstack
    rw [hmemory]
    have hpops : Memory.Moves Variables.Grows (fun _ _ => True) s.callers.length i.memory (i.store, s) :=
      unwindFrom_moves hu
    exact Moves.tidy ((hpops.tail (.write (.vars hgrows))).tail (.write (.frame rfl))) h

theorem tick_tidy (hm : m.Hosts Variables.Grows) (h : m.interp.memory.Tidy) : m.tick.interp.memory.Tidy := by
  unfold tick
  split
  · exact raise_tidy (i := { m.interp with halted := false }) h _
  · dsimp only
    cases hstep : step m with
    | ok v m' =>
      have hm' : m'.interp.memory.Tidy := by
        obtain h1 | ⟨m0, h0, he⟩ := (step_shifts hm).ok hstep
        · exact h1.moves.tidy h
        · exact tidy_of_subset ((h0.shifts (A := m.sharing) hm).moves.tidy h) (by rw [he.same]; rfl) he.frames
      show (m'.interp.completeStep _).memory.Tidy
      unfold completeStep
      split
      · refine Write.tidy ?_ hm'
        exact .frame rfl
      · exact hm'
    | error e m' =>
      cases e with
      | suspended => exact ((step_shifts hm).suspended hstep).moves.tidy h
      | raised c => exact raise_tidy (((step_shifts hm).raised hstep).moves.tidy h) c

end Machine

end Rexx
