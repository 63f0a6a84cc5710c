import Rexx.Proofs.Clause.Steps

/-!
# `Machine.Tick` — where a tick leads

A completed step is forgotten; a condition goes to the nearest frame with a trap for it or ends the script.
-/

namespace Rexx

open List

namespace Stack

theorem unwindFrom_callers {e : Event} {top : Frame} {cs : List Caller} {t : Event × Text} {s : Stack}
    (h : unwindFrom e top cs = some (t, s)) : s.callers <:+ cs := by
  induction cs generalizing top with
  | nil =>
    obtain ⟨_, _, hs⟩ := Option.map_eq_some_iff.1 h
    cases hs
    exact suffix_rfl
  | cons c cs ih =>
    unfold unwindFrom at h
    split at h
    · cases h
      exact suffix_rfl
    · exact (ih h).trans (suffix_cons c cs)

end Stack

namespace Interpreter

variable {σ : Type}

theorem raise_leads (i : Interpreter σ) (c : Condition) : (i.raise c).id = i.id ∧
      ((i.raise c).status = i.status ∧ (i.raise c).stack.callers <:+ i.stack.callers ∨ (i.raise c).status = .stopped) := by
  unfold raise
  dsimp only
  split
  · exact ⟨rfl, .inr rfl⟩
  · rename_i stack hu
    have hs : stack.callers <:+ i.stack.callers := by
      split at hu
      · exact Stack.unwindFrom_callers hu
      · cases hu
    unfold landed
    split
    · exact ⟨rfl, .inl ⟨rfl, hs⟩⟩
    · exact ⟨rfl, .inr rfl⟩

end Interpreter

/-! ## Ticks -/

def CallersAligned (cs cs' : List Caller) : Prop := ∃ l, CallersKept cs l ∧ (cs' <:+ l ∨ l <:+ cs')

namespace Machine

variable {σ : Type} {m m' : Machine σ}

inductive Goes (m m' : Machine σ) : Prop where
  | on (id : m'.interp.id = m.interp.id) (channel : m'.channel = m.channel) (status : m'.interp.status = .running)
      (callers : CallersAligned m.stack.callers m'.stack.callers)
  | stops (id : m'.interp.id = m.interp.id) (channel : m'.channel = m.channel) (status : m'.interp.status = .stopped)
  | holds {m0 : Machine σ} {site : Site} {c : Checkpoint} (steady : m.Steady m0) (hold : m0.hold? site c = some m')

theorem goes_of_fails (hrun : m.interp.status = .running) (h : m.Fails m') (c : Condition) :
    m.Goes (m'.modifyInterp fun i => i.raise c) := by
  obtain ⟨hid, hrest⟩ := m'.interp.raise_leads c
  -- A failed step leaves the interpreter running, on a lower part of its stack.
  obtain ⟨hid', hch, hst, l, hl, hsuf⟩ : m'.interp.id = m.interp.id ∧ m'.channel = m.channel ∧
      m'.interp.status = m.interp.status ∧ ∃ l, CallersKept m.stack.callers l ∧
        m'.stack.callers <:+ l := by
    cases h with
    | steady h => exact ⟨h.id, h.channel, h.status, _, h.callers, suffix_rfl⟩
    | @left m0 c cs h hc hm =>
      subst hm
      refine ⟨h.id, h.channel, h.status, _, h.callers, ?_⟩
      rw [hc]
      exact suffix_cons c cs
  obtain ⟨hs, hcs⟩ | hs := hrest
  · exact .on (hid.trans hid') hch (hs.trans (hst.trans hrun)) ⟨l, hl, .inl (hcs.trans hsuf)⟩
  · exact .stops (hid.trans hid') hch hs

theorem completeStep_leads (i : Interpreter σ) (depth : Nat) :
    (i.completeStep depth).id = i.id ∧ (i.completeStep depth).status = i.status ∧
      (i.completeStep depth).stack.callers = i.stack.callers := by
  unfold Interpreter.completeStep
  split <;> exact ⟨rfl, rfl, rfl⟩

theorem goes_of_moves (hrun : m.interp.status = .running) (h : m.Moves m') (depth : Nat) :
    m.Goes (m'.modifyInterp fun i => i.completeStep depth) := by
  obtain ⟨hid, hst, hcs⟩ := completeStep_leads m'.interp depth
  cases h with
  | steady h =>
    refine .on (hid.trans h.id) h.channel (hst.trans (h.status.trans hrun)) ⟨_, h.callers, .inl ?_⟩
    exact hcs ▸ suffix_rfl
  | @returned m0 c cs v h hr =>
    refine .on (hid.trans (hr.id.trans h.id)) (hr.channel.trans h.channel)
      (hst.trans (hr.status.trans (h.status.trans hrun))) ⟨_, h.callers, .inl ?_⟩
    have hcs' : m'.stack.callers = cs := by rw [hr.stack]
    rw [hr.callers, ← hcs', ← hcs]
    exact suffix_cons c _
  | stopped hi hc hs _ => exact .stops (hid.trans hi) hc (hst.trans hs)

theorem goes_of_pauses (hrun : m.interp.status = .running) (h : m.Pauses m') : m.Goes m' := by
  cases h with
  | held h _ _ hh => exact .holds h hh
  | @entered m0 k i a needsValue h _ _ he =>
    subst he
    exact .on h.id h.channel (h.status.trans hrun) ⟨_, h.callers, .inr (suffix_cons _ _)⟩
  | refused h => exact .on h.id h.channel (h.status.trans hrun) ⟨_, h.callers, .inl suffix_rfl⟩

theorem start_eq_ok {source name : Text} {args : Args} :
    m.start source name args = .ok m' ↔ ∃ p, Program.parse source name = .ok p ∧ m' = m.begin p args := by
  unfold start
  cases Program.parse source name <;> simp [Except.map, eq_comm]

theorem tick_goes (hrun : m.interp.status = .running) : m.Goes m.tick := by
  unfold tick
  split
  · obtain ⟨hid, ⟨hs, hcs⟩ | hs⟩ := ({ m.interp with halted := false } : Interpreter σ).raise_leads
      Fault.interrupted.condition
    · exact .on hid rfl (hs.trans hrun) ⟨_, .refl _, .inl hcs⟩
    · exact .stops hid rfl hs
  · have hstep := Engine.step_leads m
    split
    · rename_i m' hm
      exact goes_of_moves hrun (hstep.ok hm) _
    · rename_i m' hm
      exact goes_of_pauses hrun (hstep.suspended hm)
    · rename_i c m' hm
      exact goes_of_fails hrun (hstep.raised hm) c

end Machine

end Rexx

/-! ## What a tick does -/

namespace Rexx.Machine

variable {σ : Type} {S : Set Site} {m m' m'' : Machine σ}

def Turns (m m' : Machine σ) : Prop :=
  m' = { m with
    channel := m'.channel
    interp := { m.interp with
      status := m'.interp.status
      exitCode := m'.interp.exitCode
      result := m'.interp.result
      error := m'.interp.error
      diagnostics := m'.interp.diagnostics
      trapped := m'.interp.trapped
      line := m'.interp.line
      stack := m'.stack
      store := m'.interp.store
      halted := m'.interp.halted } }

theorem Turns.trans (h : m.Turns m') (h' : m'.Turns m'') : m.Turns m'' := by
  unfold Turns at *
  rw [h', h]

theorem Ends.turns (h : m.Ends m') : m.Turns m' := by
  rw [h.same]
  rfl

theorem raise_turns (m : Machine σ) (c : Condition) : m.Turns (m.modifyInterp fun i => i.raise c) := by
  simp only [modifyInterp, Interpreter.raise, Interpreter.landed]
  split
  · rfl
  · split
    · rfl
    · rfl

theorem completeStep_turns (m : Machine σ) (depth : Nat) : m.Turns (m.modifyInterp fun i => i.completeStep depth) := by
  simp only [modifyInterp, Interpreter.completeStep]
  split
  · rfl
  · rfl

theorem hold?_turns {site : Site} {c : Checkpoint} (h : m.hold? site c = some m') : m.Turns m' := by
  obtain ⟨q, _, rfl⟩ := Option.map_eq_some_iff.1 h
  rfl

theorem answer?_turns {r : Response} (h : m.answer? r = some m') : m.Turns m' := by
  obtain ⟨_, _, _, rfl⟩ := answer?_spec h
  rfl

variable {R : Machine σ → Machine σ → Prop}

theorem MovesBy.keeps (h : m.MovesBy R m') (trans : ∀ {m m' m''}, R m m' → R m' m'' → R m m'')
    (turns : ∀ {m m'}, m.Turns m' → R m m') : R m m' := by
  cases h with
  | stays h => exact h
  | @returned m0 c cs value h _ hd hb =>
    obtain ⟨store, pool, hb'⟩ := Engine.handBack_of_data hd (Engine.popped m0 c cs)
    cases hb.symm.trans hb'
    exact trans h (turns rfl)
  | stopped h he => exact trans h (turns he.turns)

theorem FailsBy.keeps (h : m.FailsBy R m') (trans : ∀ {m m' m''}, R m m' → R m' m'' → R m m'')
    (turns : ∀ {m m'}, m.Turns m' → R m m') : R m m' := by
  cases h with
  | stays h => exact h
  | left h _ he =>
    subst he
    exact trans h (turns rfl)

theorem Suspends.keeps (h : m.Suspends R S m') (trans : ∀ {m m' m''}, R m m' → R m' m'' → R m m'')
    (turns : ∀ {m m'}, m.Turns m' → R m m') : R m m' := by
  cases h with
  | held h _ _ hh => exact trans h (turns (hold?_turns hh))
  | entered h _ _ he =>
    subst he
    exact trans h (turns rfl)
  | refused h => exact h

def Executes (m : Machine σ) (k : Option Clause) : Prop := k = none ∨ ∃ c s, m.AboutTo c s ∧ s.clause? = k

theorem tick_keeps (trans : ∀ {m m' m''}, R m m' → R m' m'' → R m m'') (turns : ∀ {m m'}, m.Turns m' → R m m')
    (act : ∀ {k m0 m1}, m.Executes k → m0.Act k m1 → R m0 m1) : R m m.tick := by
  have hdoes : ∀ {k m0 m1}, m.Executes k → m0.Does k m1 → R m0 m1 := fun hk h =>
    h.keeps (fun m => turns rfl) trans fun _ _ => act hk
  have hstep : Engine.ProceedsBy R Engine.step m := by
    refine Engine.step_proceedsBy (fun c s hs m0 h => ?_) fun m0 h => hdoes (.inl rfl) h
    have hannounced : R m (m.announced c s) := turns rfl
    exact trans hannounced (hdoes (.inr ⟨c, s, hs, rfl⟩) h)
  unfold tick
  split
  · have hheard : m.Turns (m.modifyInterp fun i => { i with halted := false }) := rfl
    exact turns (hheard.trans (raise_turns _ _))
  · split
    · rename_i hm
      exact trans ((hstep.ok hm).keeps trans turns) (turns (completeStep_turns _ _))
    · rename_i hm
      exact (hstep.suspended hm).keeps trans turns
    · rename_i hm
      exact trans ((hstep.raised hm).keeps trans turns) (turns (raise_turns _ _))

/-- **What the host may do between ticks**: it assigns variables, changes options, lines and what is registered, and asks
for an interruption; it does not change how far the program has come. -/
structure Attends (m u : Machine σ) : Prop where
  status : u.interp.status = m.interp.status
  program : u.interp.program = m.interp.program
  fragments : u.interp.fragments = m.interp.fragments
  nextFragment : u.interp.nextFragment = m.interp.nextFragment
  interpretBlocked : u.interp.interpretBlocked = m.interp.interpretBlocked
  top : u.top = { m.top with pool := u.top.pool }
  callers : CallersKept m.stack.callers u.stack.callers

/-- **A step of a run of one program.** -/
inductive Onward (m u : Machine σ) : Prop where
  | tick (running : m.interp.status = .running) (next : u = m.tick)
  | answered {r : Response} (answer : m.answer? r = some u)
  | attended (attends : m.Attends u)

end Rexx.Machine
