import Rexx.Proofs.Evaluation.Expressions

/-!
# `Clause.Acts` — what statements do

All that a statement can do in its frame is listed here once, one kind of act at a time (`Machine.Act`).
-/

namespace Rexx

open Engine

namespace Machine

variable {σ : Type} {S : Set Site} {m m' m'' : Machine σ}

/-! ## Places -/

structure Steady (m m' : Machine σ) : Prop where
  id : m'.interp.id = m.interp.id
  program : m'.interp.program = m.interp.program
  status : m'.interp.status = m.interp.status
  channel : m'.channel = m.channel
  callers : CallersKept m.stack.callers m'.stack.callers
  halted : m.interp.halted = true → m'.interp.halted = true

theorem Steady.refl (m : Machine σ) : m.Steady m := ⟨rfl, rfl, rfl, rfl, .refl _, fun h => h⟩

theorem Steady.trans (h : m.Steady m') (h' : m'.Steady m'') : m.Steady m'' where
  id := h'.id.trans h.id
  program := h'.program.trans h.program
  status := h'.status.trans h.status
  channel := h'.channel.trans h.channel
  callers := h.callers.trans h'.callers
  halted hm := h'.halted (h.halted hm)

theorem Steady.depth (h : m.Steady m') : m'.stack.depth = m.stack.depth := by
  unfold Stack.depth
  rw [h.callers.length_eq]

theorem Evolves.steady (h : m.Evolves S m') : m.Steady m' where
  id := by rw [h.interp]
  program := h.program
  status := h.status
  channel := h.channel
  callers := h.callers
  halted := h.halted

structure Returns (c : Caller) (cs : List Caller) (v : Text) (m m' : Machine σ) : Prop where
  callers : m.stack.callers = c :: cs
  id : m'.interp.id = m.interp.id
  program : m'.interp.program = m.interp.program
  status : m'.interp.status = m.interp.status
  channel : m'.channel = m.channel
  halted : m'.interp.halted = m.interp.halted
  stack : m'.stack =
    ⟨{ c.frame with pool := m'.top.pool, memo := (c.site, v) :: c.frame.memo }, cs⟩

inductive Moves (m m' : Machine σ) : Prop where
  | steady (h : m.Steady m')
  | returned {m0 : Machine σ} {c : Caller} {cs : List Caller} {v : Text} (steady : m.Steady m0)
      (returns : Returns c cs v m0 m')
  | stopped (id : m'.interp.id = m.interp.id) (channel : m'.channel = m.channel) (status : m'.interp.status = .stopped)
      (halted : m.interp.halted = true → m'.interp.halted = true)

/-- Where a step leads that raises a condition: it stays in its frame, or it has left a routine without the value that the
call needs. -/
inductive Fails (m m' : Machine σ) : Prop where
  | steady (h : m.Steady m')
  | left {m0 : Machine σ} {c : Caller} {cs : List Caller} (steady : m.Steady m0)
      (callers : m0.stack.callers = c :: cs) (h : m' = m0.modifyInterp fun i => { i with stack := ⟨c.frame, cs⟩ })

abbrev Pauses (m m' : Machine σ) : Prop := m.Suspends Steady Set.univ m'

theorem Moves.halted (h : m.Moves m') (hm : m.interp.halted = true) : m'.interp.halted = true := by
  cases h with
  | steady h => exact h.halted hm
  | returned hs hr => exact hr.halted.trans (hs.halted hm)
  | stopped _ _ _ hh => exact hh hm

theorem Fails.halted (h : m.Fails m') (hm : m.interp.halted = true) : m'.interp.halted = true := by
  cases h with
  | steady h => exact h.halted hm
  | left hs _ he =>
    rw [he]
    exact hs.halted hm

end Machine

namespace Engine

variable {σ α : Type}

/-! ## Computations -/

def Stays (c : Engine σ α) (m : Machine σ) : Prop := Ensures Machine.Steady Machine.Fails Machine.Pauses c m

def Leads (c : Engine σ α) (m : Machine σ) : Prop := Ensures Machine.Moves Machine.Fails Machine.Pauses c m

end Engine

/-! ## What a step does to its frame -/

def Frame.Moved (f f' : Frame) : Prop :=
  f' = { f with
    pool := f'.pool, target := f'.target, cursors := f'.cursors, memo := f'.memo, replies := f'.replies }

theorem Frame.Moved.refl (f : Frame) : f.Moved f := rfl

theorem Frame.Moved.trans {f f' f'' : Frame} (h : f.Moved f') (h' : f'.Moved f'') : f.Moved f'' := by
  unfold Frame.Moved at *
  rw [h', h]

structure Interpreter.Alike {σ : Type} (i i' : Interpreter σ) : Prop where
  id : i'.id = i.id
  program : i'.program = i.program
  status : i'.status = i.status
  halted : i'.halted = i.halted
  store : i'.store = i.store
  stack : i'.stack = i.stack
  functions : i'.functions = i.functions
  operations : i'.operations = i.operations
  loader : i'.loader = i.loader

namespace Machine

variable {σ : Type} {S : Set Site} {m m' m'' : Machine σ}

/-- **The step has acted on its own frame only**, and through code of the host. -/
structure Local (m m' : Machine σ) : Prop extends m.Steady m' where
  frame : m.top.Moved m'.top
  hosts : ∀ H, m.Hosts H → m'.Hosts H
  writes : ∀ H, m.Hosts H → Memory.Writes H m.interp.memory m'.interp.memory

theorem Local.refl (m : Machine σ) : m.Local m := ⟨.refl m, .refl _, fun _ => id, fun _ _ => .refl⟩

theorem Local.trans (h : m.Local m') (h' : m'.Local m'') : m.Local m'' where
  toSteady := h.toSteady.trans h'.toSteady
  frame := h.frame.trans h'.frame
  hosts H hm := h'.hosts H (h.hosts H hm)
  writes H hm := (h.writes H hm).trans (h'.writes H (h.hosts H hm))

theorem Evolves.local (h : m.Evolves S m') : m.Local m' where
  toSteady := h.steady
  frame := by
    unfold Frame.Moved
    rw [h.top.same]
  hosts _ := h.hosts
  writes := h.writes

theorem Local.of_alike {f : Interpreter σ → Interpreter σ} (h : m.interp.Alike (f m.interp)) :
    m.Local (m.modifyInterp f) where
  id := h.id
  program := h.program
  status := h.status
  channel := rfl
  callers := by
    show CallersKept _ (f m.interp).stack.callers
    rw [h.stack]
    exact .refl _
  halted hm := h.halted.trans hm
  frame := by
    show m.top.Moved (f m.interp).stack.top
    rw [h.stack]
    exact .refl _
  hosts H hm := by
    constructor
    · show Provisions.Keeps H ⟨(f m.interp).functions, (f m.interp).operations, m.targets⟩
      rw [h.functions, h.operations]
      exact hm.provisions
    · show (f m.interp).loader.Keeps H m.around.files
      rw [h.loader]
      exact hm.loader
  writes H _ := by
    show Memory.Writes H m.interp.memory ((f m.interp).store, (f m.interp).stack)
    rw [h.store, h.stack]
    exact .refl

theorem Local.modifyTop {f : Frame → Frame} (hf : m.top.Moved (f m.top))
    (hpool : (f m.top).pool = m.top.pool) : m.Local (m.modifyTop f) where
  id := rfl
  program := rfl
  status := rfl
  channel := rfl
  callers := .refl _
  halted := id
  frame := hf
  hosts _ hm := ⟨hm.provisions, hm.loader⟩
  writes _ _ := .single (.frame hpool)

end Machine

namespace Engine

variable {σ α β : Type} {S : Set Site} {m m' : Machine σ}

/-! ## Leaving a routine -/

def popped (m : Machine σ) (c : Caller) (cs : List Caller) : Machine σ :=
  m.modifyInterp fun i => { i with stack := ⟨c.frame, cs⟩ }

end Engine

namespace Machine

variable {σ : Type} {m m' m'' : Machine σ}

structure Ends (m m' : Machine σ) : Prop where
  same : m' = m.modifyInterp fun i =>
    { i with
      status := .stopped, result := m'.interp.result, exitCode := m'.interp.exitCode, stack := m'.stack }
  frames : ∀ f ∈ m'.stack.frames, ∃ g ∈ m.stack.frames, g.pool = f.pool

theorem Ends.status (h : m.Ends m') : m'.interp.status = .stopped := by
  rw [h.same]
  rfl

variable {R R' : Machine σ → Machine σ → Prop}

inductive MovesBy (R : Machine σ → Machine σ → Prop) (m m' : Machine σ) : Prop where
  | stays (h : R m m')
  | returned {m0 : Machine σ} {c : Caller} {cs : List Caller} {value : Option Text} (h : R m m0)
      (callers : m0.stack.callers = c :: cs) (data : (c.needsValue && value.isNone) = false)
      (hands : Engine.handBack c value (Engine.popped m0 c cs) = .ok () m')
  | stopped {m0 : Machine σ} (h : R m m0) (ends : m0.Ends m')

inductive FailsBy (R : Machine σ → Machine σ → Prop) (m m' : Machine σ) : Prop where
  | stays (h : R m m')
  | left {m0 : Machine σ} {c : Caller} {cs : List Caller} (h : R m m0)
      (callers : m0.stack.callers = c :: cs) (he : m' = Engine.popped m0 c cs)

abbrev LocalMoves : Machine σ → Machine σ → Prop := MovesBy Local

abbrev LocalFails : Machine σ → Machine σ → Prop := FailsBy Local

theorem MovesBy.after (h : m'.MovesBy R m'') (hR : ∀ m0, R m' m0 → R' m m0) : m.MovesBy R' m'' := by
  cases h with
  | stays h => exact .stays (hR _ h)
  | returned h hc hd hb => exact .returned (hR _ h) hc hd hb
  | stopped h he => exact .stopped (hR _ h) he

theorem FailsBy.after (h : m'.FailsBy R m'') (hR : ∀ m0, R m' m0 → R' m m0) : m.FailsBy R' m'' := by
  cases h with
  | stays h => exact .stays (hR _ h)
  | left h hc he => exact .left (hR _ h) hc he

end Machine

/-! ## Computations -/

namespace Engine

variable {σ α : Type} {R R' : Machine σ → Machine σ → Prop} {m : Machine σ}

def Abides (R : Machine σ → Machine σ → Prop) (c : Engine σ α) (m : Machine σ) : Prop :=
  Ensures R R (Machine.Suspends R Set.univ) c m

def ProceedsBy (R : Machine σ → Machine σ → Prop) (c : Engine σ α) (m : Machine σ) : Prop :=
  Ensures (Machine.MovesBy R) (Machine.FailsBy R) (Machine.Suspends R Set.univ) c m

abbrev Proceeds (c : Engine σ α) (m : Machine σ) : Prop := ProceedsBy Machine.Local c m

theorem Abides.proceeds {c : Engine σ α} (h : Abides R c m) : ProceedsBy R c m := h.imp .stays .stays id

theorem ProceedsBy.weaken {c : Engine σ α} (h : ProceedsBy R c m) (hR : ∀ m0, R m m0 → R' m m0) : ProceedsBy R' c m :=
  Ensures.imp h (fun h => h.after hR) (fun h => h.after hR) fun h => h.after hR

end Engine

/-! ## What statements do -/

def Clause.leaves : Clause → Bool
  | .exit _ | .exitUnless _ _ _ | .ret _ => true
  | _ => false

def Stmt.leaves : Stmt → Bool
  | .clause _ c => c.leaves
  | _ => false

def Clause.reaches : Clause → Bool
  | .procedure _ | .signalOn _ _ | .signalOff _ => true
  | _ => false

def Stmt.reaches : Stmt → Bool
  | .clause _ c => c.reaches
  | _ => false

def Stmt.clause? : Stmt → Option Clause
  | .clause _ c => some c
  | _ => none

/-! ## Acts -/

namespace Machine

variable {σ : Type} {S : Set Site} {k : Option Clause} {m m' m'' : Machine σ}

/-- **One thing that a statement does** in its frame; `k` is the clause that it is. -/
inductive Act (k : Option Clause) (m : Machine σ) : Machine σ → Prop where
  | evaluates {S : Set Site} {m' : Machine σ} (h : m.Evolves S m') : Act k m m'
  | moves {f : Frame → Frame} (h : ∃ cs, f m.top = { m.top with cursors := cs }) :
      Act k m (m.modifyTop f)
  | speaks (said : Array Text) (queue input : List Text) : Act k m (m.modifyInterp fun i => { i with said, queue, input })
  | reports {code : Option Expr} {cond message : Expr} (clause : k = some (.exitUnless code cond message)) (line : Text) :
      Act k m (m.modifyInterp fun i => { i with diagnostics := i.diagnostics.push line })
  | forbids (clause : k = some .noInterpret) : Act k m (m.modifyInterp fun i => { i with interpretBlocked := true })
  | interprets {x : Expr} (clause : k = some (.interpret x)) (allowed : m.interp.interpretBlocked = false)
      (fragments : List Fragment) (nextFragment : Nat) :
      Act k m (m.modifyInterp fun i => { i with fragments, nextFragment })
  | traces {option : Text} (clause : k = some (.trace option)) (trace : Bool) :
      Act k m (m.modifyInterp fun i => { i with options := { i.options with trace } })
  | counts {setting : NumericSetting} {x : Option Expr} {n : Int} {numeric : Number.Settings}
      (clause : k = some (.numeric setting x))
      (set : Engine.settingsWith setting m.interp.options.numeric n = .ok numeric) :
      Act k m (m.modifyInterp fun i => { i with options := { i.options with numeric } })
  | forms {engineering : Bool} (clause : k = some (.numericForm engineering)) (form : Number.Form) :
      Act k m (m.modifyInterp fun i => { i with options := { i.options with numeric := { i.options.numeric with form } } })
  | aims {name : Option Text} {auth : Option Expr} {asName : Option Text} {cmd : Option Expr}
      (clause : k = some (.address name auth asName cmd)) (target : Option Text) :
      Act k m (m.modifyTop fun f => { f with target })
  | switches {name : Option Text} {auth : Option Expr} {asName : Option Text} {cmd : Option Expr} {token : Text}
      {targets : Registry σ} {target : Option Text} (clause : k = some (.address name auth asName cmd))
      (switch : m.targets.switch (name.getD []) token (asName.getD []) = .ok (targets, target)) :
      Act k m { m with targets }
  | loads {x : Expr} {as : Option Text} (clause : k = some (.require x as)) (spec : Text) :
      Act k m (m.load spec (as.getD [])).2
  | shares {c : Clause} (clause : k = some c) (reaches : c.reaches = true) {store : Store} {f : Frame → Frame}
      {callers : List Caller} (kept : CallersKept m.stack.callers callers) :
      Act k m (m.modifyInterp fun i => { i with store, stack := ⟨f i.stack.top, callers⟩ })

abbrev Does (k : Option Clause) : Machine σ → Machine σ → Prop := Relation.ReflTransGen (Act k)

theorem Does.keeps {R : Machine σ → Machine σ → Prop} (h : m.Does k m') (refl : ∀ m, R m m)
    (trans : ∀ {m m' m''}, R m m' → R m' m'' → R m m'') (act : ∀ m m', m.Act k m' → R m m') : R m m' := by
  induction h with
  | refl => exact refl m
  | tail _ h ih => exact trans ih (act _ _ h)

theorem Act.steady (h : m.Act k m') : m.Steady m' := by
  cases h with
  | evaluates h => exact h.steady
  | shares _ _ hc => exact ⟨rfl, rfl, rfl, rfl, hc, id⟩
  | _ => exact ⟨rfl, rfl, rfl, rfl, .refl _, id⟩

theorem Act.local (hk : ∀ c, k = some c → c.reaches = false) (h : m.Act k m') : m.Local m' := by
  cases h with
  | evaluates h => exact h.local
  | moves h =>
    obtain ⟨cs, hf⟩ := h
    refine .modifyTop ?_ ?_
    · rw [hf]
      rfl
    · rw [hf]
  | aims _ target => exact .modifyTop rfl rfl
  | switches _ h => exact ⟨⟨rfl, rfl, rfl, rfl, .refl _, id⟩, .refl _, fun _ hm => hm.switch h, fun _ _ => .refl⟩
  | loads _ spec => exact ⟨⟨rfl, rfl, rfl, rfl, .refl _, id⟩, .refl _, fun _ hm => hm.load spec _, fun _ _ => .refl⟩
  | shares hc hr _ => exact absurd hr (by rw [hk _ hc]; exact Bool.false_ne_true)
  | _ => exact .of_alike ⟨rfl, rfl, rfl, rfl, rfl, rfl, rfl, rfl, rfl⟩

theorem Does.steady (h : m.Does k m') : m.Steady m' := h.keeps .refl .trans fun _ _ h => h.steady

theorem Does.local (h : m.Does k m') (hk : ∀ c, k = some c → c.reaches = false) : m.Local m' :=
  h.keeps .refl .trans fun _ _ h => h.local hk

end Machine

/-! ## Computations -/

namespace Engine

variable {σ α β : Type} {S : Set Site} {k : Option Clause} {m m' : Machine σ} {c : Engine σ α}

abbrev Enacts (k : Option Clause) (c : Engine σ α) (m : Machine σ) : Prop := Abides (Machine.Does k) c m

abbrev Carries (k : Option Clause) (c : Engine σ α) (m : Machine σ) : Prop := ProceedsBy (Machine.Does k) c m

variable {a : Engine σ α} (name value : Text) {f : α → Engine σ β}

theorem Enacts.bind (ha : Enacts k a m) (hf : ∀ v m', a m = .ok v m' → Enacts k (f v) m') : Enacts k (a >>= f) m :=
  Ensures.bind ⟨.trans, .trans, fun h h' => h'.after fun _ => .trans h⟩ ha hf

theorem Carries.bind (ha : Enacts k a m) (hf : ∀ v m', a m = .ok v m' → Carries k (f v) m') : Carries k (a >>= f) m :=
  Ensures.bind
    ⟨fun h h' => h'.after fun _ => .trans h, fun h h' => h'.after fun _ => .trans h, fun h h' => h'.after fun _ => .trans h⟩
    (ha.imp id .stays id) hf

theorem Enacts.of_act {v : α} (hc : c m = .ok v m') (h : m.Act k m') : Enacts k c m :=
  .of_ok hc (.single h)

theorem Enacts.of_same {v : α} (hc : c m = .ok v m) : Enacts k c m := .of_ok hc .refl

theorem Evaluates.enacts (h : Evaluates S c m) : Enacts k c m :=
  h.imp (fun h => .single (.evaluates h)) (fun h => .single (.evaluates h)) fun h =>
    (h.mono (Set.subset_univ S)).after fun _ h0 => .single (.evaluates h0)

theorem Enacts.pure (v : α) (m : Machine σ) : Enacts k (Pure.pure v) m := .of_same rfl

theorem Enacts.fail (f : Fault) (m : Machine σ) : Enacts k (fail f : Engine σ α) m := .of_raised rfl .refl

theorem Enacts.orFail (r : Except Fault α) (m : Machine σ) : Enacts k (orFail r) m := by
  cases r with
  | ok v => exact .pure v m
  | error f => exact .fail f m

theorem Enacts.moveCursors {f : Frame → Frame} (m : Machine σ)
    (hf : ∃ cs, f m.top = { m.top with cursors := cs }) : Enacts k (modifyTop f) m :=
  .of_act rfl (.moves hf)

theorem Enacts.advance (m : Machine σ) : Enacts k advance m := .moveCursors m ⟨_, rfl⟩

theorem Enacts.modifyVariables {f : Variables → Variables} (hf : ∀ v : Variables, v.Grows (f v)) (m : Machine σ) :
    Enacts k (modifyVariables f) m :=
  (show Evaluates ∅ (Engine.modifyVariables f) m from .of_ok rfl (.setVariables ∅ m (hf _))).enacts

theorem Enacts.setVar (m : Machine σ) : Enacts k (setVar name value) m :=
  .modifyVariables (fun v => .set v name value) m

theorem Enacts.assign (m : Machine σ) : Enacts k (assign name value) m :=
  (assign_evaluates (S := ∅) name value m).enacts

theorem Enacts.eval (site : Site) (x : Expr) (m : Machine σ) : Enacts k (eval site x) m :=
  (eval_evaluates site x m).enacts

end Engine

end Rexx
