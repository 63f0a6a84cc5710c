import Rexx.Proofs.Clause.Steps
import Rexx.Proofs.Replay.Passes

/-!
# `Clause.Suspension` — what a statement has done when it is suspended

Statements evaluate first and act afterwards, so that they can be made again.
-/

namespace Rexx

open Machine

/-- Assignments, SAY, PUSH, QUEUE, RETURN, IF, SELECT, CALL, commands, ADDRESS with a command, and clauses that are a name
with or without arguments or parameters. -/
inductive Stmt.Repeatable : Stmt → Prop where
  | assign (pos : Position) (name : Text) (x : Expr) : Repeatable (.clause pos (.assign name x))
  | say (pos : Position) (x : Option Expr) : Repeatable (.clause pos (.say x))
  | push (pos : Position) (x : Option Expr) : Repeatable (.clause pos (.push x))
  | queue (pos : Position) (x : Option Expr) : Repeatable (.clause pos (.queue x))
  | ret (pos : Position) (x : Option Expr) : Repeatable (.clause pos (.ret x))
  | ifThen (pos : Position) (cond : Expr) (thens elses : List Stmt) : Repeatable (.ifThen pos cond thens elses)
  | select (pos : Position) (whens : List (Expr × List Stmt)) (otherwise : Option (List Stmt)) :
      Repeatable (.select pos whens otherwise)
  | call (pos : Position) (name : Text) (args : List Expr) : Repeatable (.clause pos (.call name args))
  | command (pos : Position) (x : Expr) : Repeatable (.clause pos (.command x))
  | address (pos : Position) (name : Option Text) (auth : Option Expr) (asName : Option Text) (cmd : Expr) :
      Repeatable (.clause pos (.address name auth asName (some cmd)))
  | routine (pos : Position) (name : Text) (args : List Expr) : Repeatable (.clause pos (.routine name args))
  | operation (pos : Position) (name : Text) (params : List (Text × Expr)) :
      Repeatable (.clause pos (.operation name params))

/-! ## What may have been done -/

theorem Frame.Extends.setTarget {S : Set Site} {f f' : Frame} (h : f.Extends S f') (target : Option Text) :
    ({ f with target } : Frame).Extends S { f' with target } where
  same := by rw [h.same]
  memo := h.memo
  memo_new := h.memo_new
  replies := h.replies
  replies_new := h.replies_new

namespace Machine

variable {σ : Type} {S : Set Site} {m m' m'' : Machine σ}

/-- **What a statement may have done** before it is suspended: it has evaluated, and may have switched the target. -/
structure Prepares (m m' : Machine σ) : Prop where
  interp : m'.interp = { m.interp with
    options := { m.interp.options with markers := m'.interp.options.markers }
    store := m'.interp.store
    stack := m'.stack
    halted := m'.interp.halted }
  top : ({ m.top with target := m'.top.target } : Frame).Extends Set.univ m'.top
  callers : CallersKept m.stack.callers m'.stack.callers
  halted : m.interp.halted = true → m'.interp.halted = true
  channel : m'.channel = m.channel

theorem Evolves.prepares (h : m.Evolves S m') : m.Prepares m' where
  interp := h.interp
  top := by
    rw [h.target]
    exact h.top.mono (Set.subset_univ S)
  callers := h.callers
  halted := h.halted
  channel := h.channel

def retarget (m : Machine σ) (targets : Registry σ) (target : Option Text) : Machine σ :=
  { m with targets, interp := m.interp.modifyTop fun f => { f with target } }

theorem Prepares.trans (h : m.Prepares m') (h' : m'.Prepares m'') : m.Prepares m'' where
  interp := by rw [h'.interp, h.interp]
  top := (h.top.setTarget m''.top.target).trans h'.top
  callers := h.callers.trans h'.callers
  halted hm := h'.halted (h.halted hm)
  channel := h'.channel.trans h.channel

theorem Prepares.recalls (h : m.Prepares m') : m.Recalls m' :=
  ⟨h.top.memo, h.top.replies, by rw [h.interp]⟩

theorem Prepares.status (h : m.Prepares m') : m'.interp.status = m.interp.status := by
  rw [h.interp]

theorem Prepares.steady (h : m.Prepares m') : m.Steady m' where
  id := by rw [h.interp]
  program := by rw [h.interp]
  status := by rw [h.interp]
  channel := h.channel
  callers := h.callers
  halted := h.halted

end Machine

namespace Engine

variable {σ α β : Type} {S : Set Site} {m m' : Machine σ}

def Readies (c : Engine σ α) (m : Machine σ) : Prop :=
  Ensures (fun _ _ => True) (fun _ _ => True) (Machine.Suspends Machine.Prepares Set.univ) c m

theorem Defers.readies {c : Engine σ α} (h : Defers c m) : Readies c m :=
  h.imp (fun _ => trivial) (fun _ => trivial) fun h => h.after fun _ h => h.prepares

/-! ## Parts that are never suspended -/

theorem enterBlock_immediate (block : List Stmt) : Immediate (enterBlock block : Engine σ Unit) :=
  .ite (.pure _) (.modifyTop _)

theorem immediate_elementary : Elementary fun _ (c : Engine σ _) => Immediate c where
  toSequential := immediate_computing.toSequential
  interp := .interp
  modifyInterp f _ := .modifyInterp f

theorem sayCommand_immediate (cmd : Text) : Immediate (sayCommand cmd : Engine σ Unit) :=
  .bind (.modifyTop _) fun _ => .bind (.modifyInterp _) fun _ => .modifyVariables _

variable {f : α → Engine σ β} {a : Engine σ α} (name : Text) (params : List (Text × Expr))
  (args : List Expr)

theorem execHostOperation_immediate (op : HostOperation σ) (params : Params) :
    Immediate (execHostOperation name op params) := by
  refine .bind (callHost_immediate (op params)) fun r => ?_
  cases r with
  | ok value => exact .bind (.modifyTop _) fun _ => .modifyVariables _
  | error fault =>
    cases fault with
    | condition c => exact .raise c
    | exception message => exact .fail _

/-! ## Statements -/

theorem Defers.then (ha : Evaluates S a m) (hf : ∀ v, Immediate (f v)) : Defers (a >>= f) m :=
  .bind ha fun v _ _ => .of_immediate (hf v)

theorem carryOut_defers (target : Option Text) (cmd : Text) (m : Machine σ) : Defers (carryOut target cmd) m := by
  cases target with
  | none => exact .of_immediate (sayCommand_immediate cmd)
  | some name =>
    exact .then (dispatch_evaluates (Set.mem_univ []) name cmd [] false m) fun r =>
      .bind (.modifyTop _) fun _ => check_immediate r

theorem execCommand_defers (i : Nat) (x : Expr) (m : Machine σ) : Defers (execCommand [i] x) m :=
  Ensures.congr (Defers.bind (evaluates_evaluative.commandText i _ x m) fun cmd m1 _ => carryOut_defers _ cmd m1)
    (execCommand_apply [i] x m)

theorem execCall_defers (m : Machine σ)
    (hn : m.top.memo.lookup [] = none) : Defers (execCall name args) m := by
  rw [execCall_eq]
  exact .then (callArgs_evaluates name args m hn) fun v => .bind (.modifyVariables _) fun _ => .modifyTop _

theorem execRoutine_defers (m : Machine σ) : Defers (execRoutine name args) m := by
  refine .orNoted (fun _ => .modifyTop _) fun hn => ?_
  refine .bind (S := Set.univ) (.of_same (interp_apply m)) fun i m1 h1 => ?_
  cases h1
  dsimp only
  split
  · exact .of_immediate (execHostOperation_immediate name _ [])
  · exact execCall_defers name args m hn

theorem operate_defers (params : Params) (m : Machine σ) : Defers (operate name params) m := by
  refine .bind (S := Set.univ) (.of_same (interp_apply m)) fun i m1 _ => ?_
  split
  · exact .of_immediate (execHostOperation_immediate name _ params)
  · refine .bind (S := Set.univ) (.of_same (targetWith?_apply name m1)) fun t m2 _ => ?_
    split
    · exact .of_immediate (.fail _)
    · exact .then (dispatch_evaluates (Set.mem_univ []) _ name params true m2) fun r =>
        .bind (.modifyTop _) fun _ => check_immediate r

theorem execOperation_defers (m : Machine σ) : Defers (execOperation name params) m := by
  refine .orNoted (fun _ => .modifyTop _) fun _ => ?_
  exact .bind (evalArgs_evaluates [] 0 _ m) fun values m1 _ => operate_defers name _ m1

theorem execWhens_defers (otherwise : Option (List Stmt)) (i : Nat) (whens : List (Expr × List Stmt)) (m : Machine σ) :
    Defers (execWhens otherwise i whens) m := by
  have hblock : ∀ block, Immediate (do advance; enterBlock block : Engine σ Unit) := fun block =>
    .bind (.modifyTop _) fun _ => enterBlock_immediate block
  induction whens generalizing i m with
  | nil =>
    cases otherwise with
    | none => exact .of_immediate (.fail _)
    | some block => exact .of_immediate (hblock block)
  | cons p whens ih =>
    obtain ⟨cond, block⟩ := p
    refine .bind (evaluates_evaluative.evalTruth i cond m) fun b m1 _ => ?_
    cases b with
    | true => exact .of_immediate (hblock block)
    | false => exact ih (i + 1) m1

/-! ### ADDRESS -/

theorem execAddress_eq {name : Text} (hname : name.isEmpty = false) (auth : Option Expr) (asName : Text) (x : Expr) :
    (execAddress name auth asName (some x) : Engine σ Unit) =
      evalOpt [0] auth >>= fun token => switchTo name asName token >>= fun _ => execCommand [auth.toList.length] x := by
  rw [execAddress, hname]
  rfl

theorem switchTo_apply (name asName auth : Text) (m : Machine σ) :
    switchTo name asName auth m = match m.targets.switch name auth asName with
      | .ok (targets, target) => .ok () (m.retarget targets target)
      | .error f => .error (.raised f.condition) m := by
  rw [switchTo, bind_of_ok (get_apply m)]
  cases m.targets.switch name auth asName <;> rfl

theorem switchTo_immediate (name asName auth : Text) : Immediate (switchTo name asName auth : Engine σ Unit) := by
  intro m m1 h
  rw [switchTo_apply] at h
  cases hs : m.targets.switch name auth asName <;> rw [hs] at h <;> cases h

theorem loadModule_immediate (as spec : Text) : Immediate (loadModule as spec : Engine σ Unit) := by
  refine .bind .get fun m0 => .bind (.of_ok fun _ => ⟨_, _, rfl⟩) fun _ => ?_
  split
  · exact .pure _
  · exact .fail _

theorem Readies.bind (ha : Ensures Prepares (fun _ _ => True) (Suspends Prepares Set.univ) a m)
    (hrest : ∀ v m', a m = .ok v m' → Readies (f v) m') : Readies (a >>= f) m :=
  Ensures.bind ⟨fun _ _ => trivial, fun _ _ => trivial, fun h h' => h'.after fun _ => h.trans⟩ ha hrest

theorem switchTo_readies (name asName auth : Text) (i : Nat) (x : Expr) (m : Machine σ) :
    Readies (switchTo name asName auth >>= fun _ => execCommand [i] x) m := by
  refine .bind ?_ fun _ m1 _ => (execCommand_defers i x m1).readies
  have happly := switchTo_apply name asName auth m
  cases hsw : m.targets.switch name auth asName with
  | error f =>
    rw [hsw] at happly
    exact .of_raised happly trivial
  | ok p =>
    rw [hsw] at happly
    exact .of_ok happly ⟨rfl, .refl _ _, .refl _, fun h => h, rfl⟩

theorem execAddress_readies (auth : Option Expr) (asName : Text) (x : Expr) (m : Machine σ) :
    Readies (execAddress name auth asName (some x)) m := by
  unfold execAddress
  split
  · exact (Defers.of_immediate (.bind (.modifyTop _) fun _ => .modifyTop _)).readies
  · refine .bind ?_ fun token m1 _ => switchTo_readies name asName token _ x m1
    exact (evaluates_evaluative.evalOpt 0 auth m).imp (fun h => h.prepares) (fun _ => trivial)
      fun h => h.after fun _ h => h.prepares

theorem exec_prepares {s : Stmt} (hs : s.Repeatable) (m : Machine σ) : Readies (exec s) m := by
  -- An operand, and then something that is never suspended.
  have hopt : ∀ {x : Option Expr} {f : Text → Engine σ Unit}, (∀ v, Immediate (f v)) →
      Readies (evalOpt [0] x >>= fun v => advance >>= fun _ => f v) m := fun hf =>
    (Defers.then (evaluates_evaluative.evalOpt 0 _ m) fun v => .bind (.modifyTop _) fun _ => hf v).readies
  cases hs with
  | assign pos name x => exact hopt (x := some x) (assign_immediate name)
  | say pos x => exact hopt fun _ => .modifyInterp _
  | push pos x => exact hopt fun _ => .modifyInterp _
  | queue pos x => exact hopt fun _ => .modifyInterp _
  | ret pos x =>
    exact (Defers.then (evaluates_evaluative.evalIfAny (evaluates_evaluative.eval 0) x m) immediate_elementary.returnWith).readies
  | ifThen pos cond thens elses =>
    exact (Defers.then (evaluates_evaluative.evalTruth 0 cond m) fun b =>
      .bind (.modifyTop _) fun _ => enterBlock_immediate _).readies
  | select pos whens otherwise => exact (execWhens_defers otherwise 0 whens m).readies
  | call pos name args =>
    exact (Defers.orNoted (fun _ => .modifyTop _) fun hn => execCall_defers name args m hn).readies
  | command pos x => exact (execCommand_defers 0 x m).readies
  | address pos name auth asName cmd => exact execAddress_readies _ auth _ cmd m
  | routine pos name args => exact (execRoutine_defers name args m).readies
  | operation pos name params => exact (execOperation_defers name params m).readies

end Engine

end Rexx
