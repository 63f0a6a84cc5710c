import Rexx.Machine.Builtin
import Rexx.Machine.Dispatch

/-!
# `Machine.Eval` — values of expressions

An expression is evaluated from left to right. What it reads from variables and what calls return is kept under the
site, so that a clause that is executed again finds the same values and calls nothing twice.
-/

namespace Rexx.Engine

variable {σ : Type}

/-! ## Calls -/

def callFunction (name : Text) (f : HostFunction σ) (a : Args) : Engine σ Text := do
  match ← callHost (f a) with
  | .ok value => return value
  | .error (.condition c) => throw (.raised c)
  | .error (.exception message) => fail (.badCall name (.hostFailure message))

/-- Enters the routine after the label at index `i` of the program, and suspends the clause until it returns. -/
def enterRoutine {α : Type} (site : Site) (i : Nat) (a : Args) (needsValue : Bool) : Engine σ α := do
  if maxDepth ≤ (← interp).stack.depth then fail .stackFull
  else
    modify fun m => m.enter site i a needsValue
    throw .suspended

def callMethod (site : Site) (target name : Text) (a : Args) : Engine σ Text := do
  let params := a.mapIdx fun i value => (Text.ofNat (i + 1), value)
  let r ← dispatch site target name params true
  check r
  return r.output

def targetWith? (method : Text) : Engine σ (Option Text) := return (← get).method? method

def call (site : Site) (name : Text) (a : Args) (needsValue quoted : Bool) : Engine σ Text := do
  match Builtin.ofName? name with
  | some b => callBuiltin b a
  | none =>
    let rx ← interp
    match rx.functions[name]? with
    | some f => callFunction name f.code a
    | none =>
      match if quoted then none else rx.program.labels[name]? with
      | some i => enterRoutine site i a needsValue
      | none =>
        match ← targetWith? name with
        | some target => callMethod site target name a
        | none => fail (.routineNotFound name)

/-! ## Expressions -/

mutual

def eval (site : Site) : Expr → Engine σ Text
  | .literal text quote =>
    if Expr.isMarked text quote then remember site do return (← interp).expand text else return text
  | .symbol name => remember site (fetch name)
  | .call name quoted args => remember site do
    let a ← evalArgs site 0 args
    call site name a true quoted
  | .binary op left right => do
    let a ← eval (0 :: site) left
    let b ← eval (1 :: site) right
    orFail (op.apply (← numeric) a b)
  | .unary op operand => do
    let a ← eval (0 :: site) operand
    orFail (op.apply (← numeric) a)
  | .pipe value name => remember site do
    let v ← eval (0 :: site) value
    call site name [v] true false
  | .pipeCall value name args => remember site do
    let v ← eval (0 :: site) value
    let a ← evalFilled site v 1 args
    call site name (if args.any Expr.isHole then a else v :: a) true false

/-- The values of arguments of which the first is child `i` of a site. -/
def evalArgs (site : Site) (i : Nat) : List Expr → Engine σ (List Text)
  | [] => return []
  | x :: xs => do
    let a ← eval (i :: site) x
    let as ← evalArgs site (i + 1) xs
    return a :: as

/-- The values of arguments of which the first is child `i` of a site, with the value `v` in the holes. -/
def evalFilled (site : Site) (v : Text) (i : Nat) : List Expr → Engine σ (List Text)
  | [] => return []
  | x :: xs => do
    let a ← if x.isHole then pure v else eval (i :: site) x
    let as ← evalFilled site v (i + 1) xs
    return a :: as

end

/-- The value of an expression that may be left out; without it the empty text. -/
def evalOpt (site : Site) : Option Expr → Engine σ Text
  | some x => eval site x
  | none => return []

def evalTruth (site : Site) (x : Expr) : Engine σ Bool := do orFail (truth (← eval site x))

end Rexx.Engine
