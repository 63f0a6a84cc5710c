import Rexx.Machine.State
import Rexx.Operator

/-!
# `Machine.Engine` — what clauses are made of

Clauses are executed in a monad over the state of the machine in which a computation ends with a value, raises a
condition, or is suspended: because a routine has been entered, or because the host has to answer first.
-/

namespace Rexx

/-- Why a clause does not go on. -/
inductive Interrupt where
  | suspended
  | raised (c : Condition)
deriving DecidableEq, Repr

abbrev Engine (σ : Type) := EStateM Interrupt (Machine σ)

namespace Engine

variable {σ : Type}

/-! ## Failing -/

def fail {α : Type} (f : Fault) : Engine σ α := throw (.raised f.condition)

def orFail {α : Type} : Except Fault α → Engine σ α
  | .ok a => pure a
  | .error f => fail f

/-! ## The state -/

def interp : Engine σ (Interpreter σ) := return (← get).interp

def modifyInterp (f : Interpreter σ → Interpreter σ) : Engine σ Unit := modify fun m => m.modifyInterp f

def top : Engine σ Frame := return (← get).interp.stack.top

def modifyTop (f : Frame → Frame) : Engine σ Unit := modifyInterp fun i => i.modifyTop f

def advance : Engine σ Unit := modifyTop Frame.advance

def numeric : Engine σ Number.Settings := return (← get).interp.options.numeric

def formatNumber (x : Float) : Engine σ Text := return (← numeric).format x

/-! ## Variables -/

def modifyVariables (f : Variables → Variables) : Engine σ Unit := modifyInterp fun i => i.setVariables (f i.vars)

def setVar (name value : Text) : Engine σ Unit := modifyVariables fun v => v.set name value

def assign (name value : Text) : Engine σ Unit := do
  match (← interp).vars.assign? name value with
  | some v => modifyInterp fun i => i.setVariables v
  | none => fail (.badName name)

def isConstant (name : Text) : Bool := name.isEmpty || name.head? == some '.'

def fetch (name : Text) : Engine σ Text := do
  let i ← interp
  match i.vars.peek? name with
  | some value => return value
  | none =>
    let derived := i.vars.derivedName name
    if isConstant name then return name
    else if i.stack.traps .novalue then fail (.noValue derived)
    else if i.options.noValueFatal then fail (.uninitialized derived)
    else return derived

/-! ## Output and input -/

def say (s : Text) : Engine σ Unit := modifyInterp fun i => { i with said := i.said.push s }

/-- Writes a line of a report or trace; it ends at the first null character. -/
def report (s : Text) : Engine σ Unit :=
  modifyInterp fun i => { i with diagnostics := i.diagnostics.push (Text.untilNul s) }

/-- The next line of the queue, or else of the input; empty if there is none. -/
def pull : Engine σ Text := do
  let i ← interp
  match i.queue, i.input with
  | s :: queue, _ => modifyInterp fun i => { i with queue }; return s
  | [], s :: input => modifyInterp fun i => { i with input }; return s
  | [], [] => return []

/-! ## Memory of a clause -/

/-- A computation that is made only if nothing is noted for a site yet; `known` is made with what is noted. -/
def orNoted {α : Type} (site : Site) (known : Text → Engine σ α) (c : Engine σ α) : Engine σ α := do
  match (← top).memo.lookup site with
  | some v => known v
  | none => c

/-- The value kept for a site, or else the value of a computation, which is then kept. -/
def remember (site : Site) (compute : Engine σ Text) : Engine σ Text :=
  orNoted site pure do
    let value ← compute
    modifyTop fun f => { f with memo := (site, value) :: f.memo }
    return value

/-! ## Host code -/

def callHost {α : Type} (code : HostCode σ α) : Engine σ (Except HostFault α) := do
  let m ← get
  match code m.hostView with
  | .ok a v => set (m.afterHost v); return .ok a
  | .error e v => set (m.afterHost v); return .error e

end Engine

end Rexx
