import Rexx.Channel
import Rexx.Number.Settings
import Rexx.Variable.Name

/-!
# `Host` — code of the host

Functions, operations and handlers of targets are code of the host that a script calls.
-/

namespace Rexx

structure HostView (σ : Type) where
  state : σ
  main : Variables
  halted : Bool
  line : Nat
  numeric : Number.Settings

/-- The ways in which host code fails. -/
inductive HostFault where
  | exception (message : Text)
  | condition (c : Condition)
deriving DecidableEq, Repr

/-- The text of a failure. A message ends at the first null character. -/
def HostFault.text : HostFault → Text
  | .exception message => Text.untilNul message
  | .condition c => c.text

/-- Computations of the host. What was changed before a failure stays changed. -/
abbrev HostCode (σ : Type) := EStateM HostFault (HostView σ)

namespace HostCode

variable {σ : Type}

def failWith {α : Type} (message : Text) : HostCode σ α := throw (.exception message)

/-- The value of a variable of the main program; empty if it has none. -/
def getVar (name : Text) : HostCode σ Text := return ((← get).main.peek? (Text.upper name)).getD []

def hasVar (name : Text) : HostCode σ Bool := return ((← get).main.peek? (Text.upper name)).isSome

def setVar (name value : Text) : HostCode σ Unit := do
  let name := Text.upper name
  match (← get).main.assign? name value with
  | some main => modify fun v => { v with main }
  | none => throw (.condition (Fault.badName name).condition)

def halt : HostCode σ Unit := modify fun v => { v with halted := true }

def line : HostCode σ Nat := return (← get).line

def modifyState (f : σ → σ) : HostCode σ Unit := modify fun v => { v with state := f v.state }

def getState : HostCode σ σ := return (← get).state

end HostCode

/-! ## Answers of targets -/

structure Outcome where
  success : Bool
  output : Text
  status : Int
  error : Text
deriving DecidableEq, Repr

namespace Outcome

def done (output : Text) : Outcome := ⟨true, output, 0, []⟩

def failed (error : Text) (status : Int) : Outcome := ⟨false, [], status, error⟩

/-- The status that is reported: a failure has a status other than zero. -/
def settled (r : Outcome) : Outcome := if !r.success && r.status == 0 then { r with status := 1 } else r

end Outcome

/-- The answer of a target: an outcome, or a checkpoint to wait for. -/
inductive Reply where
  | now (outcome : Outcome)
  | wait (checkpoint : Checkpoint)
deriving DecidableEq, Repr

end Rexx
