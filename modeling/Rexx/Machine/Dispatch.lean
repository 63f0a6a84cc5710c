import Rexx.Machine.Engine

/-!
# `Machine.Dispatch` — commands and methods

A command or a method goes to the active target. Its outcome is published in the variables `RC`, `RESULT` and `ERRORTEXT`
and kept under the site of the call, so that the target is not called again when the clause is executed again.
-/

namespace Rexx

def Variables.publish (v : Variables) (r : Outcome) : Variables :=
  let v := v.set "RC" (if r.success then "0" else Text.ofInt (if r.status = 0 then 1 else r.status))
  let v := v.set "RESULT" r.output
  if r.success then v.drop "ERRORTEXT" else v.set "ERRORTEXT" r.error

namespace Interpreter

variable {σ : Type}

/-- Keeps an outcome for a site of the frame at a depth, and publishes it there. -/
def complete (i : Interpreter σ) (depth : Nat) (site : Site) (r : Outcome) : Interpreter σ :=
  let r := r.settled
  let pool := (i.stack.frames.getD (i.stack.depth - depth) i.stack.top).pool
  let v := Variables.publish ⟨i.store, pool⟩ r
  { i with
    store := v.store
    stack := i.stack.modifyAt depth fun f => { f with pool := v.pool, replies := (site, r) :: f.replies } }

end Interpreter

def Response.outcome (r : Response) : Outcome where
  success := r.done
  output := r.result
  status := if r.status = 0 then (if r.done then 0 else 1) else r.status
  error := if r.done then [] else r.error

namespace Engine

variable {σ : Type}

/-- What is wrong with sending a command or method to a target, if something is. -/
def refusal? (name : Text) (t : Target σ) (cmd : Text) (method : Bool) : Option Text :=
  if method then if t.has cmd then none else some ("target " ++ name ++ " has no method " ++ cmd)
  else if t.commands then none
  else some ("target " ++ name ++ " accepts no commands")

/-- The reply of a target; a target that fails has a reply that says so. -/
def ask (name : Text) (b : Binding σ) (cmd : Text) (params : Params) (method : Bool) : Engine σ Reply := do
  match refusal? name b.target cmd method with
  | some why => return .now (.failed why 1)
  | none =>
    match ← callHost (b.target.handle cmd params ⟨b.auth, method⟩) with
    | .ok reply => return reply
    | .error fault => return .now (.failed fault.text 1)

/-- Posts a request and suspends the clause until it is answered. -/
def await {α : Type} (site : Site) (c : Checkpoint) : Engine σ α := do
  modify fun m => (m.hold? site c).getD m
  throw .suspended

def receive (site : Site) : Reply → Engine σ Outcome
  | .wait c => await site c
  | .now r => do
    modifyInterp fun i => i.complete i.stack.depth site r
    return r.settled

/-- Sends a command or method to the target with the given name. -/
def dispatch (site : Site) (name : Text) (cmd : Text) (params : Params) (method : Bool) : Engine σ Outcome := do
  match (← top).replies.lookup site with
  | some r => return r
  | none =>
    match (← get).targets[name]? with
    | none => fail (.targetNotFound name)
    | some b => receive site (← ask name b cmd params method)

def failureEvent (r : Outcome) : Event := if r.status < 0 then .failure else .error

/-- The condition that a failure raises if there is a trap for its event. -/
def failureOf (r : Outcome) : Condition := .of (failureEvent r) (if r.status = 0 then 1 else r.status) r.error true

def check (r : Outcome) : Engine σ Unit := do
  if !r.success && (← interp).stack.traps (failureEvent r) then throw (.raised (failureOf r))

/-- Carries out a command under the default target: it is said. -/
def sayCommand (cmd : Text) : Engine σ Unit := do
  advance
  say cmd
  modifyVariables fun v => v.publish (.done [])

end Engine

end Rexx
