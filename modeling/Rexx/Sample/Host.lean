import Rexx.Machine.Provide

/-!
# `Sample.Host` — a host to try scripts with

The functions and operations of this host each show one way of using an interpreter: they answer, count, fail, raise,
ask for an interruption, or read and assign variables.
-/

namespace Rexx.Sample

/-- A call that a target was asked to handle. -/
structure LogEntry where
  registrant : Nat
  target : Text
  method : Bool
  cmd : Text
  params : Params
  auth : Text
  line : Nat
deriving DecidableEq, Repr

structure State where
  counters : Array Nat
  nextTarget : Nat
  log : Array LogEntry

def State.initial : State := ⟨#[], 0, #[]⟩

/-- The log of the targets registered for an interpreter, and the state without it. -/
def State.takeLog (s : State) (registrant : Nat) : List LogEntry × State :=
  (s.log.toList.filter fun e => e.registrant == registrant,
    { s with log := s.log.filter fun e => e.registrant != registrant })

/-! ## Functions and operations -/

/-- What a function or operation does. -/
inductive Behaviour where
  | echo
  | count (counter : Nat)
  | halt
  | failing
  | raising (c : Condition)
  | getVar
  | setVar
  | line

def join (sep : Char) (ss : List Text) : Text := [sep].intercalate ss

/-- Parameters with an equals sign in each and semicolons between them. -/
def showParams (ps : Params) : Text := join ';' (ps.map fun (k, v) => k ++ "=" ++ v)

def countCall (counter : Nat) : HostCode State Text := do
  HostCode.modifyState fun s => { s with counters := s.counters.modify counter (· + 1) }
  return Text.ofNat ((← HostCode.getState).counters.getD counter 0)

/-- The code of a function or operation with the values `args`, which are written as `shown`. -/
def Behaviour.run (b : Behaviour) (args : Args) (shown : Text) : HostCode State Text :=
  match b with
  | .echo => return "[" ++ shown ++ "]"
  | .count counter => countCall counter
  | .halt => do HostCode.halt; return []
  | .failing => HostCode.failWith ("host failed " ++ args.text 0)
  | .raising c => throw (.condition c)
  | .getVar => HostCode.getVar (args.text 0)
  | .setVar => do HostCode.setVar (args.text 0) (args.text 1); return []
  | .line => return Text.ofNat (← HostCode.line)

def Behaviour.function (b : Behaviour) : HostFunction State := fun args => b.run args (join '|' args)

def Behaviour.operation (b : Behaviour) : HostOperation State :=
  fun params => b.run (params.map Prod.snd) (showParams params)

/-! ## The target -/

def replyToMethod (name : Text) (params : Params) (auth : Text) : HostCode State Reply :=
  let first := (params.head?.map Prod.snd).getD []
  if name = "MFAIL" then return .now (.failed "method failed" (Text.leadingWord first))
  else if name = "MTHROW" then HostCode.failWith ("method threw " ++ first)
  else if name = "MWAIT" then return .wait ⟨name, params, 0⟩
  else if name = "MAUTH" then return .now (.done ("auth:" ++ auth))
  else return .now (.done (name ++ "(" ++ showParams params ++ ")"))

def cutAtBlank (s : Text) : Text × Text := (s.takeWhile (· != ' '), (s.dropWhile (· != ' ')).drop 1)

def replyToCommand (target cmd auth : Text) : HostCode State Reply :=
  let (verb, rest) := cutAtBlank cmd
  let (first, second) := cutAtBlank rest
  let done (output : Text) : HostCode State Reply := return .now (.done output)
  if verb = "fail" then
    if rest.isEmpty then return .now (.failed "failed" 1)
    else return .now (.failed second (Text.leadingWord first))
  else if verb = "throw" then HostCode.failWith rest
  else if verb = "cond" then throw (.condition (.of .syntaxError 40 rest true))
  else if verb = "wait" then return .wait ⟨rest, [("cmd", cmd), ("target", target)], 0⟩
  else if verb = "waitms" then
    return .wait ⟨second, [("ms", first)], (Text.leadingWord first % 4294967296).toNat⟩
  else if verb = "auth" then done ("auth:" ++ auth)
  else if verb = "line" then do done (Text.ofNat (← HostCode.line))
  else if verb = "var" then do done (← HostCode.getVar rest)
  else if verb = "let" then do
    HostCode.setVar first second
    done []
  else if verb = "halt" then do
    HostCode.halt
    done "halting"
  else if verb = "soft" then return .now ⟨true, "soft", 5, "ignored"⟩
  else done ("ok:" ++ cmd)

def note (e : LogEntry) : HostCode State Unit := HostCode.modifyState fun s => { s with log := s.log.push e }

/-- The reply of a target with a name; calls are noted in the log of an interpreter, if one is given. -/
def handle (name : Text) (registrant : Option Nat) (cmd : Text) (params : Params) (ctx : CallContext) :
    HostCode State Reply := do
  match registrant with
  | some registrant => note ⟨registrant, name, ctx.method, cmd, params, ctx.auth, ← HostCode.line⟩
  | none => pure ()
  if ctx.method then replyToMethod cmd params ctx.auth else replyToCommand name cmd ctx.auth

/-! ## Registering -/

/-- How a target of this host is registered. -/
structure TargetSpec where
  name : Text
  commands : Bool
  methods : Bool
  interpolates : Bool
  methodNames : List Text
deriving DecidableEq, Repr

/-- The target with an identity, which keeps a log for an interpreter if one is given. -/
def TargetSpec.target (t : TargetSpec) (id : Nat) (registrant : Option Nat) : Target State :=
  ⟨id, t.name, t.commands, t.methods, t.interpolates, t.methodNames, handle t.name registrant⟩

def addTarget (m : Machine State) (t : TargetSpec) (as auth owner : Text) : Except Conflict (Machine State) :=
  let target := t.target m.host.nextTarget (some m.interp.id)
  ({ m with host := { m.host with nextTarget := m.host.nextTarget + 1 } } : Machine State).addTarget target as auth owner

def newCounter (m : Machine State) : Nat × Machine State :=
  (m.host.counters.size, { m with host := { m.host with counters := m.host.counters.push 0 } })

end Rexx.Sample
