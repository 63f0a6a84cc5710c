import Rexx.Session.Basic

/-!
# `Session.Steps` — what the host does

Steps on an interpreter are given its name. Steps on a channel are given the name of a channel, or that of an interpreter
that uses it.
-/

namespace Rexx

abbrev Hosting (σ : Type) := EStateM SessionFault (Session σ)

abbrev Operating (σ : Type) := EStateM SessionFault (Machine σ)

/-- The channel that a step is about. -/
inductive ChannelRef where
  | named (name : Text)
  | usedBy (interpreter : Text)
deriving DecidableEq, Repr

namespace Hosting

variable {σ : Type}

/-! ## Interpreters -/

def operate {α : Type} (name : Text) (act : Operating σ α) : Hosting σ α := do
  let s ← get
  match s.members[name]? with
  | none => throw .noInterpreter
  | some mb =>
    match act (s.machine mb) with
    | .ok a m => set (s.putBack name mb m); return a
    | .error e m => set (s.putBack name mb m); throw e

def interpreter (name : Text) : Hosting σ (Interpreter σ) := do
  match (← get).members[name]? with
  | none => throw .noInterpreter
  | some mb => return mb.interp

/-- Removes an interpreter, and takes its requests off its channel. -/
def remove (name : Text) : Hosting σ Unit := do
  let s ← get
  match s.members[name]? with
  | none => throw .noInterpreter
  | some mb =>
    let s := s.setChannelOf name mb ((s.channelOf mb).forget mb.interp.id)
    set { s with members := s.members.erase name }

/-- Makes a new interpreter, in place of the one with its name if there is one. -/
def create (name : Text) (channel registry : Option Text) : Hosting σ Unit := do
  if (← get).members.contains name then remove name
  modify fun s =>
    { s with
      members := s.members.insert name ⟨.fresh s.nextId, .empty, ∅, channel, registry⟩
      nextId := s.nextId + 1 }

def run (name : Text) : Hosting σ Status := do
  let patience := (← get).patience
  operate name do
    modify fun m => m.run patience
    return (← get).interp.status

def load (name source title : Text) (args : Args) : Hosting σ Unit :=
  operate name do
    match (← get).start source title args with
    | .ok m => set m
    | .error e => throw (.unreadable e)

/-- Lets an interpreter begin a program without arguments, and runs it. -/
def start (name source title : Text) : Hosting σ Status := do
  load name source title []
  run name

/-- Gives an interpreter the answer to the request that it waits for, and runs it. -/
def resume (name : Text) (r : Response) : Hosting σ Status := do
  operate name do
    match (← get).answer? r with
    | some m => set m
    | none => throw (.notPending r.id)
  run name

/-- Asks for the script of an interpreter to be interrupted. -/
def halt (name : Text) : Hosting σ Unit := operate name (modify fun m => m.modifyInterp Interpreter.halt)

def setVar (name var value : Text) : Hosting σ Unit :=
  operate name do
    match (← get).interp.set var value with
    | .ok i => modify fun m => m.modifyInterp fun _ => i
    | .error f => throw (.condition f.condition)

def require (name spec as : Text) : Hosting σ Registration :=
  operate name do
    let (r, m) := (← get).load spec as
    set m
    match r with
    | .ok reg => return reg
    | .error f => throw (.refused f)

/-! ## Channels -/

def channel : ChannelRef → Hosting σ Channel
  | .named name => return (← get).channelNamed name
  | .usedBy name => do
    let s ← get
    match s.members[name]? with
    | none => throw .noInterpreter
    | some mb => return s.channelOf mb

def setChannel (ref : ChannelRef) (ch : Channel) : Hosting σ Unit :=
  modify fun s => match ref with
    | .named name => { s with channels := s.channels.insert name ch }
    | .usedBy name => match s.members[name]? with
      | none => s
      | some mb => s.setChannelOf name mb ch

def take (ref : ChannelRef) : Hosting σ (Option Request) := do
  let (r, ch) := (← channel ref).take
  setChannel ref ch
  return r

def withdraw (ref : ChannelRef) (id : UInt32) : Hosting σ Bool := do
  let (done, ch) := (← channel ref).withdraw id
  setChannel ref ch
  return done

/-- Delivers an answer to the interpreter that waits for it, and runs that; false if the request is not outstanding. -/
def deliver (ref : ChannelRef) (r : Response) : Hosting σ Bool := do
  let ch ← channel ref
  match ch.owner? r.id with
  | none => return false
  | some owner =>
    setChannel ref (ch.withdraw r.id).2
    match (← get).nameOf? owner with
    | none => return false
    | some name =>
      let _ ← resume name r
      return true

def cancel (ref : ChannelRef) (id : UInt32) (why : Text) : Hosting σ Bool := deliver ref (.cancelled id why)

/-- Cancels those of the given requests that are outstanding, and counts them. -/
def cancelAll (ref : ChannelRef) (why : Text) : List UInt32 → Hosting σ Nat
  | [] => return 0
  | id :: ids => do
    let done ← cancel ref id why
    let n ← cancelAll ref why ids
    return if done then n + 1 else n

/-- Cancels the requests that are overdue at a time, and counts them. -/
def expire (ref : ChannelRef) (now : Nat) : Hosting σ Nat := do cancelAll ref "timeout" ((← channel ref).overdue now)

end Hosting

/-! ## Snapshots -/

structure Snapshot where
  status : Status
  exitCode : Int
  result : Text
  error : Text
  said : Text
  diagnostics : Text
  fragments : Nat
deriving DecidableEq, Repr

def joinLines (lines : Array Text) : Text := lines.toList.flatMap fun s => s ++ ['\n']

/-- A snapshot of an interpreter, and the interpreter with its output taken. -/
def Interpreter.snapshot {σ : Type} (i : Interpreter σ) : Snapshot × Interpreter σ :=
  (⟨i.status, i.exitCode, i.result, i.error, joinLines i.said, joinLines i.diagnostics, i.fragments.length⟩,
    { i with said := #[], diagnostics := #[] })

def Session.snapshots {σ : Type} (s : Session σ) : List (Text × Snapshot) × Session σ :=
  (s.members.toList.map fun (name, mb) => (name, mb.interp.snapshot.1),
    { s with members := s.members.map fun _ mb => { mb with interp := mb.interp.snapshot.2 } })

end Rexx
