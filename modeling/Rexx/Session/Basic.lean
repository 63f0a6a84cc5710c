import Rexx.Machine.Provide

/-!
# `Session.Basic` — several interpreters under one host

A session holds interpreters by name. Each has a channel and a registry of targets of its own, or uses one that has a
name and may be used by others too. All share the state of the host and what lies around them.
-/

namespace Rexx

/-- The ways in which a step of the host fails. -/
inductive SessionFault where
  | noInterpreter
  | notPending (id : UInt32)
  | unreadable (e : SyntaxError)
  | condition (c : Condition)
  | refused (f : ModuleFault)
deriving DecidableEq, Repr

def SessionFault.message : SessionFault → Text
  | .noInterpreter => "no interpreter"
  | .notPending id => "no checkpoint #" ++ Text.ofNat id.toNat ++ " pending"
  | .unreadable e => e.message
  | .condition c => c.text
  | .refused f => f.message

structure Member (σ : Type) where
  interp : Interpreter σ
  ownChannel : Channel
  ownTargets : Registry σ
  channel : Option Text
  registry : Option Text

structure Session (σ : Type) where
  members : Table (Member σ)
  channels : Table Channel
  registries : Table (Registry σ)
  nextId : Nat
  patience : Nat
  around : Surroundings σ
  host : σ

namespace Session

variable {σ : Type}

def empty (patience : Nat) (around : Surroundings σ) (host : σ) : Session σ :=
  ⟨∅, ∅, ∅, 0, patience, around, host⟩

def channelNamed (s : Session σ) (name : Text) : Channel := s.channels.getD name .empty

def registryNamed (s : Session σ) (name : Text) : Registry σ := s.registries.getD name ∅

def channelOf (s : Session σ) (mb : Member σ) : Channel :=
  match mb.channel with
  | some name => s.channelNamed name
  | none => mb.ownChannel

def targetsOf (s : Session σ) (mb : Member σ) : Registry σ :=
  match mb.registry with
  | some name => s.registryNamed name
  | none => mb.ownTargets

def machine (s : Session σ) (mb : Member σ) : Machine σ :=
  ⟨mb.interp, s.targetsOf mb, s.channelOf mb, s.around, s.host⟩

def setChannelOf (s : Session σ) (name : Text) (mb : Member σ) (ch : Channel) : Session σ :=
  match mb.channel with
  | some c => { s with channels := s.channels.insert c ch }
  | none => { s with members := s.members.insert name { mb with ownChannel := ch } }

def putBack (s : Session σ) (name : Text) (mb : Member σ) (m : Machine σ) : Session σ :=
  { s with
    members := s.members.insert name
      { mb with
        interp := m.interp
        ownChannel := if mb.channel.isNone then m.channel else mb.ownChannel
        ownTargets := if mb.registry.isNone then m.targets else mb.ownTargets }
    channels := match mb.channel with
      | some c => s.channels.insert c m.channel
      | none => s.channels
    registries := match mb.registry with
      | some r => s.registries.insert r m.targets
      | none => s.registries
    around := m.around
    host := m.host }

def nameOf? (s : Session σ) (id : Nat) : Option Text :=
  (s.members.toList.find? fun (_, mb) => mb.interp.id == id).map Prod.fst

end Session

end Rexx
