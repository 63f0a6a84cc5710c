import Rexx.Builtin.Arguments
import Rexx.Target

/-!
# `Module.Declaration` — what modules provide

A module declares functions and operations, or one target. Its image is what a specifier leads to: an identity, and the
entry that makes the declaration. Faults of loading have one wording each.
-/

namespace Rexx

abbrev HostFunction (σ : Type) := Args → HostCode σ Text

abbrev HostOperation (σ : Type) := Params → HostCode σ Text

/-- Something provided under a name: the code, who provides it, and a description. -/
structure Entry (α : Type) where
  code : α
  owner : Text
  desc : Text
  params : List Text

structure Declared (α : Type) where
  name : Text
  code : α
  desc : Text
  params : List Text

structure Declaration (σ : Type) where
  id : Text
  desc : Text
  functions : List (Declared (HostFunction σ))
  operations : List (Declared (HostOperation σ))
  target : Option (Target σ)

/-- The ways in which an entry fails. -/
inductive DetectFault where
  | refused (message : Text)
  | exception (message : Text)
deriving DecidableEq, Repr

/-- Computations of an entry, which may use the state of the host. -/
abbrev Detecting (σ : Type) := EStateM DetectFault σ

abbrev Detect (σ : Type) := Detecting σ (Declaration σ)

structure Image (σ : Type) where
  id : Text
  detect : Option (Detect σ)

/-- What is remembered of a module that has been loaded. -/
structure Registration where
  id : Text
  spec : Text
  desc : Text
  functions : List Text
  operations : List Text
  target : Option Text
deriving DecidableEq, Repr

/-! ## Faults -/

/-- The ways in which a module is not loaded. -/
inductive ModuleFault where
  | notFound (path : Text)
  | notLoadable (path : Text)
  | fileWithoutEntry (path : Text)
  | unresolved (spec : Text)
  | withoutEntry (spec : Text)
  | detectionFailed (spec message : Text)
  | refused (message : Text)
  | mixed (id : Text)
  | nothing (id : Text)
  | conflict (c : Conflict)
deriving DecidableEq, Repr

def entryName : Text := "cerexx_detect"

def ModuleFault.wording : ModuleFault → Text
  | .notFound path => "module not found: " ++ path
  | .notLoadable path => "cannot load " ++ path ++ ": not a module"
  | .fileWithoutEntry path => path ++ ": no detection entry " ++ entryName
  | .unresolved spec => "cannot resolve module '" ++ spec ++ "'"
  | .withoutEntry spec => "module '" ++ spec ++ "' has no " ++ entryName ++ " entry"
  | .detectionFailed spec message => "module '" ++ spec ++ "' detection failed: " ++ Text.untilNul message
  | .refused message => message
  | .mixed id => "module " ++ id ++ " mixes an address target with functions"
  | .nothing id => "module " ++ id ++ " provides nothing"
  | .conflict c => c.wording

def ModuleFault.message (f : ModuleFault) : Text := Text.untilNul f.wording

end Rexx
