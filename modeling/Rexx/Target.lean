import Rexx.Host

/-!
# `Target` — targets and their registry

A target carries out commands, methods or both. A registry binds names to targets; each name has an owner, who alone may
bind it again, and a token that is handed to the target with every call. Registries may be shared by interpreters.
-/

namespace Rexx

/-- What a target is told about a call besides the command. -/
structure CallContext where
  auth : Text
  method : Bool
deriving DecidableEq, Repr

structure Target (σ : Type) where
  id : Nat
  name : Text
  commands : Bool
  methods : Bool
  interpolates : Bool
  methodNames : List Text
  handle : Text → Params → CallContext → HostCode σ Reply

def Target.has {σ : Type} (t : Target σ) (method : Text) : Bool :=
  t.methods && (t.methodNames.isEmpty || t.methodNames.contains method)

structure Binding (σ : Type) where
  target : Target σ
  auth : Text
  owner : Text

abbrev Registry (σ : Type) := Table (Binding σ)

/-! ## Conflicts -/

/-- The kinds of things that are provided under a name. -/
inductive Provision where
  | function | operation | target
deriving DecidableEq, Repr

/-- A name that someone else provides already. -/
structure Conflict where
  kind : Provision
  name : Text
  owner : Text
deriving DecidableEq, Repr

def Conflict.wording (c : Conflict) : Text :=
  let kind : Text := match c.kind with
    | .function => "function "
    | .operation => "operation "
    | .target => "address target "
  kind ++ c.name ++ " already provided by " ++ c.owner

namespace Registry

variable {σ : Type}

def add (r : Registry σ) (t : Target σ) (as auth owner : Text) : Except Conflict (Registry σ) :=
  let name := Text.upper (if as.isEmpty then t.name else as)
  match r[name]? with
  | some b => if b.owner = owner then .ok (r.insert name ⟨t, auth, owner⟩) else .error ⟨.target, name, b.owner⟩
  | none => .ok (r.insert name ⟨t, auth, owner⟩)

def defaultName : Text := "DEFAULT"

def switch (r : Registry σ) (name auth asName : Text) : Except Fault (Registry σ × Option Text) :=
  let k := Text.upper name
  if k.isEmpty || k == defaultName then .ok (r, none)
  else match r[k]? with
    | none => .error (.targetNotFound k)
    | some b =>
      if asName.isEmpty then
        if auth.isEmpty then .ok (r, some k) else .ok (r.insert k { b with auth }, some k)
      else
        let a := Text.upper asName
        if (r[a]?).any fun e => e.target.id != b.target.id then .error (.aliasTaken a)
        else .ok (r.insert a { b with auth }, some a)

end Registry

end Rexx
