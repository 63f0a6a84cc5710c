import Rexx.Machine.Run

/-!
# `Machine.Provide` — what the host gives to an interpreter

The host registers functions, operations and targets under names, each for an owner, and reads and assigns variables of
the main program. A name that has another owner is refused.
-/

namespace Rexx

def provide {α : Type} (kind : Provision) (table : Table (Entry α)) (name : Text) (code : α) (owner : Text) :
    Except Conflict (Table (Entry α)) :=
  let name := Text.upper name
  match Loader.conflict? kind table owner [name] with
  | some c => .error c
  | none => .ok (table.insert name ⟨code, owner, [], []⟩)

namespace Interpreter

variable {σ : Type}

def addFunction (i : Interpreter σ) (name : Text) (f : HostFunction σ) (owner : Text) :
    Except Conflict (Interpreter σ) :=
  (provide .function i.functions name f owner).map fun functions => { i with functions }

def addOperation (i : Interpreter σ) (name : Text) (op : HostOperation σ) (owner : Text) :
    Except Conflict (Interpreter σ) :=
  (provide .operation i.operations name op owner).map fun operations => { i with operations }

def enroll (i : Interpreter σ) (name : Text) (detect : Option (Detect σ)) : Interpreter σ :=
  { i with loader := { i.loader with shelf := i.loader.shelf.insert name detect } }

def addResolver (i : Interpreter σ) (resolver : Text → Option (Image σ)) : Interpreter σ :=
  { i with loader := { i.loader with resolvers := i.loader.resolvers ++ [resolver] } }

def get? (i : Interpreter σ) (name : Text) : Option Text := i.mainVariables.peek? (Text.upper name)

def set (i : Interpreter σ) (name value : Text) : Except Fault (Interpreter σ) :=
  match i.mainVariables.assign? (Text.upper name) value with
  | some v => .ok (i.setMainVariables v)
  | none => .error (.badName (Text.upper name))

/-- Asks for the script to be interrupted before its next clause. -/
def halt (i : Interpreter σ) : Interpreter σ := { i with halted := true }

end Interpreter

def Machine.addTarget {σ : Type} (m : Machine σ) (t : Target σ) (as auth owner : Text) :
    Except Conflict (Machine σ) :=
  (m.targets.add t as auth owner).map fun targets => { m with targets }

end Rexx
