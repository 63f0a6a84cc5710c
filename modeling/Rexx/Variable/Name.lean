import Rexx.Variable.Store

/-!
# `Variable.Name` — what a name denotes

A name without a point is a simple variable. A name whose first point comes last is a stem. Otherwise it is compound:
the part up to the first point is its stem, and the parts after it, between points, make up its tail.
-/

namespace Rexx

inductive VarName where
  | constant
  | simple (name : Text)
  | stem (stem : Text)
  | compound (stem : Text) (parts : List Text)
deriving DecidableEq, Repr

def VarName.ofText (n : Text) : VarName :=
  let head := n.takeWhile (· != '.')
  match n.dropWhile (· != '.') with
  | [] => .simple n
  | _ :: rest =>
    if head.isEmpty then .constant
    else if rest.isEmpty then .stem (head ++ ['.'])
    else .compound (head ++ ['.']) (Text.splitAt '.' rest)

namespace Variables

/-- The value that a part of a tail stands for: that of the variable of this name, if it has one and does not begin with a
digit, and otherwise the part itself. -/
def tailPart (v : Variables) (part : Text) : Text :=
  match part with
  | [] => []
  | c :: _ => if c.isDigit then part else (v.get? part).getD part

def derivedTail (v : Variables) (parts : List Text) : Text := ['.'].intercalate (parts.map v.tailPart)

def peek? (v : Variables) (n : Text) : Option Text :=
  match VarName.ofText n with
  | .constant => none
  | .simple name => v.get? name
  | .stem stem => v.getStem? stem
  | .compound stem parts => v.getTail? stem (v.derivedTail parts)

def derivedName (v : Variables) (n : Text) : Text :=
  match VarName.ofText n with
  | .compound stem parts => stem ++ v.derivedTail parts
  | _ => n

/-- Gives the variable that a name denotes a value; none if the name is a constant. -/
def assign? (v : Variables) (n value : Text) : Option Variables :=
  match VarName.ofText n with
  | .constant => none
  | .simple name => some (v.set name value)
  | .stem stem => some (v.setStem stem value)
  | .compound stem parts => some (v.setTail stem (v.derivedTail parts) value)

def dropName (v : Variables) (n : Text) : Variables :=
  match VarName.ofText n with
  | .constant => v
  | .simple name => v.drop name
  | .stem stem => v.dropStem stem
  | .compound stem parts => v.dropTail stem (v.derivedTail parts)

end Variables

end Rexx
