import Rexx.Condition
import Rexx.Number.Numeral

/-!
# `Builtin.Arguments` — reading the arguments of a call

The arguments of a call are texts; these readers give them the form that a function needs, or say what is wrong with
them. Arguments count from zero here and from one in messages. An argument that is left out has a default.
-/

namespace Rexx

abbrev Args := List Text

namespace Args

def size (a : Args) : Nat := List.length a

def text (a : Args) (i : Nat) : Text := a.getD i []

def whole (a : Args) (i : Nat) (otherwise : Int) : Except BadCall Int :=
  match a[i]? with
  | none => .ok otherwise
  | some s =>
    match Number.wholeOfText? s with
    | some n => .ok n
    | none => .error (.notWhole (i + 1))

def length (a : Args) (i : Nat) (otherwise : Nat) : Except BadCall Nat := do
  let n ← a.whole i otherwise
  if n < 0 then .error (.negative (i + 1)) else .ok n.toNat

/-- A whole number of at least one; one if it is left out. -/
def positive (a : Args) (i : Nat) : Except BadCall Nat := do
  let n ← a.whole i 1
  if n < 1 then .error (.notPositive (i + 1)) else .ok n.toNat

def number (a : Args) (i : Nat) : Except BadCall Float :=
  match Number.ofText? (a.text i) with
  | some x => .ok x
  | none => .error (.notNumber (i + 1))

def pad (a : Args) (i : Nat) : Except BadCall Char :=
  match a[i]? with
  | none => .ok ' '
  | some [c] => .ok c
  | some _ => .error .badPad

/-- An option, of which the first letter counts, in upper case. -/
def option (a : Args) (i : Nat) (otherwise : Char) (letters : Text) : Except BadCall Char :=
  match a[i]? with
  | none | some [] => .ok otherwise
  | some (c :: _) =>
    let c := c.toUpper
    if letters.contains c || c == '\x00' then .ok c else .error (.badOption letters)

/-- The greatest length of a text that is built by filling up or copying. -/
def maxLength : Nat := 1073741824

def checkLength (n : Nat) : Except BadCall Unit := if n ≤ maxLength then .ok () else .error .tooLong

end Args

end Rexx
