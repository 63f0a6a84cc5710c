import Rexx.Text.Basic

/-!
# `Text.Edit` — cutting, filling up and changing texts

Columns count from one. What goes beyond the end of a text is filled up with a pad character where the operation has
one, and left out where it has none.
-/

namespace Rexx.Text

def center (n : Nat) (pad : Char) (s : Text) : Text :=
  if n ≤ s.length then (s.drop ((s.length - n) / 2)).take n
  else
    let left := (n - s.length) / 2
    List.replicate left pad ++ s ++ List.replicate (n - s.length - left) pad

def right (n : Nat) (pad : Char) (s : Text) : Text :=
  if n ≤ s.length then s.drop (s.length - n) else List.replicate (n - s.length) pad ++ s

def fromColumn (n : Nat) (s : Text) : Text := s.drop (n - 1)

/-- The text without `count` characters from column `n` on; without a count all that follow are taken out. -/
def deleteAt (s : Text) (n : Nat) (count : Option Nat) : Text :=
  s.take (n - 1) ++ (match count with
    | some k => s.drop (n - 1 + k)
    | none => [])

/-- The text with `new` put in after column `n`; a text that is too short is filled up first. -/
def insertAfter (s : Text) (n : Nat) (pad : Char) (new : Text) : Text :=
  let s := if s.length < n then fit n pad s else s
  s.take n ++ new ++ s.drop n

/-- The text with each character replaced: one at place `k` of the table `source` by the one at place `k` of `target`, or
by the pad if that is too short. -/
def translate (source target : Text) (pad : Char) (s : Text) : Text :=
  s.map fun c =>
    match source.findIdx? (· == c) with
    | some k => target.getD k pad
    | none => c

/-- The text with each character replaced by the one of `target` at the place that is its code, or by the pad if that is
too short. -/
def translateByCode (target : Text) (pad : Char) (s : Text) : Text := s.map fun c => target.getD c.toNat pad

def copies (n : Nat) (s : Text) : Text := (List.replicate n s).flatten

def hexDigits (n : Nat) : Text := upper (Nat.toDigits 16 n)

def hexDigitValue (c : Char) : Nat :=
  if c.isDigit then c.toNat - '0'.toNat
  else if 'a' ≤ c then c.toNat - 'a'.toNat + 10
  else c.toNat - 'A'.toNat + 10

/-- The number that a row of hexadecimal digits stands for. -/
def hexValue (s : Text) : Nat := s.foldl (fun n c => 16 * n + hexDigitValue c) 0

end Rexx.Text
