import Rexx.Text.Basic
import Rexx.Number.Binary

/-!
# `Number.Numeral` — texts that denote numbers

A numeral is, between blanks, an optional sign followed by blanks, digits with at most one point and at least one
digit in all, and an optional exponent: `E` or `e`, an optional sign and at least one digit.
-/

namespace Rexx.Number

structure Numeral where
  negative : Bool
  integral : Text
  fraction : Text
  exponent : Int
deriving DecidableEq, Repr

namespace Numeral

def skipBlanks (s : Text) : Text := s.dropWhile (· == ' ')

def digits (s : Text) : Text × Text := (s.takeWhile Char.isDigit, s.dropWhile Char.isDigit)

/-- An optional sign, and the rest: whether it is a minus, and whether there is one. -/
def sign (s : Text) : Bool × Bool × Text :=
  match s with
  | '+' :: r => (false, true, r)
  | '-' :: r => (true, true, r)
  | r => (false, false, r)

/-- The exponent part at the start of a text, zero if there is none, and the rest. -/
def exponentPart (s : Text) : Option (Int × Text) :=
  match s with
  | c :: r =>
    if c = 'e' ∨ c = 'E' then
      let (negative, _, r) := sign r
      let (ds, r) := digits r
      if ds.isEmpty then none
      else
        let n : Int := Text.digitsValue 0 ds
        some (if negative then -n else n, r)
    else some (0, s)
  | [] => some (0, [])

def read? (s : Text) : Option Numeral := do
  let (negative, signed, r) := sign (skipBlanks s)
  let r := if signed then skipBlanks r else r
  let (integral, r) := digits r
  let (fraction, r) :=
    match r with
    | '.' :: r => digits r
    | r => ([], r)
  if integral.isEmpty ∧ fraction.isEmpty then none
  else
    let (exponent, r) ← exponentPart r
    if (skipBlanks r).isEmpty then some ⟨negative, integral, fraction, exponent⟩ else none

def significand (n : Numeral) : Nat := Text.digitsValue 0 (n.integral ++ n.fraction)

def scale (n : Numeral) : Int := n.exponent - n.fraction.length

def magnitude (n : Numeral) : Quotient := Quotient.scale 10 ⟨n.significand, 1⟩ n.scale

/-- The finite number nearest to what the numeral denotes; none if that is too large. -/
def toExact? (n : Numeral) : Option Exact :=
  let top := (decimalLength n.significand : Int) + n.scale
  if n.significand = 0 then some ⟨n.negative, 0, -1074⟩
  else if 310 < top then none
  else if top < -330 then some ⟨n.negative, 0, -1074⟩
  else nearest? n.negative n.magnitude

end Numeral

def ofText? (s : Text) : Option Float := do
  let n ← Numeral.read? s
  let x ← n.toExact?
  some x.toFloat

def isNumber (s : Text) : Bool := (ofText? s).isSome

def wholeOfText? (s : Text) : Option Int := (ofText? s).bind whole?

end Rexx.Number
