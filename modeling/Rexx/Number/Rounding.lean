/-!
# `Number.Rounding` — exact quotients, rounded

Numbers are rounded in exact arithmetic on natural numbers: a positive number is a quotient `num / den`, and rounding
picks the nearest multiple of a unit, the even one of two that are equally near.
-/

namespace Rexx.Number

/-- `num / den` rounded to the nearest whole number, a tie to the even one. -/
def roundDiv (num den : Nat) : Nat :=
  let q := num / den
  let r := num % den
  if 2 * r < den then q
  else if den < 2 * r then q + 1
  else q + q % 2

/-- The number of decimal digits of `n`, none for zero: the least `k` with `n < 10 ^ k`. -/
def decimalLength (n : Nat) : Nat := if n = 0 then 0 else decimalLength (n / 10) + 1
termination_by n
decreasing_by omega

/-- A non-negative rational number as a numerator and a denominator. -/
structure Quotient where
  num : Nat
  den : Nat
deriving DecidableEq, Repr

namespace Quotient

def scale (base : Nat) (q : Quotient) (e : Int) : Quotient :=
  match e with
  | .ofNat k => ⟨q.num * Nat.pow base k, q.den⟩
  | .negSucc k => ⟨q.num, q.den * Nat.pow base (k + 1)⟩

/-- The quotient rounded to a whole number, a tie to the even one. -/
def round (q : Quotient) : Nat := roundDiv q.num q.den

/-- The decimal exponent of a positive quotient: the `e` with `10 ^ e ≤ q < 10 ^ (e + 1)`. -/
def decimalExponent (q : Quotient) : Int :=
  if q.den ≤ q.num then (decimalLength (q.num / q.den) : Int) - 1
  else -(decimalLength ((q.den - 1) / q.num) : Int)

end Quotient

/-- A positive decimal number `digits · 10 ^ (exponent - places)`, where `digits` has `places + 1` decimal digits. -/
structure Decimal where
  digits : Nat
  places : Nat
  exponent : Int
deriving DecidableEq, Repr

/-- A positive quotient rounded to `places` digits after the first one. -/
def Quotient.toDecimal (q : Quotient) (places : Nat) : Decimal :=
  let e := q.decimalExponent
  let d := (q.scale 10 (places - e)).round
  -- rounding up may carry into one more digit
  if d = Nat.pow 10 (places + 1) then ⟨Nat.pow 10 places, places, e + 1⟩ else ⟨d, places, e⟩

end Rexx.Number
