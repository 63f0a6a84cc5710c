import Rexx.Number.Rounding

/-!
# `Number.Binary` — the number format

Numbers are kept as 64-bit binary floating point. What the library decides about a number (its digits, whether it is
whole, its remainder) it decides on the exact value `± mantissa · 2 ^ exponent` that the bits stand for.
-/

namespace Rexx.Number

/-- The exact value of a finite number: `mantissa · 2 ^ exponent`, negated if `negative`. -/
structure Exact where
  negative : Bool
  mantissa : Nat
  exponent : Int
deriving DecidableEq, Repr

def Exact.magnitude (x : Exact) : Quotient := Quotient.scale 2 ⟨x.mantissa, 1⟩ x.exponent

/-- The exact value of a number; none for an infinity or a NaN. -/
def Exact.ofFloat? (x : Float) : Option Exact :=
  let bits : Nat := x.toBits.toNat
  let negative := decide (Nat.pow 2 63 ≤ bits)
  let biased : Nat := bits / Nat.pow 2 52 % Nat.pow 2 11
  let fraction : Nat := bits % Nat.pow 2 52
  if biased = 2047 then none
  else if biased = 0 then some ⟨negative, fraction, -1074⟩
  else some ⟨negative, Nat.pow 2 52 + fraction, (biased : Int) - 1075⟩

/-- The number with the given sign, mantissa below `2 ^ 53` and exponent from `-1074` to `971`; a mantissa below `2 ^ 52`
goes with the least exponent only. -/
def Exact.toFloat (x : Exact) : Float :=
  let magnitude :=
    if x.mantissa < Nat.pow 2 52 then x.mantissa
    else (x.exponent + 1075).toNat * Nat.pow 2 52 + (x.mantissa - Nat.pow 2 52)
  Float.ofBits (UInt64.ofNat ((if x.negative then Nat.pow 2 63 else 0) + magnitude))

/-- The exponent of the mantissa of a positive quotient: with it the mantissa has 53 bits, or the exponent is the least
one. -/
def mantissaExponent (q : Quotient) : Int :=
  let guess : Int := (Nat.log2 q.num : Int) - (Nat.log2 q.den : Int)
  let below := (q.scale 2 (-guess)).num < (q.scale 2 (-guess)).den
  max (-1074) (guess - (if below then 53 else 52))

/-- The finite number nearest to a quotient, with a sign; a tie goes to the even mantissa. -/
def nearest? (negative : Bool) (q : Quotient) : Option Exact :=
  if q.num = 0 then some ⟨negative, 0, -1074⟩
  else
    let e := mantissaExponent q
    let m := (q.scale 2 (-e)).round
    -- rounding up may carry into one more bit
    let (m, e) := if m = Nat.pow 2 53 then (Nat.pow 2 52, e + 1) else (m, e)
    if 971 < e then none else some ⟨negative, m, e⟩

def isFinite (x : Float) : Bool := (Exact.ofFloat? x).isSome

/-- The greatest magnitude that still counts as a whole number. -/
def wholeLimit : Nat := 9000000000000000000

/-- The whole number that a number is, if it is one and not beyond the limit. -/
def whole? (x : Float) : Option Int := do
  let v ← Exact.ofFloat? x
  let q := v.magnitude
  if q.num % q.den = 0 ∧ q.num / q.den ≤ wholeLimit then
    let n : Int := (q.num / q.den : Nat)
    some (if v.negative then -n else n)
  else none

def truncate (x : Float) : Float := if x < 0 then x.ceil else x.floor

/-- The remainder of the division of `x` by `y`, with the sign of `x`. It is exact. -/
def remainder (x y : Float) : Float :=
  match Exact.ofFloat? x, Exact.ofFloat? y with
  | some a, some b =>
    if b.mantissa = 0 then 0.0 / 0.0
    else
      let e := min a.exponent b.exponent
      let m := (a.mantissa * Nat.pow 2 (a.exponent - e).toNat) % (b.mantissa * Nat.pow 2 (b.exponent - e).toNat)
      match nearest? a.negative (Quotient.scale 2 ⟨m, 1⟩ e) with
      | some r => r.toFloat
      | none => 0.0 / 0.0
  | some _, none => if y.isNaN then 0.0 / 0.0 else x
  | none, _ => 0.0 / 0.0

end Rexx.Number
