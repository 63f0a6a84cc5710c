import Rexx.Number.Numeral

/-!
# `Number.Arithmetic` — comparing and combining numbers

Two numbers compare as equal when they differ by less than half a unit of the last of the digits that count, which are
those of the number of greater magnitude.
-/

namespace Rexx.Number

def magnitude (x : Float) : Float := x.abs

/-- The greater of two numbers; the first if they cannot be compared. -/
def greater (x y : Float) : Float := if x < y then y else x

/-- The lesser of two numbers; the first if they cannot be compared. -/
def lesser (x y : Float) : Float := if y < x then y else x

/-- Half a unit of the last of `digits` significant digits of a number of magnitude `m`. -/
def tolerance (m : Float) (digits : Int) : Float :=
  0.5 * Float.pow 10.0 (m.log10.floor - Float.ofInt digits + 1.0)

/-- Comparison carrying `digits` significant digits. Numbers that cannot be compared count as greater. -/
def compareTo (digits : Int) (x y : Float) : Ordering :=
  if x == y then .eq
  else if (x - y).abs < tolerance (greater x.abs y.abs) digits then .eq
  else if x < y then .lt
  else .gt

end Rexx.Number
