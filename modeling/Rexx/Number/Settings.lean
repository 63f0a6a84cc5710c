import Rexx.Number.Arithmetic
import Rexx.Number.Format

/-!
# `Number.Settings` — how numbers are written and compared

The settings of a script: how many digits results carry, how many of them are left out of comparisons, and the form of
exponents.
-/

namespace Rexx.Number

structure Settings where
  digits : Int
  fuzz : Int
  form : Form
deriving DecidableEq, Repr

/-- The settings at the start, which are also those that NUMERIC without a value goes back to. -/
def Settings.initial : Settings := ⟨9, 0, .scientific⟩

/-- The greatest number of digits, which is what the number format carries. -/
def maxDigits : Int := 15

def Settings.format (s : Settings) (x : Float) : Text := Number.format s.digits s.form x

def Settings.compare (s : Settings) (x y : Float) : Ordering := compareTo (s.digits - s.fuzz) x y

end Rexx.Number
