import Rexx.Text.Basic
import Rexx.Number.Binary

/-!
# `Number.Format` — numbers as text

`format` writes a number under a setting of significant digits.
-/

namespace Rexx.Number

/-- The two forms of an exponent: one digit before the point, or an exponent that is a multiple of three. -/
inductive Form where
  | scientific
  | engineering
deriving DecidableEq, Repr

/-! ## Rounded significant digits -/

/-- The digits of a number without trailing zeros, its first digit kept. -/
def significantDigits (d : Decimal) : Text :=
  match Text.ofNat d.digits with
  | [] => []
  | c :: cs => c :: Text.stripRight '0' cs

/-- The places after the first digit for a setting of `digits`. A setting below one means six places. -/
def placesFor (digits : Int) : Nat := if digits < 1 then 6 else (digits - 1).toNat

/-- Digits with exponent `e`, written without an exponent. -/
def plain (ds : Text) (e : Int) : Text :=
  if 0 ≤ e then
    let k := e.toNat + 1
    if ds.length ≤ k then Text.fit k '0' ds else ds.take k ++ '.' :: ds.drop k
  else '0' :: '.' :: List.replicate (-e - 1).toNat '0' ++ ds

def exponential (form : Form) (ds : Text) (e : Int) : Text :=
  let shift : Nat :=
    match form with
    | .scientific => 0
    | .engineering => (e % 3).toNat
  let k := shift + 1
  let e : Int := e - shift
  let fraction := ds.drop k
  Text.fit k '0' (ds.take k) ++ (if fraction.isEmpty then [] else '.' :: fraction)
    ++ 'E' :: (if e < 0 then '-' else '+') :: Text.ofNat e.natAbs

/-- Whether digits with exponent `e` are written without an exponent. -/
def isPlain (digits : Int) (ds : Text) (e : Int) : Bool :=
  (0 ≤ e && e < digits) || (e < 0 && (ds.length : Int) - 1 - e ≤ 2 * digits)

/-- The text of a number under a setting of significant digits. Zero, and a number that is not finite, is `0`. -/
def format (digits : Int) (form : Form) (x : Float) : Text :=
  match Exact.ofFloat? x with
  | none => ['0']
  | some v =>
    if v.mantissa = 0 then ['0']
    else
      let d := v.magnitude.toDecimal (placesFor digits)
      let ds := significantDigits d
      let body := if isPlain digits ds d.exponent then plain ds d.exponent else exponential form ds d.exponent
      if v.negative then '-' :: body else body

/-! ## A fixed number of places -/

/-- The text of a number rounded to `places` places, with no point if there are none. -/
def fixed (places : Nat) (v : Exact) : Text :=
  let n := (v.magnitude.scale 10 places).round
  let body :=
    if places = 0 then Text.ofNat n
    else
      let ds := Text.zeroPadded (places + 1) n
      ds.take (ds.length - places) ++ '.' :: ds.drop (ds.length - places)
  if v.negative then '-' :: body else body

/-- The longest text that a number with a fixed number of places may have; what goes beyond is lost. -/
def fixedWidth : Nat := 63

def truncated (n : Int) (v : Exact) : Text :=
  let places := if n + 6 < 0 then 6 else (n + 6).toNat
  let s := (fixed places v).take fixedWidth
  let cutTo (k : Int) : Text := if k < 0 then s else s.take k.toNat
  let t : Text :=
    match s.findIdx? (· == '.') with
    | some p => if n = 0 then s.take p else cutTo (p + 1 + n)
    | none => if n = 0 then s else cutTo n
  -- a zero has no sign
  if t.all (fun c => c == '-' || c == '0' || c == '.') then
    match t with
    | '-' :: t => t
    | t => t
  else t

end Rexx.Number
