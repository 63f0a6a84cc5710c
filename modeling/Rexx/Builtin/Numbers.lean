import Rexx.Builtin.Arguments
import Rexx.Number.Settings
import Rexx.Text.Edit

/-!
# `Builtin.Numbers` — built-in functions on numbers

Results are written under the settings for numbers. Hexadecimal numbers are words of 64 bits.
-/

namespace Rexx.Builtin

def absOf (s : Number.Settings) (a : Args) : Except BadCall Text := do .ok (s.format (← a.number 0).abs)

/-- The numbers of the arguments from the second on, combined with the first one in turn. -/
def combine (f : Float → Float → Float) (a : Args) : Except BadCall Float := do
  let first ← a.number 0
  (List.range' 1 (a.size - 1)).foldlM (fun m i => do .ok (f m (← a.number i))) first

def maxOf (s : Number.Settings) (a : Args) : Except BadCall Text := do .ok (s.format (← combine Number.greater a))

def minOf (s : Number.Settings) (a : Args) : Except BadCall Text := do .ok (s.format (← combine Number.lesser a))

def signOf (a : Args) : Except BadCall Text := do
  let x ← a.number 0
  .ok (if 0.0 < x then "1" else if x < 0.0 then "-1" else "0")

/-- TRUNC: a number cut off after some places. Of the number of places the low 32 bits count. -/
def truncOf (a : Args) : Except BadCall Text := do
  let x ← a.number 0
  let n := Text.toWord (← a.length 1 0)
  if Number.maxDigits < n then .error .tooManyPlaces
  else match Number.Exact.ofFloat? x with
    | some v => .ok (Number.truncated n v)
    | none => .error (.notNumber 1)

def d2xOf (a : Args) : Except BadCall Text := do
  let n ← a.whole 0 0
  if n < 0 ∧ a.size < 2 then .error .negativeWithoutLength
  else
    let digits := Text.hexDigits (n % 18446744073709551616).toNat
    if a.size = 2 then
      let l ← a.length 1 0
      Args.checkLength l
      .ok (Text.right l (if n < 0 then 'F' else '0') digits)
    else .ok digits

/-- X2D: the number that up to fifteen hexadecimal digits stand for. -/
def x2dOf (a : Args) : Except BadCall Text :=
  let s := a.text 0
  if 15 < s.length || !s.all Text.isHexDigit then .error (.notHexadecimal s)
  else .ok (Text.ofNat (Text.hexValue s))

end Rexx.Builtin
