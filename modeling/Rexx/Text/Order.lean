import Rexx.Text.Basic

/-!
# `Text.Order` — comparing texts

The strict order is that of the bytes, a text before its extensions. The padded comparison strips blanks at both ends
and fills the shorter text up with blanks first.
-/

namespace Rexx.Text

def strictCompare (a b : Text) : Ordering := compare a b

/-- Comparison after stripping blanks and filling the shorter text up with blanks. -/
def paddedCompare (a b : Text) : Ordering :=
  let x := strip ' ' a
  let y := strip ' ' b
  let n := max x.length y.length
  compare (fit n ' ' x) (fit n ' ' y)

/-- The column of the first difference after the shorter text is filled up with `pad`; zero if there is none. -/
def firstDifference (pad : Char) (a b : Text) : Nat :=
  let n := max a.length b.length
  match ((fit n pad a).zip (fit n pad b)).findIdx? (fun (x, y) => x != y) with
  | some i => i + 1
  | none => 0

end Rexx.Text
