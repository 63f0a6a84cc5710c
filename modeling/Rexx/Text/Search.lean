import Rexx.Text.Basic

/-!
# `Text.Search` — occurrences of one text in another

The one primitive is `Text.cut?`: the parts before and after the leftmost occurrence. Positions count from one, and zero
means that there is no occurrence.
-/

namespace Rexx.Text

/-- The parts of a text before and after the leftmost occurrence of `pattern` in it. -/
def cut? (pattern : Text) : Text → Option (Text × Text)
  | [] => if pattern.isEmpty then some ([], []) else none
  | c :: s =>
    if pattern.isPrefixOf (c :: s) then some ([], (c :: s).drop pattern.length)
    else (cut? pattern s).map fun (left, right) => (c :: left, right)

/-- The position of the leftmost occurrence of `needle` that starts at column `start` or later. -/
def position (needle haystack : Text) (start : Nat) : Nat :=
  if needle.isEmpty then 0
  else match cut? needle (haystack.drop (start - 1)) with
    | some (left, _) => start + left.length
    | none => 0

/-- The greatest index up to `last` at which `needle` occurs, as a position. -/
def lastPositionUpTo (needle haystack : Text) : Nat → Nat
  | 0 => if needle.isPrefixOf haystack then 1 else 0
  | last + 1 =>
    if needle.isPrefixOf (haystack.drop (last + 1)) then last + 2
    else lastPositionUpTo needle haystack last

/-- The position of the rightmost occurrence of `needle` that ends at column `start` or earlier; a needle longer than
`start` may still occur at the first column. -/
def lastPosition (needle haystack : Text) (start : Nat) : Nat :=
  if needle.isEmpty || haystack.length < needle.length then 0
  else lastPositionUpTo needle haystack (min start haystack.length - needle.length)

/-- The parts of a text between the leftmost occurrences of `mark` that do not overlap; `skip` characters belong to an
occurrence already found. -/
def between (mark : Text) : Nat → Text → List Text
  | _, [] => [[]]
  | skip + 1, _ :: s => between mark skip s
  | 0, c :: s =>
    if mark.isPrefixOf (c :: s) then [] :: between mark (mark.length - 1) s
    else match between mark 0 s with
      | [] => [[c]]
      | part :: parts => (c :: part) :: parts

/-- The number of leftmost occurrences of `needle` that do not overlap. -/
def count (needle s : Text) : Nat := if needle.isEmpty then 0 else (between needle 0 s).length - 1

/-- The text with each leftmost occurrence of `old` replaced by `new`. An empty `old` occurs nowhere. -/
def replaceAll (old new s : Text) : Text :=
  if old.isEmpty then s else new.intercalate (between old 0 s)

end Rexx.Text
