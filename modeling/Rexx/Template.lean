import Rexx.Text.Search

/-!
# `Template` — taking texts apart

A template is a list of pieces: variables, dots that take a word and drop it, and patterns between them. A pattern is
a literal, the value of a variable, a column, or an offset from the place of the last pattern.
-/

namespace Rexx

inductive Piece where
  | var (name : Text)
  | dot
  | literal (text : Text)
  | pattern (name : Text)
  | column (n : Int)
  | offset (n : Int)
deriving DecidableEq, Repr

namespace Template

/-- The first word of a text and what follows the one blank after it. -/
def firstWord (s : Text) : Text × Text :=
  let s := s.dropWhile (· == ' ')
  (s.takeWhile (· != ' '), (s.dropWhile (· != ' ')).drop 1)

/-- The texts that `n` receivers get from a text: all but the last get a word, the last gets the rest as it is. -/
def share : Nat → Text → List Text
  | 0, _ => []
  | 1, s => [s]
  | n + 2, s => (firstWord s).1 :: share (n + 1) (firstWord s).2

/-- Where a pattern is found: the text before it ends at `stop`, the text after it begins at `next`, and offsets count
from `origin`. -/
structure Place where
  stop : Nat
  next : Nat
  origin : Nat
deriving DecidableEq, Repr

/-- The place of a text to look for, from index `pos` on; a text that is empty or not there is at the end. -/
def placeOf (src : Text) (pos : Nat) (wanted : Text) : Place :=
  let missing : Place := ⟨src.length, src.length, src.length⟩
  if wanted.isEmpty then missing
  else match Text.cut? wanted (src.drop pos) with
    | some (left, _) => ⟨pos + left.length, pos + left.length + wanted.length, pos + left.length⟩
    | none => missing

def placeAt (src : Text) (pos : Nat) (index : Int) : Place :=
  let k := min index.toNat src.length
  ⟨if pos < k then k else src.length, k, k⟩

section

variable {m : Type → Type} [Monad m]

/-- Assigns to each receiver its share; a receiver without a name drops it. -/
def assignAll (assign : Text → Text → m Unit) : List (Option Text) → List Text → m Unit
  | some name :: rs, s :: ss => do
    assign name s
    assignAll assign rs ss
  | none :: rs, _ :: ss => assignAll assign rs ss
  | _, _ => pure ()

/-- Gives the part of the source from `pos` to `stop` to the receivers. -/
def fill (assign : Text → Text → m Unit) (src : Text) (receivers : List (Option Text)) (pos stop : Nat) : m Unit :=
  assignAll assign receivers (share receivers.length ((src.take stop).drop pos))

/-- Applies the pieces of a template from index `pos` on: `origin` is the place of the last pattern, and `receivers` are
the variables met since then. -/
def walk (fetch : Text → m Text) (assign : Text → Text → m Unit) (src : Text) :
    List Piece → (receivers : List (Option Text)) → (pos origin : Nat) → m Unit
  | [], receivers, pos, _ => fill assign src receivers pos src.length
  | .var name :: ps, receivers, pos, origin => walk fetch assign src ps (receivers ++ [some name]) pos origin
  | .dot :: ps, receivers, pos, origin => walk fetch assign src ps (receivers ++ [none]) pos origin
  | .literal text :: ps, receivers, pos, _ => do
    let place := placeOf src pos text
    fill assign src receivers pos place.stop
    walk fetch assign src ps [] place.next place.origin
  | .pattern name :: ps, receivers, pos, _ => do
    let place := placeOf src pos (← fetch name)
    fill assign src receivers pos place.stop
    walk fetch assign src ps [] place.next place.origin
  | .column n :: ps, receivers, pos, _ => do
    let place := placeAt src pos (n - 1)
    fill assign src receivers pos place.stop
    walk fetch assign src ps [] place.next place.origin
  | .offset n :: ps, receivers, pos, origin => do
    let place := placeAt src pos (origin + n)
    fill assign src receivers pos place.stop
    walk fetch assign src ps [] place.next place.origin

def apply (fetch : Text → m Text) (assign : Text → Text → m Unit) (template : List Piece) (src : Text) : m Unit :=
  walk fetch assign src template [] 0 0

end

end Template

end Rexx
