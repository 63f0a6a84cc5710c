import Rexx.Text.Search

/-!
# `Interpolation` — values put into texts

A marker is the name of a variable between an opening and a closing delimiter. Expanding a text replaces each marker
that names a variable with a value by that value; other markers stay as they are.
-/

namespace Rexx

structure MarkerPattern where
  name : Text
  opening : Text
  closing : Text
deriving DecidableEq, Repr

namespace MarkerPattern

def curly : MarkerPattern := ⟨"curly", "\x7b", "\x7d"⟩

def all : List MarkerPattern :=
  [curly,
   ⟨"handlebars", "\x7b\x7b", "\x7d\x7d"⟩,
   ⟨"shell", "$\x7b", "\x7d"⟩,
   ⟨"batch", "%", "%"⟩,
   ⟨"doubledollar", "$$", "$$"⟩]

def ofName? (name : Text) : Option MarkerPattern := all.find? fun p => p.name == name

/-- The pattern with a name; braces if there is none with that name. -/
def ofName (name : Text) : MarkerPattern := (ofName? name).getD curly

end MarkerPattern

namespace Interpolation

/-- Whether a text can be the name in a marker: it begins with a letter or an underscore and has only characters of
names. -/
def isMarkerName (s : Text) : Bool :=
  (s.head?.any fun c => c.isAlpha || c == '_') && s.all Text.isNameChar

def value? (lookup : Text → Option Text) (name : Text) : Option Text :=
  if isMarkerName name then lookup (Text.upper name) else none

def expandUpTo (p : MarkerPattern) (lookup : Text → Option Text) : Nat → Text → Text
  | 0, s => s
  | n + 1, s =>
    match Text.cut? p.opening s with
    | none => s
    | some (left, right) =>
      match Text.cut? p.closing right with
      | none => s
      | some (name, rest) =>
        match value? lookup name with
        | some value => left ++ value ++ expandUpTo p lookup n rest
        | none => s.take (left.length + 1) ++ expandUpTo p lookup n (s.drop (left.length + 1))

def expand (p : MarkerPattern) (lookup : Text → Option Text) (s : Text) : Text := expandUpTo p lookup s.length s

end Interpolation

end Rexx
