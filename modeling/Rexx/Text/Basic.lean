/-!
# `Text.Basic` — byte texts

Every value of the language is a text, and a text is a sequence of bytes. Here a text is a list of characters, one
character per byte, so code points stay below 256 and their order is the order of the bytes.
-/

namespace Rexx

/-- A text: one character for each byte, none above code point 255. -/
abbrev Text := List Char

instance instCoeStringText : Coe String Text := ⟨String.toList⟩

namespace Text

/-! ## Case and character classes -/

def upper (s : Text) : Text := s.map Char.toUpper

def lower (s : Text) : Text := s.map Char.toLower

/-- The special characters that may stand in the name of a variable given at run time. -/
def isSpecial (c : Char) : Bool := "_.!?@#$\x00".toList.contains c

/-- A character of a variable name given at run time: a letter, a digit or a special character. -/
def isNameChar (c : Char) : Bool := c.isAlphanum || isSpecial c

def isName (s : Text) : Bool := !s.isEmpty && s.all isNameChar

def isHexDigit (c : Char) : Bool := c.isDigit || ('a' ≤ c && c ≤ 'f') || ('A' ≤ c && c ≤ 'F')

/-! ## Cutting and padding -/

def stripLeft (c : Char) (s : Text) : Text := s.dropWhile (· == c)

def stripRight (c : Char) (s : Text) : Text := (s.reverse.dropWhile (· == c)).reverse

def strip (c : Char) (s : Text) : Text := stripRight c (stripLeft c s)

/-- The text up to its first null character: what is left of a message that ends at a null. -/
def untilNul (s : Text) : Text := s.takeWhile (· != '\x00')

/-- The text cut, or filled up on the right with `pad`, to length `n`. -/
def fit (n : Nat) (pad : Char) (s : Text) : Text := s.take n ++ List.replicate (n - s.length) pad

/-- The part that was read: the characters of `s` before its rest `r`. -/
def before (s r : Text) : Text := s.take (s.length - r.length)

def rightAlign (n : Nat) (s : Text) : Text := List.replicate (n - s.length) ' ' ++ s

/-- The parts of a text between the characters `c`; there is always at least one part. -/
def splitAt (c : Char) : Text → List Text
  | [] => [[]]
  | d :: s =>
    if d = c then [] :: splitAt c s
    else match splitAt c s with
      | [] => [[d]]
      | part :: parts => (d :: part) :: parts

/-- The lines of a text: a line ends at a newline or with the text, and an empty last line does not count. -/
def lines (s : Text) : List Text :=
  let parts := splitAt '\n' s
  if parts.getLast? = some [] then parts.dropLast else parts

/-! ## Whole numbers as text -/

def ofNat (n : Nat) : Text := Nat.toDigits 10 n

/-- The decimal digits of `n`, with a minus sign if it is negative. -/
def ofInt (n : Int) : Text := if n < 0 then '-' :: ofNat n.natAbs else ofNat n.natAbs

/-- The digits of `n`, filled up on the left with zeros to width `w`. -/
def zeroPadded (w n : Nat) : Text := List.replicate (w - (ofNat n).length) '0' ++ ofNat n

/-- The number that a row of decimal digits stands for, after the digits already read as `n`. -/
def digitsValue (n : Nat) (s : Text) : Nat := s.foldl (fun v c => 10 * v + (c.toNat - '0'.toNat)) n

/-- The 32-bit word that a whole number wraps around to, from `-2 ^ 31` to `2 ^ 31 - 1`. -/
def toWord (n : Int) : Int := Int.bmod n 4294967296

/-- The number at the start of a text, blanks and a sign before it allowed, as a 32-bit word: values beyond 64 bits are
brought to the nearest end of that range, and of what is left the low 32 bits count. -/
def leadingWord (s : Text) : Int :=
  let rest := s.dropWhile fun c => c == ' ' || ('\t' ≤ c && c ≤ '\r')
  let (negative, digits) :=
    match rest with
    | '-' :: r => (true, r)
    | '+' :: r => (false, r)
    | r => (false, r)
  let n := digitsValue 0 (digits.takeWhile Char.isDigit)
  let bounded : Int :=
    if negative then max (-(n : Int)) (-9223372036854775808) else min (n : Int) 9223372036854775807
  toWord bounded

end Text

end Rexx
