import Rexx.Text.Basic

/-!
# `Text.Words` — words delimited by blanks

A word is a longest run of characters other than the blank. `Text.spans` lists the words of a text with the index at
which each starts; everything about words is read off that list.
-/

namespace Rexx.Text

/-- A word of a text and the index of its first character, counted from zero. -/
structure Span where
  start : Nat
  word : Text
deriving DecidableEq, Repr

def Span.stop (w : Span) : Nat := w.start + w.word.length

def spansFrom (i : Nat) : Text → List Span
  | [] => []
  | c :: s =>
    if c = ' ' then spansFrom (i + 1) s
    else match spansFrom (i + 1) s with
      | [] => [⟨i, [c]⟩]
      | w :: ws => if w.start = i + 1 then ⟨i, c :: w.word⟩ :: ws else ⟨i, [c]⟩ :: w :: ws

def spans (s : Text) : List Span := spansFrom 0 s

def words (s : Text) : List Text := (spans s).map Span.word

def respace (n : Nat) (pad : Char) (s : Text) : Text := (List.replicate n pad).intercalate (words s)

/-- The text from the start of word `n` to the end of the last of `count` words, the blanks between them kept. -/
def subword (s : Text) (n : Nat) (count : Option Nat) : Text :=
  let ws := spans s
  let chosen := (ws.drop (n - 1)).take (count.getD ws.length)
  match chosen.head?, chosen.getLast? with
  | some a, some b => (s.take b.stop).drop a.start
  | _, _ => []

/-- The text without `count` words from word `n` on, and without the blanks that follow them. -/
def delword (s : Text) (n : Nat) (count : Option Nat) : Text :=
  let ws := spans s
  let l := count.getD ws.length
  match ws[n - 1]? with
  | none => s
  | some a =>
    if l = 0 then s
    else match ws[n - 1 + l]? with
      | some b => s.take a.start ++ s.drop b.start
      | none => s.take a.start

/-- The least word number from `i` on at which the words `phrase` stand one after the other in the list, whose first word
has number `i`; zero if there is none. -/
def phraseFrom (phrase : List Text) (i : Nat) : List Text → Nat
  | [] => 0
  | w :: ws => if phrase.isPrefixOf (w :: ws) then i else phraseFrom phrase (i + 1) ws

/-- The number of the first word, from word `start` on, at which the words of `phrase` stand in `s`; zero if there is
none or the phrase is blank. -/
def wordPosition (phrase s : Text) (start : Nat) : Nat :=
  let ps := words phrase
  if ps.isEmpty then 0 else phraseFrom ps start ((words s).drop (start - 1))

end Rexx.Text
