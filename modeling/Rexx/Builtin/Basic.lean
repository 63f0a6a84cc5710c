import Rexx.Text.Basic

/-!
# `Builtin.Basic` — the built-in functions by name

Every built-in function has a name and takes a number of arguments within bounds.
-/

namespace Rexx

inductive Builtin where
  | abs | address | arg | center | changestr | compare | condition | copies | countstr | d2x | datatype
  | date | delstr | delword | digits | fuzz | insert | interpolation | lastpos | left | length | lower | max
  | min | pos | queued | random | reverse | right | sign | space | strip | substr | subword | symbol | time
  | translate | trunc | upper | value | word | wordindex | wordpos | words | x2d
deriving DecidableEq, Repr

structure Arity where
  least : Nat
  most : Option Nat
deriving DecidableEq, Repr

def Arity.admits (a : Arity) (n : Nat) : Bool := a.least ≤ n && a.most.all fun most => n ≤ most

namespace Builtin

def name : Builtin → Text
  | .abs => "ABS"
  | .address => "ADDRESS"
  | .arg => "ARG"
  | .center => "CENTER"
  | .changestr => "CHANGESTR"
  | .compare => "COMPARE"
  | .condition => "CONDITION"
  | .copies => "COPIES"
  | .countstr => "COUNTSTR"
  | .d2x => "D2X"
  | .datatype => "DATATYPE"
  | .date => "DATE"
  | .delstr => "DELSTR"
  | .delword => "DELWORD"
  | .digits => "DIGITS"
  | .fuzz => "FUZZ"
  | .insert => "INSERT"
  | .interpolation => "INTERPOLATION"
  | .lastpos => "LASTPOS"
  | .left => "LEFT"
  | .length => "LENGTH"
  | .lower => "LOWER"
  | .max => "MAX"
  | .min => "MIN"
  | .pos => "POS"
  | .queued => "QUEUED"
  | .random => "RANDOM"
  | .reverse => "REVERSE"
  | .right => "RIGHT"
  | .sign => "SIGN"
  | .space => "SPACE"
  | .strip => "STRIP"
  | .substr => "SUBSTR"
  | .subword => "SUBWORD"
  | .symbol => "SYMBOL"
  | .time => "TIME"
  | .translate => "TRANSLATE"
  | .trunc => "TRUNC"
  | .upper => "UPPER"
  | .value => "VALUE"
  | .word => "WORD"
  | .wordindex => "WORDINDEX"
  | .wordpos => "WORDPOS"
  | .words => "WORDS"
  | .x2d => "X2D"

def arity : Builtin → Arity
  | .abs | .length | .lower | .reverse | .sign | .symbol | .upper | .words | .x2d => ⟨1, some 1⟩
  | .address | .digits | .fuzz | .queued => ⟨0, some 0⟩
  | .arg => ⟨0, some 2⟩
  | .center | .compare | .delstr | .delword | .lastpos | .left | .pos | .right | .subword | .wordpos => ⟨2, some 3⟩
  | .changestr => ⟨3, some 3⟩
  | .condition | .date | .interpolation | .time => ⟨0, some 1⟩
  | .copies | .countstr | .word | .wordindex => ⟨2, some 2⟩
  | .d2x | .datatype | .trunc | .value => ⟨1, some 2⟩
  | .insert => ⟨2, some 5⟩
  | .max | .min => ⟨1, none⟩
  | .random => ⟨0, some 3⟩
  | .space | .strip => ⟨1, some 3⟩
  | .substr => ⟨2, some 4⟩
  | .translate => ⟨1, some 4⟩

def all : List Builtin :=
  [.abs, .address, .arg, .center, .changestr, .compare, .condition, .copies, .countstr, .d2x, .datatype,
   .date, .delstr, .delword, .digits, .fuzz, .insert, .interpolation, .lastpos, .left, .length, .lower, .max,
   .min, .pos, .queued, .random, .reverse, .right, .sign, .space, .strip, .substr, .subword, .symbol, .time,
   .translate, .trunc, .upper, .value, .word, .wordindex, .wordpos, .words, .x2d]

def ofName? (n : Text) : Option Builtin := all.find? fun b => b.name == n

end Builtin

end Rexx
