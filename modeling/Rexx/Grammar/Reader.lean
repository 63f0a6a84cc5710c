import Rexx.SyntaxError

/-!
# `Grammar.Reader` — reading a list of tokens

A reader takes tokens off the front of a list that ends with the end of the source. It fails with a cause at the token
where it stands.
-/

namespace Rexx.Grammar

abbrev Reader := StateT (List Token) (Except SyntaxError)

/-- The surroundings of what is being read. -/
structure Scope where
  stops : List Text
  elseEnds : Bool
  nested : Bool
deriving DecidableEq, Repr

namespace Scope

def top : Scope := ⟨[], false, false⟩

def block : Scope := ⟨[], false, true⟩

/-- The same surroundings, with further words that end an expression. -/
def stopping (sc : Scope) (words : List Text) : Scope := { sc with stops := sc.stops ++ words }

/-- The surroundings inside parentheses, where nothing but the closing one ends an expression. -/
def enclosed (sc : Scope) : Scope := { sc with stops := [], elseEnds := false }

def beforeElse (sc : Scope) : Scope := { sc with elseEnds := true }

def endsClause (sc : Scope) (t : Token) : Bool :=
  match t.kind with
  | .endOfClause | .endOfSource => true
  | .keyword .«else» => sc.elseEnds
  | _ => false

def isStop (sc : Scope) (t : Token) : Bool :=
  match t.name? with
  | none => false
  | some name => (sc.elseEnds && t.isKeyword .«else») || sc.stops.contains name

def endsExpr (sc : Scope) (t : Token) : Bool :=
  sc.endsClause t || sc.isStop t || t.isMark .rightParen || t.isMark .comma

/-- Whether a token begins a term, so that it stands next to the term before it. -/
def startsTerm (sc : Scope) (t : Token) : Bool :=
  match t.kind with
  | .number _ | .literal _ _ => true
  | .symbol _ | .keyword _ => !sc.isStop t
  | .mark .leftParen => true
  | _ => false

end Scope

/-! ## Looking and moving -/

def nowhere : Token := ⟨.endOfSource, [], .start, false⟩

def ahead (k : Nat) : Reader Token := return (← get).getD k nowhere

def current : Reader Token := ahead 0

def skip (n : Nat) : Reader Unit := modify (List.drop n)

def fail {α : Type} (cause : SyntaxCause) : Reader α := do throw ⟨cause, (← current).pos⟩

def atMark (m : Mark) : Reader Bool := return (← current).isMark m

def atWord (word : Text) : Reader Bool := return (← current).isWord word

def atEnd (sc : Scope) : Reader Bool := return sc.endsClause (← current)

/-- Whether the next token is the keyword in its own right: neither assigned to nor a label. -/
def atKeyword (k : Keyword) : Reader Bool := do
  let next ← ahead 1
  return (← current).isKeyword k && !next.isMark .equal && !next.isMark .colon

def takeMark (m : Mark) : Reader Bool := do
  if ← atMark m then
    skip 1
    return true
  return false

def takeWord (word : Text) : Reader Bool := do
  if ← atWord word then
    skip 1
    return true
  return false

def expectMark (m : Mark) : Reader Unit := do
  if !(← takeMark m) then fail (.markExpected m)

def expectKeyword (k : Keyword) : Reader Unit := do
  if ← atKeyword k then skip 1 else fail (.keywordExpected k)

def skipEnds : Reader Unit := modify (List.dropWhile fun t => t.kind == .endOfClause)

/-! ## Names and numbers -/

/-- A symbol or keyword, which has to come next; `what` and `place` describe it. -/
def symbolName (what place : Text) : Reader Text := do
  match (← current).name? with
  | some name =>
    skip 1
    return name
  | none => fail (.expected what place)

def anyName (what : Text) : Reader Text := do
  let t ← current
  match t.name?, t.kind with
  | some name, _ =>
    skip 1
    return name
  | none, .literal .heredoc _ => fail (.expected what [])
  | none, .literal _ body =>
    skip 1
    return Text.upper body
  | none, _ => fail (.expected what [])

def wholeNumber : Reader Int := do
  match (← current).kind with
  | .number text =>
    if text.all Char.isDigit then
      skip 1
      return Text.leadingWord text
    else fail (.expected "whole number" [])
  | _ => fail (.expected "whole number" [])

/-! ## Repetition -/

/-- What an item reader gives, again and again until it gives nothing, at most `n` times. -/
def many {α : Type} (item : Reader (Option α)) : Nat → Reader (List α)
  | 0 => return []
  | n + 1 => do
    match ← item with
    | none => return []
    | some a => return a :: (← many item n)

/-- What an item reader that takes at least one token gives, again and again until it gives nothing. -/
def all {α : Type} (item : Reader (Option α)) : Reader (List α) := do many item ((← get).length + 1)

end Rexx.Grammar
