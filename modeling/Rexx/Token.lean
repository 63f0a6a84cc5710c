import Rexx.Text.Basic

/-!
# `Token` — the words of a source text

A source text is read as a list of tokens: symbols, keywords, numbers, literals and marks, with ends of clauses
between them and one end of source after all. A token knows how it was written, where, and whether a blank stands
before it.
-/

namespace Rexx

/-- A place in a source text; lines and columns count from one. -/
structure Position where
  line : Nat
  column : Nat
deriving DecidableEq, Repr, Inhabited

namespace Position

def start : Position := ⟨1, 1⟩

def past (p : Position) (c : Char) : Position := if c = '\n' then ⟨p.line + 1, 1⟩ else ⟨p.line, p.column + 1⟩

def right (p : Position) (n : Nat) : Position := ⟨p.line, p.column + n⟩

def down (p : Position) (n : Nat) : Position := ⟨p.line + n, 1⟩

end Position

/-! ## Keywords -/

/-- The words that begin or divide instructions. -/
inductive Keyword where
  | address | arg | call | «do» | drop | «else» | «end» | endIf | exit | «if» | interpret | iterate | leave
  | «let» | nop | numeric | otherwise | parse | procedure | pull | push | queue | require | «return» | say
  | select | signal | «then» | trace | when
deriving DecidableEq, Repr

namespace Keyword

def spelling : Keyword → Text
  | .address => "ADDRESS"
  | .arg => "ARG"
  | .call => "CALL"
  | .«do» => "DO"
  | .drop => "DROP"
  | .«else» => "ELSE"
  | .«end» => "END"
  | .endIf => "ENDIF"
  | .exit => "EXIT"
  | .«if» => "IF"
  | .interpret => "INTERPRET"
  | .iterate => "ITERATE"
  | .leave => "LEAVE"
  | .«let» => "LET"
  | .nop => "NOP"
  | .numeric => "NUMERIC"
  | .otherwise => "OTHERWISE"
  | .parse => "PARSE"
  | .procedure => "PROCEDURE"
  | .pull => "PULL"
  | .push => "PUSH"
  | .queue => "QUEUE"
  | .require => "REQUIRE"
  | .«return» => "RETURN"
  | .say => "SAY"
  | .select => "SELECT"
  | .signal => "SIGNAL"
  | .«then» => "THEN"
  | .trace => "TRACE"
  | .when => "WHEN"

def all : List Keyword :=
  [.address, .arg, .call, .«do», .drop, .«else», .«end», .endIf, .exit, .«if», .interpret, .iterate, .leave,
   .«let», .nop, .numeric, .otherwise, .parse, .procedure, .pull, .push, .queue, .require, .«return», .say,
   .select, .signal, .«then», .trace, .when]

def ofText? (t : Text) : Option Keyword := all.find? fun k => k.spelling == t

end Keyword

/-! ## Marks -/

/-- The operators and the punctuation of the language. -/
inductive Mark where
  | strictNotEqual | strictAtLeast | strictAtMost | power | concat | pipe | xor | strictEqual | notEqual
  | bangEqual | lessGreater | greaterLess | atLeast | atMost | strictGreater | strictLess | notGreater
  | notLess | remainder | equal | less | greater | plus | minus | times | divide | percent | or | and
  | backslash | bang | leftParen | rightParen | comma | colon
deriving DecidableEq, Repr

namespace Mark

def spelling : Mark → Text
  | .strictNotEqual => "\\=="
  | .strictAtLeast => ">>="
  | .strictAtMost => "<<="
  | .power => "**"
  | .concat => "||"
  | .pipe => "|>"
  | .xor => "&&"
  | .strictEqual => "=="
  | .notEqual => "\\="
  | .bangEqual => "!="
  | .lessGreater => "<>"
  | .greaterLess => "><"
  | .atLeast => ">="
  | .atMost => "<="
  | .strictGreater => ">>"
  | .strictLess => "<<"
  | .notGreater => "\\>"
  | .notLess => "\\<"
  | .remainder => "//"
  | .equal => "="
  | .less => "<"
  | .greater => ">"
  | .plus => "+"
  | .minus => "-"
  | .times => "*"
  | .divide => "/"
  | .percent => "%"
  | .or => "|"
  | .and => "&"
  | .backslash => "\\"
  | .bang => "!"
  | .leftParen => "("
  | .rightParen => ")"
  | .comma => ","
  | .colon => ":"

/-- All marks, longer ones first, so that the first that fits is the longest. -/
def all : List Mark :=
  [.strictNotEqual, .strictAtLeast, .strictAtMost, .power, .concat, .pipe, .xor, .strictEqual, .notEqual,
   .bangEqual, .lessGreater, .greaterLess, .atLeast, .atMost, .strictGreater, .strictLess, .notGreater,
   .notLess, .remainder, .equal, .less, .greater, .plus, .minus, .times, .divide, .percent, .or, .and,
   .backslash, .bang, .leftParen, .rightParen, .comma, .colon]

def atStart? (s : Text) : Option Mark := all.find? fun m => m.spelling.isPrefixOf s

end Mark

/-! ## Tokens -/

/-- The forms of a literal: three kinds of quotes, or the lines up to a label. -/
inductive Quote where
  | double | single | back | heredoc
deriving DecidableEq, Repr

/-- What a token is. Names and numbers are in upper case. -/
inductive TokenKind where
  | endOfClause
  | endOfSource
  | symbol (name : Text)
  | keyword (word : Keyword)
  | number (text : Text)
  | literal (quote : Quote) (body : Text)
  | mark (mark : Mark)
deriving DecidableEq, Repr

structure Token where
  kind : TokenKind
  raw : Text
  pos : Position
  blank : Bool
deriving DecidableEq, Repr

namespace Token

def name? (t : Token) : Option Text :=
  match t.kind with
  | .symbol n => some n
  | .keyword k => some k.spelling
  | _ => none

def isMark (t : Token) (m : Mark) : Bool := t.kind == .mark m

def isKeyword (t : Token) (k : Keyword) : Bool := t.kind == .keyword k

/-- Whether the token is a symbol or a keyword that spells `word`. -/
def isWord (t : Token) (word : Text) : Bool := t.name? == some word

def text (t : Token) : Text :=
  match t.kind with
  | .endOfClause => if t.raw == ";" then ";" else "\n"
  | .endOfSource => []
  | .symbol n => n
  | .keyword k => k.spelling
  | .number n => n
  | .literal _ body => body
  | .mark m => m.spelling

end Token

end Rexx
