import Rexx.Token

/-!
# `Expr` — expressions

The tree of an expression. Operators are grouped by what they do with their operands: logic on truth values, comparison,
concatenation of texts, arithmetic on numbers.
-/

namespace Rexx

/-- Connectives of truth values. -/
inductive LogicOp where
  | or | xor | and
deriving DecidableEq, Repr

/-- Outcomes that a comparison asks for. -/
inductive Relation where
  | eq | ne | gt | lt | ge | le
deriving DecidableEq, Repr

/-- Whether the outcome of a comparison is the one asked for. -/
def Relation.holds : Relation → Ordering → Bool
  | .eq, o => o == .eq
  | .ne, o => o != .eq
  | .gt, o => o == .gt
  | .lt, o => o == .lt
  | .ge, o => o != .lt
  | .le, o => o != .gt

inductive ArithOp where
  | add | sub | mul | div | intDiv | rem | pow
deriving DecidableEq, Repr

/-- Operators with two operands. -/
inductive BinaryOp where
  | logic (op : LogicOp)
  | compare (rel : Relation)
  | strict (rel : Relation)
  | concat (blank : Bool)
  | arith (op : ArithOp)
deriving DecidableEq, Repr

/-- Operators with one operand. -/
inductive UnaryOp where
  | not | neg | plus
deriving DecidableEq, Repr

/-- Expressions. -/
inductive Expr where
  | literal (text : Text) (quote : Option Quote)
  | symbol (name : Text)
  | call (name : Text) (quoted : Bool) (args : List Expr)
  | binary (op : BinaryOp) (left right : Expr)
  | unary (op : UnaryOp) (operand : Expr)
  | pipe (value : Expr) (name : Text)
  | pipeCall (value : Expr) (name : Text) (args : List Expr)
deriving Repr, Inhabited

namespace Expr

/-- Whether a literal may hold markers that name variables: it is quoted and has one of the characters with which markers
begin. -/
def isMarked (text : Text) (quote : Option Quote) : Bool :=
  quote.isSome && text.any fun c => c == '\x7b' || c == '%' || c == '$'

def literal? : Expr → Option Text
  | .literal text _ => some text
  | _ => none

/-- Whether an argument is the place into which a value handed on goes. -/
def isHole : Expr → Bool
  | .symbol name => name == "_"
  | _ => false

end Expr

end Rexx
