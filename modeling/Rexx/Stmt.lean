import Rexx.Condition
import Rexx.Expr
import Rexx.Template

/-!
# `Stmt` — clauses and statements

A clause is an instruction of one line.
-/

namespace Rexx

/-- Where the text for PARSE comes from. -/
inductive ParseSource where
  | arg
  | pull
  | source
  | version
  | var (name : Text)
  | value (x : Option Expr)
deriving Repr

/-- A change of case before a text is taken apart. -/
inductive LetterCase where
  | upper | lower
deriving DecidableEq, Repr

def LetterCase.convert : Option LetterCase → Text → Text
  | none, s => s
  | some .upper, s => Text.upper s
  | some .lower, s => Text.lower s

/-- Instructions of one line. -/
inductive Clause where
  | nop
  | noInterpret
  | label (name : Text)
  | assign (name : Text) (x : Expr)
  | say (x : Option Expr)
  | exit (x : Option Expr)
  | exitUnless (code : Option Expr) (cond message : Expr)
  | ret (x : Option Expr)
  | push (x : Option Expr)
  | queue (x : Option Expr)
  | interpret (x : Expr)
  | command (x : Expr)
  | call (name : Text) (args : List Expr)
  | routine (name : Text) (args : List Expr)
  | operation (name : Text) (params : List (Text × Expr))
  | signal (label : Text)
  | signalValue (x : Expr)
  | signalOn (event : Event) (label : Text)
  | signalOff (event : Event)
  | leave (var : Option Text)
  | iterate (var : Option Text)
  | trace (option : Text)
  | parse (src : ParseSource) (letters : Option LetterCase) (templates : List (List Piece))
  | address (name : Option Text) (auth : Option Expr) (asName : Option Text) (cmd : Option Expr)
  | require (spec : Expr) (as : Option Text)
  | procedure (names : List Text)
  | drop (names : List Text)
  | numeric (setting : NumericSetting) (x : Option Expr)
  | numericForm (engineering : Bool)
deriving Repr

/-- What makes a loop go round. -/
inductive Control where
  | conditional
  | forever
  | times (count : Expr)
  | counted (var : Text) (start : Expr) (limit by_ count : Option Expr)
  | tails (var stem : Text)
deriving Repr

def Control.var? : Control → Option Text
  | .counted var _ _ _ _ | .tails var _ => some var
  | _ => none

/-- The condition of a loop: tested before each round, or after it. -/
inductive Guard where
  | whilst (x : Expr)
  | untilTrue (x : Expr)
deriving Repr

/-- Statements. -/
inductive Stmt where
  | clause (pos : Position) (clause : Clause)
  | ifThen (pos : Position) (cond : Expr) (thens elses : List Stmt)
  | group (pos : Position) (body : List Stmt)
  | loop (pos : Position) (control : Control) (guard : Option Guard) (body : List Stmt)
  | select (pos : Position) (whens : List (Expr × List Stmt)) (otherwise : Option (List Stmt))
deriving Repr

namespace Stmt

def pos : Stmt → Position
  | .clause p _ | .ifThen p _ _ _ | .group p _ | .loop p _ _ _ | .select p _ _ => p

def label? : Stmt → Option Text
  | .clause _ (.label name) => some name
  | _ => none

end Stmt

end Rexx
