import Rexx.Text.Basic

/-!
# `Condition` — events that stop or divert a script

A condition is an event with a number and a text. The events that a script can trap have names; host code may raise a
condition under any other name, which no trap takes. `Fault` lists the events that the language itself raises.
-/

namespace Rexx

/-! ## Events -/

/-- The events that traps are set for, and events that only host code raises. -/
inductive Event where
  | error
  | failure
  | halt
  | novalue
  | syntaxError
  | other (name : Text)
deriving DecidableEq, Repr

namespace Event

def name : Event → Text
  | .error => "ERROR"
  | .failure => "FAILURE"
  | .halt => "HALT"
  | .novalue => "NOVALUE"
  | .syntaxError => "SYNTAX"
  | .other name => name

def ofName (n : Text) : Event :=
  if n = "ERROR" then .error
  else if n = "FAILURE" then .failure
  else if n = "HALT" then .halt
  else if n = "NOVALUE" then .novalue
  else if n = "SYNTAX" then .syntaxError
  else .other n

def trappable? (n : Text) : Option Event :=
  match ofName n with
  | .other _ => none
  | e => some e

/-- Whether a trap for ERROR takes the event if there is no trap for the event itself. -/
def fallsToError : Event → Bool
  | .syntaxError | .failure => true
  | _ => false

end Event

/-! ## Conditions -/

structure Condition where
  event : Event
  code : Int
  text : Text
  trappable : Bool
  line : Option Nat
deriving DecidableEq, Repr

def Condition.of (event : Event) (code : Int) (text : Text) (trappable : Bool) : Condition :=
  ⟨event, code, Text.untilNul text, trappable, none⟩

/-! ## What can be wrong with a call -/

/-- The ways in which the arguments of a routine can be wrong. Arguments count from one. -/
inductive BadCall where
  | argumentCount
  | notWhole (arg : Nat)
  | negative (arg : Nat)
  | notPositive (arg : Nat)
  | notNumber (arg : Nat)
  | badPad
  | badOption (options : Text)
  | negativeWithoutLength
  | unknownPattern (name : Text)
  | emptyRange
  | tooManyPlaces
  | notSymbol (text : Text)
  | notHexadecimal (text : Text)
  | tooLong
  | hostFailure (message : Text)
deriving DecidableEq, Repr

/-- What is wrong with a call, in words; nothing more than the name of the routine is said about the number of
arguments. -/
def BadCall.reason : BadCall → Text
  | .argumentCount => []
  | .notWhole i => "argument " ++ Text.ofNat i ++ " must be a whole number"
  | .negative i => "argument " ++ Text.ofNat i ++ " must be zero or positive"
  | .notPositive i => "argument " ++ Text.ofNat i ++ " must be positive"
  | .notNumber i => "argument " ++ Text.ofNat i ++ " must be a number"
  | .badPad => "pad must be a single character"
  | .badOption options => "option must be one of " ++ options
  | .negativeWithoutLength => "negative number needs a length"
  | .unknownPattern name => "unknown pattern '" ++ name ++ "'"
  | .emptyRange => "maximum is less than minimum"
  | .tooManyPlaces => "too many decimal places"
  | .notSymbol text => "'" ++ text ++ "' is not a symbol"
  | .notHexadecimal text => "'" ++ text ++ "' is not a hexadecimal string"
  | .tooLong => "std::bad_alloc"
  | .hostFailure message => message

/-! ## Faults of a script -/

/-- The settings of numbers that can be given a wrong value. -/
inductive NumericSetting where
  | digits | fuzz
deriving DecidableEq, Repr

/-- The events that the language raises by itself. -/
inductive Fault where
  | noWhen
  | stackFull
  | labelNotFound (label : Text)
  | unexpectedProcedure
  | badExponent (text : Text)
  | notWhole (text : Text)
  | noLoop (var : Option Text)
  | badName (name : Text)
  | badSetting (setting : NumericSetting) (value : Int)
  | notLogical (text : Text)
  | badInterpret (message : Text)
  | interpretBlocked
  | badCall (routine : Text) (why : BadCall)
  | operationFailed (name message : Text)
  | requireFailed (message : Text)
  | notNumber (text : Text)
  | controlNotNumber (var : Text)
  | divisionByZero
  | overflow
  | routineNotFound (name : Text)
  | operationNotFound (name : Text)
  | targetNotFound (name : Text)
  | aliasTaken (name : Text)
  | noData
  | labelInInterpret
  | noValue (name : Text)
  | uninitialized (name : Text)
  | interrupted
deriving DecidableEq, Repr

namespace Fault

def event : Fault → Event
  | .noValue _ | .uninitialized _ => .novalue
  | .interrupted => .halt
  | _ => .syntaxError

def code : Fault → Int
  | .noWhen => 7
  | .stackFull => 11
  | .labelNotFound _ => 16
  | .unexpectedProcedure => 17
  | .badExponent _ | .notWhole _ => 26
  | .noLoop _ => 28
  | .badName _ => 31
  | .badSetting _ _ => 33
  | .notLogical _ => 34
  | .badInterpret _ | .interpretBlocked => 35
  | .badCall _ _ | .operationFailed _ _ | .requireFailed _ => 40
  | .notNumber _ | .controlNotNumber _ => 41
  | .divisionByZero | .overflow => 42
  | .routineNotFound _ | .operationNotFound _ | .targetNotFound _ | .aliasTaken _ => 43
  | .noData => 44
  | .labelInInterpret => 47
  | .noValue _ | .uninitialized _ => 0
  | .interrupted => 4

def wording : Fault → Text
  | .noWhen => "WHEN or OTHERWISE expected"
  | .stackFull => "Control stack full"
  | .labelNotFound label => "Label not found: " ++ label
  | .unexpectedProcedure => "Unexpected PROCEDURE"
  | .badExponent text => "Invalid whole number: exponent '" ++ text ++ "'"
  | .notWhole text => "Invalid whole number: '" ++ text ++ "'"
  | .noLoop none => "Invalid LEAVE or ITERATE"
  | .noLoop (some var) => "Invalid LEAVE or ITERATE: " ++ var
  | .badName name => "Name starts with number or '.': " ++ name
  | .badSetting .digits value => "Invalid NUMERIC DIGITS " ++ Text.ofInt value
  | .badSetting .fuzz value => "Invalid NUMERIC FUZZ " ++ Text.ofInt value
  | .notLogical text => "Logical value not 0 or 1: '" ++ text ++ "'"
  | .badInterpret message => message
  | .interpretBlocked => "INTERPRET is blocked by NO-INTERPRET"
  | .badCall routine .argumentCount => "Incorrect call to routine " ++ routine
  | .badCall routine why => "Incorrect call to routine " ++ routine ++ ": " ++ why.reason
  | .operationFailed name message => "Operation " ++ name ++ " failed: " ++ message
  | .requireFailed message => "REQUIRE failed: " ++ message
  | .notNumber text => "Bad arithmetic conversion: '" ++ text ++ "'"
  | .controlNotNumber var => "Bad arithmetic conversion: control variable " ++ var
  | .divisionByZero => "Arithmetic overflow: division by zero"
  | .overflow => "Arithmetic overflow"
  | .routineNotFound name => "Routine not found: " ++ name
  | .operationNotFound name => "Operation not found: " ++ name
  | .targetNotFound name => "ADDRESS target not found: " ++ name
  | .aliasTaken name => "ADDRESS alias " ++ name ++ " names another target"
  | .noData => "Function did not return data"
  | .labelInInterpret => "Unexpected label in INTERPRET data"
  | .noValue name => name
  | .uninitialized name => "Uninitialized variable " ++ name
  | .interrupted => "Program interrupted"

def trappable : Fault → Bool
  | .interpretBlocked | .requireFailed _ | .uninitialized _ => false
  | _ => true

def condition (f : Fault) : Condition := Condition.of f.event f.code f.wording f.trappable

end Fault

end Rexx
