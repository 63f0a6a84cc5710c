import Rexx.Condition
import Rexx.Expr
import Rexx.Number.Settings
import Rexx.Text.Order

/-!
# `Operator` — what operators compute

Operators are functions of the texts of their operands and of the settings for numbers. They fail with a fault when an
operand is not of the kind that they need, or when the result is not finite.
-/

namespace Rexx

def ofBool (b : Bool) : Text := if b then "1" else "0"

/-- The truth value that a text stands for: any number equal to zero or one. -/
def truth (s : Text) : Except Fault Bool :=
  if s = "1" then .ok true
  else if s = "0" then .ok false
  else match Number.ofText? s with
    | some x => if x == 0.0 then .ok false else if x == 1.0 then .ok true else .error (.notLogical s)
    | none => .error (.notLogical s)

def numberOf (s : Text) : Except Fault Float :=
  match Number.ofText? s with
  | some x => .ok x
  | none => .error (.notNumber s)

def LogicOp.apply : LogicOp → Bool → Bool → Bool
  | .or, x, y => x || y
  | .xor, x, y => x != y
  | .and, x, y => x && y

/-- An arithmetic operation on two numbers; `y` is the number of the text `right`. -/
def ArithOp.compute (op : ArithOp) (x y : Float) (right : Text) : Except Fault Float :=
  match op with
  | .add => .ok (x + y)
  | .sub => .ok (x - y)
  | .mul => .ok (x * y)
  | .div => if y == 0.0 then .error .divisionByZero else .ok (x / y)
  | .intDiv => if y == 0.0 then .error .divisionByZero else .ok (Number.truncate (x / y))
  | .rem => if y == 0.0 then .error .divisionByZero else .ok (Number.remainder x y)
  | .pow =>
    match Number.whole? y with
    | some n => .ok (Float.pow x (Float.ofInt n))
    | none => .error (.badExponent right)

/-- An arithmetic operation on two operands. The first operand that is not a number is the one reported. -/
def ArithOp.apply (s : Number.Settings) (op : ArithOp) (left right : Text) : Except Fault Text := do
  let x ← numberOf left
  let y ← numberOf right
  let v ← op.compute x y right
  if Number.isFinite v then .ok (s.format v) else .error .overflow

/-- The comparison of two operands: as numbers if both are numbers, and otherwise as texts up to blanks. -/
def looseCompare (s : Number.Settings) (left right : Text) : Ordering :=
  match Number.ofText? left, Number.ofText? right with
  | some x, some y => s.compare x y
  | _, _ => Text.paddedCompare left right

def BinaryOp.apply (s : Number.Settings) (op : BinaryOp) (left right : Text) : Except Fault Text :=
  match op with
  | .logic op => do
    let x ← truth left
    let y ← truth right
    .ok (ofBool (op.apply x y))
  | .compare rel => .ok (ofBool (rel.holds (looseCompare s left right)))
  | .strict rel => .ok (ofBool (rel.holds (Text.strictCompare left right)))
  | .concat false => .ok (left ++ right)
  | .concat true => .ok (left ++ ' ' :: right)
  | .arith op => op.apply s left right

def UnaryOp.apply (s : Number.Settings) (op : UnaryOp) (operand : Text) : Except Fault Text :=
  match op with
  | .not => do .ok (ofBool !(← truth operand))
  | .neg => do .ok (s.format (-(← numberOf operand)))
  | .plus => do .ok (s.format (← numberOf operand))

end Rexx
