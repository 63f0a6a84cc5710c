import Rexx.Builtin.Basic
import Rexx.Builtin.Numbers
import Rexx.Builtin.Texts
import Rexx.Calendar
import Rexx.Machine.Engine

/-!
# `Machine.Builtin` — calls of built-in functions

Most built-in functions depend on nothing but their arguments; those here also see the state of the interpreter, and a
few of them change it.
-/

namespace Rexx

/-! ## Dates and times -/

def Moment.date (t : Moment) (format : Char) : Text :=
  let two (n : Nat) := Text.zeroPadded 2 n
  match format with
  | 'B' => Text.ofNat (t.days + 719162)
  | 'D' => Text.ofNat t.dayOfYear
  | 'E' => two t.day ++ "/" ++ two t.month ++ "/" ++ t.shortYear
  | 'M' => t.monthName
  | 'O' => t.shortYear ++ "/" ++ two t.month ++ "/" ++ two t.day
  | 'S' => Text.zeroPadded 4 t.year ++ two t.month ++ two t.day
  | 'U' => two t.month ++ "/" ++ two t.day ++ "/" ++ t.shortYear
  | 'W' => t.weekdayName
  | _ => Text.ofNat t.day ++ " " ++ t.monthName.take 3 ++ " " ++ Text.ofNat t.year

def Moment.timeOfDay (t : Moment) (format : Char) : Text :=
  match format with
  | 'C' =>
    let hour := if t.hour % 12 = 0 then 12 else t.hour % 12
    Text.ofNat hour ++ ":" ++ Text.zeroPadded 2 t.minute ++ (if t.hour < 12 then "am" else "pm")
  | 'H' => Text.ofNat t.hour
  | 'M' => Text.ofNat (t.second / 60)
  | 'S' => Text.ofNat t.second
  | 'L' => t.clockTime ++ "." ++ Text.zeroPadded 6 t.micros
  | _ => t.clockTime

namespace Engine

variable {σ : Type}

/-- The value of a computation on arguments; what is wrong with them is reported for a function. -/
def orBadCall {α : Type} (b : Builtin) : Except BadCall α → Engine σ α
  | .ok a => pure a
  | .error why => fail (.badCall b.name why)

/-! ## Functions that see the state -/

/-- ARG: how many arguments there are, one of them, or whether there is one. -/
def argOf (given a : Args) : Except BadCall Text :=
  if a.isEmpty then .ok (Text.ofNat given.size)
  else do
    let n ← a.positive 0
    let has : Bool := n ≤ given.size
    if a.size = 1 then .ok (given.getD (n - 1) [])
    else
      let o ← a.option 1 'E' "EO"
      .ok (ofBool (if o = 'E' then has else !has))

def conditionOf (t : Trapped) (a : Args) : Except BadCall Text := do
  match ← a.option 0 'I' "CDIS" with
  | 'C' => .ok t.name
  | 'D' => .ok t.desc
  | 'S' => .ok (if t.name.isEmpty then "" else "OFF")
  | _ => .ok t.instruction

def randomRange (a : Args) : Except BadCall (Int × Int) :=
  match a.size with
  | 0 => .ok (0, 999)
  | 1 => do .ok (0, ← a.length 0 0)
  | _ => do .ok (← a.whole 0 0, ← a.whole 1 0)

def random (a : Args) : Engine σ Text := do
  let (lo, hi) ← orBadCall .random (randomRange a)
  if a.size = 3 then
    let seed ← orBadCall .random (a.whole 2 0)
    modify fun m => { m with around := { m.around with random := .seed (UInt32.ofInt seed) } }
  if hi < lo then fail (.badCall Builtin.random.name .emptyRange)
  else
    let m ← get
    let (n, random) := m.around.random.between lo hi
    set { m with around := { m.around with random } }
    return Text.ofInt n

/-- INTERPOLATION: the name of the pattern of markers; an argument selects another. -/
def interpolation (a : Args) : Engine σ Text := do
  let old := (← interp).options.markers
  if !a.isEmpty then
    let name := Text.lower (a.text 0)
    if (MarkerPattern.ofName? name).isNone then
      fail (.badCall Builtin.interpolation.name (.unknownPattern (a.text 0)))
    modifyInterp fun i => { i with options := { i.options with markers := name } }
  return old

def symbolOf (v : Variables) (a : Args) : Text :=
  let name := Text.upper (a.text 0)
  if !Text.isName name then "BAD" else if (v.peek? name).isSome then "VAR" else "LIT"

/-- VALUE: the value of the variable that a text names; a second argument is its new value. -/
def value (a : Args) : Engine σ Text := do
  let name := Text.upper (a.text 0)
  if !Text.isName name then fail (.badCall Builtin.value.name (.notSymbol (a.text 0)))
  let v := (← interp).vars
  let old := (v.peek? name).getD (v.derivedName name)
  if a.size = 2 then assign name (a.text 1)
  return old

/-! ## All functions -/

/-- The value of a built-in function for arguments of which the number is right. -/
def builtinValue (b : Builtin) (a : Args) : Engine σ Text := do
  let m ← get
  let i := m.interp
  let now := Moment.ofMicros m.around.clock
  let checked (r : Except BadCall Text) : Engine σ Text := orBadCall b r
  match b with
  | .abs => checked (Builtin.absOf i.options.numeric a)
  | .address => return i.stack.top.targetName
  | .arg => checked (argOf i.stack.top.args a)
  | .center => checked (Builtin.centerOf a)
  | .changestr => checked (Builtin.changestrOf a)
  | .compare => checked (Builtin.compareOf a)
  | .condition => checked (conditionOf i.trapped a)
  | .copies => checked (Builtin.copiesOf a)
  | .countstr => checked (Builtin.countstrOf a)
  | .d2x => checked (Builtin.d2xOf a)
  | .datatype => checked (Builtin.datatypeOf a)
  | .date => checked ((a.option 0 'N' "BDEMNOSUW").map now.date)
  | .delstr => checked (Builtin.delstrOf a)
  | .delword => checked (Builtin.delwordOf a)
  | .digits => return Text.ofInt i.options.numeric.digits
  | .fuzz => return Text.ofInt i.options.numeric.fuzz
  | .insert => checked (Builtin.insertOf a)
  | .interpolation => interpolation a
  | .lastpos => checked (Builtin.lastposOf a)
  | .left => checked (Builtin.leftOf a)
  | .length => return Text.ofNat (a.text 0).length
  | .lower => return Text.lower (a.text 0)
  | .max => checked (Builtin.maxOf i.options.numeric a)
  | .min => checked (Builtin.minOf i.options.numeric a)
  | .pos => checked (Builtin.posOf a)
  | .queued => return Text.ofNat i.queue.length
  | .random => random a
  | .reverse => return (a.text 0).reverse
  | .right => checked (Builtin.rightOf a)
  | .sign => checked (Builtin.signOf a)
  | .space => checked (Builtin.spaceOf a)
  | .strip => checked (Builtin.stripOf a)
  | .substr => checked (Builtin.substrOf a)
  | .subword => checked (Builtin.subwordOf a)
  | .symbol => return symbolOf i.vars a
  | .time => checked ((a.option 0 'N' "CHLMNS").map now.timeOfDay)
  | .translate => checked (Builtin.translateOf a)
  | .trunc => checked (Builtin.truncOf a)
  | .upper => return Text.upper (a.text 0)
  | .value => value a
  | .word => checked (Builtin.wordOf a)
  | .wordindex => checked (Builtin.wordindexOf a)
  | .wordpos => checked (Builtin.wordposOf a)
  | .words => return Text.ofNat (Text.words (a.text 0)).length
  | .x2d => checked (Builtin.x2dOf a)

def callBuiltin (b : Builtin) (a : Args) : Engine σ Text :=
  if b.arity.admits a.size then builtinValue b a else fail (.badCall b.name .argumentCount)

end Engine

end Rexx
