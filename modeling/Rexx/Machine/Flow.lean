import Rexx.Machine.Eval

/-!
# `Machine.Flow` — blocks, routines and loops

Where a run goes on: blocks are entered and left, labels are jumped to, routines return, loops go round. A loop that
is not in its body is in one of two phases.
-/

namespace Rexx

/-- The exit code that a value stands for: its low 32 bits if it is a whole number, and otherwise zero. -/
def exitCodeOf (value : Option Text) : Int :=
  match value.bind Number.wholeOfText? with
  | some n => Text.toWord n
  | none => 0

/-- Whether a cursor is that of a loop, and of one with the given control variable if there is one. -/
def Cursor.isLoopOf (c : Cursor) (var : Option Text) : Bool :=
  match c.loop, var with
  | none, _ => false
  | some _, none => true
  | some l, some v => l.control.var? == some v

/-- The loop in front of its next round, with a tail and a round less to go. -/
def LoopState.next (l : LoopState) : LoopState :=
  { l with
    phase := .test
    tails := match l.control with
      | .tails _ _ => l.tails.tail
      | _ => l.tails
    left := l.left.map (· - 1) }

namespace Engine

variable {σ : Type}

/-! ## Blocks -/

/-- Enters a block of the unit being executed; an empty one is passed over. -/
def enterBlock (block : List Stmt) : Engine σ Unit :=
  if block.isEmpty then return () else modifyTop fun f => f.enter (.at block 0 f.unit)

def leaveBlock : Engine σ Unit := modifyTop fun f => { f with cursors := f.cursors.tail }

def stop : Engine σ Unit := modifyInterp fun i => { i with status := .stopped }

def jump (label : Text) : Engine σ Unit := do
  let p := (← interp).program
  match p.labels[label]? with
  | some i => modifyTop fun f => { f with cursors := [.at p.body (i + 1) none] }
  | none => fail (.labelNotFound label)

/-- Ends the main program with a value. -/
def finish (value : Option Text) : Engine σ Unit :=
  modifyInterp fun i =>
    { i with
      result := value.getD []
      exitCode := exitCodeOf value
      stack := i.stack.modifyTop fun f => { f with cursors := [] }
      status := .stopped }

/-- Gives the value of a routine to the call that it is for, which fails if it needs one and there is none. -/
def handBack (c : Caller) (value : Option Text) : Engine σ Unit := do
  if c.needsValue && value.isNone then fail .noData
  if !c.needsValue then
    modifyVariables fun v => match value with
      | some value => v.set "RESULT" value
      | none => v.drop "RESULT"
  modifyTop fun f => { f with memo := (c.site, value.getD []) :: f.memo }

/-- Returns from a routine, or from the main program. -/
def returnWith (value : Option Text) : Engine σ Unit := do
  match (← interp).stack.callers with
  | [] => finish value
  | c :: cs =>
    modifyInterp fun i => { i with stack := ⟨c.frame, cs⟩ }
    handBack c value

def exitWith (value : Option Text) : Engine σ Unit :=
  modifyInterp fun i =>
    { i with
      stack := i.stack.unwound.modifyTop fun f => { f with cursors := [] }
      result := value.getD []
      exitCode := exitCodeOf value
      status := .stopped }

def endBlock (c : Cursor) : Engine σ Unit := do
  match c.loop with
  | some l =>
    modifyTop fun f => { f with cursors := { c with loop := some { l with phase := .after } } :: f.cursors.tail }
  | none =>
    let s := (← interp).stack
    if 1 < s.top.cursors.length then leaveBlock
    else if !s.callers.isEmpty then returnWith none
    else
      leaveBlock
      stop

/-! ## Loops -/

def countOf (s : Text) : Except Fault Nat :=
  match Number.wholeOfText? s with
  | some n => if n < 0 then .error (.notWhole s) else .ok n.toNat
  | none => .error (.notWhole s)

def evalCount (site : Site) (x : Expr) : Engine σ Nat := do orFail (countOf (← eval site x))

def evalNumber (site : Site) (x : Expr) : Engine σ Float := do orFail (numberOf (← eval site x))

/-- The value of an expression that may be left out, computed by `f`. -/
def evalIfAny {α : Type} (f : Expr → Engine σ α) : Option Expr → Engine σ (Option α)
  | some x => some <$> f x
  | none => return none

/-- The loop at its start, and the value of its control variable if it is counted. -/
def loopStart (control : Control) (guard : Option Guard) : Engine σ (LoopState × Option Float) := do
  let start : LoopState := ⟨control, guard, .test, none, 1.0, none, []⟩
  match control with
  | .conditional | .forever => return (start, none)
  | .times count => return ({ start with left := some (← evalCount [0] count) }, none)
  | .counted _ first limit by_ count =>
    let x ← evalNumber [0] first
    let limit ← evalIfAny (evalNumber [1]) limit
    let step ← evalIfAny (evalNumber [2]) by_
    let left ← evalIfAny (evalCount [3]) count
    return ({ start with limit, step := step.getD 1.0, left }, some x)
  | .tails _ stem => return ({ start with tails := (← interp).vars.tailsOf stem }, none)

/-- Gives the control variable of a loop that is counted its first value. -/
def assignFirst (control : Control) (first : Option Float) : Engine σ Unit :=
  match control.var?, first with
  | some var, some x => do assign var (← formatNumber x)
  | _, _ => return ()

/-- Goes into a loop of which all is known. -/
def beginLoop (control : Control) (body : List Stmt) (loop : LoopState) (first : Option Float) : Engine σ Unit := do
  advance
  assignFirst control first
  modifyTop fun f => f.enter ⟨body, 0, f.unit, some loop⟩

def execLoop (control : Control) (guard : Option Guard) (body : List Stmt) : Engine σ Unit := do
  let (loop, first) ← loopStart control guard
  beginLoop control body loop first

/-- Changes the innermost block. -/
def modifyCursor (g : Cursor → Cursor) : Engine σ Unit :=
  modifyTop fun f => { f with cursors := f.cursors.modifyHead g }

def setLoop (l : LoopState) : Engine σ Unit := modifyCursor fun c => { c with loop := some l }

def controlValue (var : Text) : Engine σ Float := do
  match Number.ofText? (← fetch var) with
  | some x => return x
  | none => fail (.controlNotNumber var)

/-- Counts the control variable of a loop on. -/
def countOn (l : LoopState) : Engine σ Unit := do
  match l.control with
  | .counted var _ _ _ _ => assign var (← formatNumber ((← controlValue var) + l.step))
  | _ => return ()

def reachRound (l : LoopState) : Engine σ Unit := do
  countOn l
  setLoop l.next

def controlAdmits (l : LoopState) : Engine σ Bool := do
  if l.left == some 0 then return false
  match l.control with
  | .tails var _ =>
    match l.tails with
    | [] => return false
    | t :: _ =>
      assign var t
      return true
  | .counted var _ _ _ _ =>
    match l.limit with
    | none => return true
    | some limit =>
      let x ← controlValue var
      return !(if l.step >= 0.0 then x > limit else x < limit)
  | _ => return true

/-- Whether the condition of a loop lets a further round begin. -/
def guardAdmits : Option Guard → Engine σ Bool
  | some (.whilst x) => evalTruth [0] x
  | _ => return true

def guardEnds : Option Guard → Engine σ Bool
  | some (.untilTrue x) => evalTruth [0] x
  | _ => return false

def beginRound (l : LoopState) : Engine σ Unit :=
  modifyCursor fun c => { c with pc := 0, loop := some { l with phase := .body } }

def testLoop (l : LoopState) : Engine σ Unit := do
  if !(← controlAdmits l) then leaveBlock
  else if !(← guardAdmits l.guard) then leaveBlock
  else beginRound l

/-- One round of the control of a loop that is not in its body. -/
def stepLoop (l : LoopState) : Engine σ Unit := do
  if l.phase = .after then
    if ← guardEnds l.guard then leaveBlock
    else
      reachRound l
      testLoop l.next
  else testLoop l

/-- Leaves a loop, or goes on with its next round, and gives up all blocks inside it. -/
def leaveLoop (var : Option Text) (again : Bool) : Engine σ Unit := do
  match (← top).cursors.dropWhile fun c => !c.isLoopOf var with
  | [] => fail (.noLoop var)
  | c :: cs =>
    let loop := c.loop.map fun l => { l with phase := .after }
    modifyTop fun f => { f with cursors := if again then { c with loop } :: cs else cs }

end Engine

end Rexx
