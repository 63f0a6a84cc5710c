import Rexx.Machine.Clause

/-!
# `Machine.Step` — one step of a run

`Engine.step` executes one statement, or one round of the control of a loop, or ends a block.
-/

namespace Rexx

def sourceLine (number : Nat) (mark text : Text) : Text :=
  Text.rightAlign 6 (Text.ofNat number) ++ " " ++ mark ++ " " ++ text

namespace Interpreter

variable {σ : Type} (i : Interpreter σ)

/-- The line of a statement; that of its INTERPRET clause if it belongs to a fragment. -/
def lineOf (c : Cursor) (s : Stmt) : Nat := ((i.fragmentOf? c.unit).map Fragment.line).getD s.pos.line

def traceOf (c : Cursor) (s : Stmt) : Option Text :=
  if i.options.trace && i.stack.top.memo.isEmpty && i.stack.top.replies.isEmpty then
    let lines := ((i.fragmentOf? c.unit).map Fragment.lines).getD i.program.lines
    (if s.pos.line = 0 then none else lines[s.pos.line - 1]?).map fun text =>
      Text.untilNul (sourceLine (i.lineOf c s) "*-*" text)
  else none

/-- The interpreter with a statement announced: its line is noted, and it is traced unless it is executed again. -/
def announced (c : Cursor) (s : Stmt) : Interpreter σ :=
  { i with line := i.lineOf c s, diagnostics := i.diagnostics ++ (i.traceOf c s).toArray }

end Interpreter

namespace Engine

variable {σ : Type}

/-! ## Statements -/

/-- Enters the first list whose condition holds; the first condition has site `i`. -/
def execWhens (otherwise : Option (List Stmt)) (i : Nat) : List (Expr × List Stmt) → Engine σ Unit
  | [] =>
    match otherwise with
    | none => fail .noWhen
    | some block => do
      advance
      enterBlock block
  | (cond, block) :: whens => do
    if ← evalTruth [i] cond then
      advance
      enterBlock block
    else execWhens otherwise (i + 1) whens

def exec : Stmt → Engine σ Unit
  | .clause _ c => execClause c
  | .ifThen _ cond thens elses => do
    let b ← evalTruth [0] cond
    advance
    enterBlock (if b then thens else elses)
  | .group _ body => do
    advance
    modifyTop fun f => f.enter (.at body 0 f.unit)
  | .loop _ control guard body => execLoop control guard body
  | .select _ whens otherwise => execWhens otherwise 0 whens

/-! ## Steps -/

def execAt (c : Cursor) (s : Stmt) : Engine σ Unit := do
  modifyInterp fun i => i.announced c s
  exec s

def stepBlock (c : Cursor) : Engine σ Unit :=
  match c.block[c.pc]? with
  | some s => execAt c s
  | none => endBlock c

/-- One step: a clause, the control of a loop, or the end of a block. -/
def step : Engine σ Unit := do
  match (← top).cursors with
  | [] => stop
  | c :: _ =>
    match c.loop with
    | none => stepBlock c
    | some l => if l.phase = .body then stepBlock c else stepLoop l

end Engine

end Rexx
