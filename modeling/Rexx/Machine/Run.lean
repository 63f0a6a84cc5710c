import Rexx.Machine.Step

/-!
# `Machine.Run` — running a program

A run is a sequence of ticks. A tick executes one step and deals with what it raised: a condition goes to the nearest
frame that has a trap for it, and otherwise ends the script with a report.
-/

namespace Rexx

namespace Interpreter

variable {σ : Type}

def reportOf (i : Interpreter σ) (c : Condition) (line : Nat) : Text :=
  c.event.name ++ " " ++ Text.ofInt c.code ++ " running " ++ i.program.title ++ ", line " ++ Text.ofNat line ++ ": "
    ++ c.text

def fatal (i : Interpreter σ) (c : Condition) : Interpreter σ :=
  let line := c.line.getD i.line
  let error := i.reportOf c line
  let source := (i.program.line? line).map fun text => Text.untilNul (sourceLine line "+++" text)
  { i with
    diagnostics := (i.diagnostics ++ source.toArray).push (Text.untilNul error)
    error
    exitCode := if 0 < c.code then c.code else 1
    stack := i.stack.unwound.modifyTop fun f => { f.forget with cursors := [] }
    status := .stopped }

def describe (v : Variables) (c : Condition) (line : Nat) : Variables :=
  let v := v.set "SIGL" (Text.ofNat line)
  let v := v.set "ERRORTEXT" c.text
  if c.event = .syntaxError then v.set "RC" (Text.ofInt c.code) else v

/-- The interpreter with a trap sprung: it is removed, and the condition is described. -/
def sprung (i : Interpreter σ) (s : Stack) (event : Event) (c : Condition) (line : Nat) : Interpreter σ :=
  let i :=
    { i with
      stack := s.modifyTop fun f => (f.disarm event).forget
      trapped := ⟨c.event.name, c.text, "SIGNAL"⟩ }
  i.setVariables (describe i.vars c line)

def landed (i : Interpreter σ) (label : Text) (line : Nat) : Interpreter σ :=
  match i.program.labels[label]? with
  | some k => i.modifyTop fun f => { f with cursors := [.at i.program.body (k + 1) none] }
  | none => i.fatal { (Fault.labelNotFound label).condition with line := some line }

/-- Raises a condition: the nearest frame with a trap for it goes on at the label of the trap, and without such a frame
the script ends. -/
def raise (i : Interpreter σ) (c : Condition) : Interpreter σ :=
  let line := c.line.getD i.line
  let c := { c with line := some line }
  match if c.trappable then i.stack.unwindTo c.event else none with
  | none => i.fatal c
  | some ((event, label), stack) => (i.sprung stack event c line).landed label line

/-- The interpreter after a step that was completed in the frame at a depth: what the frame keeps of the clause is
forgotten if it is still the one being executed. -/
def completeStep (i : Interpreter σ) (depth : Nat) : Interpreter σ :=
  if i.stack.depth = depth then i.modifyTop fun f => { f.forget with steps := f.steps + 1 } else i

def begin (i : Interpreter σ) (p : Program) (args : Args) : Interpreter σ :=
  { i with
    program := p
    fragments := []
    stack := i.stack.unwound.modifyTop fun f =>
      { f.forget with traps := [], steps := 0, args, cursors := [.at p.body 0 none] }
    halted := false
    interpretBlocked := false
    exitCode := 0
    result := []
    error := []
    status := .running }

end Interpreter

namespace Machine

variable {σ : Type}

def tick (m : Machine σ) : Machine σ :=
  if m.interp.halted then
    m.modifyInterp fun i => { i with halted := false }.raise Fault.interrupted.condition
  else
    let depth := m.interp.stack.depth
    match Engine.step m with
    | .ok _ m => m.modifyInterp fun i => i.completeStep depth
    | .error .suspended m => m
    | .error (.raised c) m => m.modifyInterp fun i => i.raise c

def run : Nat → Machine σ → Machine σ
  | 0, m => m
  | n + 1, m =>
    match m.interp.status with
    | .running => run n m.tick
    | _ => m

/-- Begins a program; a request that the interpreter waits for is taken off the channel. -/
def begin (m : Machine σ) (p : Program) (args : Args) : Machine σ :=
  let channel := match m.interp.status with
    | .held _ => m.channel.forget m.interp.id
    | _ => m.channel
  { m with channel, interp := m.interp.begin p args }

def start (m : Machine σ) (source name : Text) (args : Args) : Except SyntaxError (Machine σ) :=
  (Program.parse source name).map fun p => m.begin p args

/-- Takes the answer to the request that the interpreter waits for; none if it does not wait for that one. -/
def answer? (m : Machine σ) (r : Response) : Option (Machine σ) :=
  match m.interp.status with
  | .held h =>
    if h.id = r.id then
      some { m with
        channel := (m.channel.withdraw r.id).2
        interp := { m.interp.complete h.depth h.site r.outcome with status := .running } }
    else none
  | _ => none

end Machine

end Rexx
