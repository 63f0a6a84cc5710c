import Rexx.Grammar.Statement
import Rexx.Machine.Flow

/-!
# `Machine.Clause` — execution of clauses

A clause evaluates its expressions first, then goes on to the next statement, and only then changes anything; so it
can be executed again as long as its expressions have not been evaluated.
-/

namespace Rexx

def version : Text := "cerexx 1.0"

namespace Engine

variable {σ : Type}

/-! ## Targets, operations and routines -/

/-- The text of a command: a literal as it is written if the active target takes commands so, and otherwise the value. -/
def commandText (site : Site) (b : Option (Binding σ)) (x : Expr) : Engine σ Text :=
  match b, x.literal? with
  | some b, some text => if b.target.interpolates then eval site x else return text
  | _, _ => eval site x

/-- The target that takes the commands of a machine; none if it is the default one. -/
def commandee? (m : Machine σ) : Option Text :=
  (m.binding? m.top).bind fun _ => m.top.target

/-- Sends a command or a method off, and looks at the outcome. -/
def send (name cmd : Text) (params : Params) (method : Bool) : Engine σ Unit := do
  let r ← dispatch [] name cmd params method
  advance
  check r

def carryOut (target : Option Text) (cmd : Text) : Engine σ Unit :=
  match target with
  | some name => send name cmd [] false
  | none => sayCommand cmd

def execCommand (site : Site) (x : Expr) : Engine σ Unit := do
  let m ← get
  carryOut (commandee? m) (← commandText site (m.binding? m.top) x)

/-- Makes a name the active one. -/
def switchTo (name asName auth : Text) : Engine σ Unit := do
  let (targets, target) ← orFail ((← get).targets.switch name auth asName)
  modify fun m => { m with targets }
  modifyTop fun f => { f with target }

/-- Switches the active target, and carries out a command if there is one. -/
def execAddress (name : Text) (auth : Option Expr) (asName : Text) (cmd : Option Expr) : Engine σ Unit := do
  if name.isEmpty then
    advance
    modifyTop fun f => { f with target := none }
  else
    switchTo name asName (← evalOpt [0] auth)
    cmd.elim advance (execCommand [auth.toList.length])

def execHostOperation (name : Text) (op : HostOperation σ) (params : Params) : Engine σ Unit := do
  match ← callHost (op params) with
  | .ok value =>
    advance
    setVar "RESULT" value
  | .error (.condition c) => throw (.raised c)
  | .error (.exception message) => fail (.operationFailed name message)

/-- Goes on if the call that a clause makes has returned. -/
abbrev unlessReturned (c : Engine σ Unit) : Engine σ Unit := orNoted [] (fun _ => advance) c

/-- What CALL does with the values of its arguments. -/
def callWith (name : Text) (a : Args) : Engine σ Unit := do
  let value ← call [] name a false false
  setVar "RESULT" value
  advance

def execCall (name : Text) (args : List Expr) : Engine σ Unit := do callWith name (← evalArgs [] 0 args)

/-- Carries out a clause that is a name, with or without arguments. A bare name may be that of an operation. -/
def execRoutine (name : Text) (args : List Expr) : Engine σ Unit :=
  unlessReturned do
    let operations := (← interp).operations
    match if args.isEmpty then operations[name]? else none with
    | some op => execHostOperation name op.code []
    | none => execCall name args

/-- Carries out an operation of the host, or a method of the active target. -/
def operate (name : Text) (params : Params) : Engine σ Unit := do
  match (← interp).operations[name]? with
  | some op => execHostOperation name op.code params
  | none =>
    match ← targetWith? name with
    | none => fail (.operationNotFound name)
    | some target => send target name params true

/-- Carries out a clause that is a name with named parameters. -/
def execOperation (name : Text) (params : List (Text × Expr)) : Engine σ Unit :=
  unlessReturned do
    let values ← evalArgs [] 0 (params.map Prod.snd)
    operate name ((params.map Prod.fst).zip values)

/-! ## Other clauses -/

def parseTexts : ParseSource → Engine σ (List Text)
  | .arg => return (← top).args
  | .var name => return [← fetch name]
  | .value x => return [← evalOpt [0] x]
  | .pull => return [← pull]
  | .version => return [version]
  | .source => do
    let i ← interp
    let kind : Text := if i.stack.callers.isEmpty then "COMMAND " else "SUBROUTINE "
    return ["LINUX " ++ kind ++ i.program.title]

/-- Takes each text apart by the template at its place; a template without a text takes the empty text. -/
def applyTemplates (letters : Option LetterCase) : List (List Piece) → List Text → Engine σ Unit
  | [], _ => return ()
  | t :: ts, texts => do
    Template.apply fetch assign t (LetterCase.convert letters (texts.headD []))
    applyTemplates letters ts texts.tail

def settingGiven (setting : NumericSetting) : Option Text → Except Fault Int
  | none => .ok (match setting with
    | .digits => Number.Settings.initial.digits
    | .fuzz => Number.Settings.initial.fuzz)
  | some s => match Number.wholeOfText? s with
    | some n => .ok n
    | none => .error (.notWhole s)

/-- The settings with other digits, or another fuzz. The digits stay above the fuzz. -/
def settingsWith (setting : NumericSetting) (now : Number.Settings) (n : Int) : Except Fault Number.Settings :=
  match setting with
  | .digits =>
    if n < 1 || Number.maxDigits < n || n ≤ now.fuzz then .error (.badSetting .digits n) else .ok { now with digits := n }
  | .fuzz => if n < 0 || now.digits ≤ n then .error (.badSetting .fuzz n) else .ok { now with fuzz := n }

def setNumeric (setting : NumericSetting) (given : Option Text) : Engine σ Unit := do
  let n ← orFail (settingGiven setting given)
  let changed ← orFail (settingsWith setting (← numeric) n)
  modifyInterp fun i => { i with options := { i.options with numeric := changed } }

/-- Begins a routine with variables of its own; those named are shared with the caller. -/
def execProcedure (names : List Text) : Engine σ Unit := do
  let s := (← interp).stack
  match s.callers with
  | [] => fail .unexpectedProcedure
  | c :: cs =>
    if s.top.steps ≠ 0 then fail .unexpectedProcedure
    else
      modifyInterp fun i =>
        let (store, pool, callerPool) :=
          names.foldl (fun (st, sharer, source) name => st.expose sharer source name) (i.store, s.top.pool, c.frame.pool)
        { i with
          store
          stack := ⟨{ s.top with pool }, { c with frame := { c.frame with pool := callerPool } } :: cs⟩ }
      advance

/-- Keeps the lines of a text under a number. Fragments in which no block is being executed any more are given up. -/
def adopted (id : Nat) (lines : List Text) (i : Interpreter σ) : Interpreter σ :=
  { i with fragments := i.liveFragments ++ [⟨id, i.line, lines⟩], nextFragment := id + 1 }

def enterText (p : Program) : Engine σ Unit := do
  let i ← interp
  advance
  modifyInterp (adopted i.nextFragment p.lines)
  if !p.body.isEmpty then modifyTop fun f => f.enter (.at p.body 0 (some i.nextFragment))

/-- Runs a text as statements. -/
def runText (source : Text) : Engine σ Unit := do
  match Program.parse source (← interp).program.name with
  | .error e => fail (.badInterpret e.message)
  | .ok p => if !p.labels.isEmpty then fail .labelInInterpret else enterText p

/-- Raises a condition if INTERPRET is not allowed. -/
def permit : Engine σ Unit := do if (← interp).interpretBlocked then fail .interpretBlocked

def execInterpret (x : Expr) : Engine σ Unit := do
  permit
  runText (← eval [0] x)

def loadModule (as spec : Text) : Engine σ Unit := do
  let (r, m) := (← get).load spec as
  set m
  match r with
  | .ok _ => return ()
  | .error f => fail (.requireFailed f.message)

def tracesWith (option : Text) : Bool := !(option = "O" || option = "N" || option = "OFF")

def execClause : Clause → Engine σ Unit
  | .nop | .label _ => advance
  | .noInterpret => do
    modifyInterp fun i => { i with interpretBlocked := true }
    advance
  | .assign name x => do
    let value ← eval [0] x
    advance
    assign name value
  | .say x => do
    let value ← evalOpt [0] x
    advance
    say value
  | .exit x => do exitWith (← evalIfAny (eval [0]) x)
  | .exitUnless code cond message => do
    if ← evalTruth [0] cond then advance
    else
      report (← eval [1] message)
      exitWith (← evalIfAny (eval [2]) code)
  | .ret x => do returnWith (← evalIfAny (eval [0]) x)
  | .push x => do
    let value ← evalOpt [0] x
    advance
    modifyInterp fun i => { i with queue := value :: i.queue }
  | .queue x => do
    let value ← evalOpt [0] x
    advance
    modifyInterp fun i => { i with queue := i.queue ++ [value] }
  | .interpret x => execInterpret x
  | .command x => execCommand [0] x
  | .call name args => unlessReturned (execCall name args)
  | .routine name args => execRoutine name args
  | .operation name params => execOperation name params
  | .signal label => jump label
  | .signalValue x => do jump (Text.upper (← eval [0] x))
  | .signalOn event label => do
    modifyTop fun f => f.arm event label
    advance
  | .signalOff event => do
    modifyTop fun f => f.disarm event
    advance
  | .leave var => leaveLoop var false
  | .iterate var => leaveLoop var true
  | .trace option => do
    modifyInterp fun i => { i with options := { i.options with trace := tracesWith option } }
    advance
  | .parse src letters templates => do
    let texts ← parseTexts src
    advance
    applyTemplates letters templates texts
  | .address name auth asName cmd => execAddress (name.getD []) auth (asName.getD []) cmd
  | .require spec as => do
    let spec ← eval [0] spec
    advance
    loadModule (as.getD []) spec
  | .procedure names => execProcedure names
  | .drop names => do
    modifyVariables fun v => names.foldl Variables.dropName v
    advance
  | .numeric setting x => do
    setNumeric setting (← evalIfAny (eval [0]) x)
    advance
  | .numericForm engineering => do
    modifyInterp fun i =>
      { i with options := { i.options with
          numeric := { i.options.numeric with form := if engineering then .engineering else .scientific } } }
    advance

end Engine

end Rexx
