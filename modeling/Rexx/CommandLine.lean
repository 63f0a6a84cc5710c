import Rexx.Machine.Run

/-!
# `CommandLine` — running one script

The command line names a script and its arguments, after options. The script runs until it stops. Nobody answers
requests here, so a request waits until it is overdue and is then cancelled.
-/

namespace Rexx.CommandLine

/-! ## Arguments -/

structure Invocation where
  directories : List Text
  trace : Bool
  digits : Int
  script : Text
  argument : Text
deriving DecidableEq, Repr

/-- What the command line asks for. -/
inductive Command where
  | version
  | usage
  | badDigits
  | run (inv : Invocation)
deriving DecidableEq, Repr

/-- The arguments of a script as one text, with blanks between them; empty ones at the start do not count. -/
def joinArguments (args : List Text) : Text :=
  args.foldl (fun arg a => if arg.isEmpty then a else arg ++ " " ++ a) []

/-- Whether an argument is an option: it begins with a hyphen and is not a hyphen alone. -/
def isOption (a : Text) : Bool := a.head? == some '-' && a.length != 1

def readFrom (inv : Invocation) : List Text → Command
  | [] => .usage
  | a :: rest =>
    if !isOption a then
      if inv.digits < 1 || Number.maxDigits < inv.digits then .badDigits
      else .run { inv with script := a, argument := joinArguments rest }
    else if a = "-I" then
      match rest with
      | dir :: rest => readFrom { inv with directories := inv.directories ++ [dir] } rest
      | [] => .usage
    else if "-I".toList.isPrefixOf a then readFrom { inv with directories := inv.directories ++ [a.drop 2] } rest
    else if a = "-t" then readFrom { inv with trace := true } rest
    else if a = "-d" then
      match rest with
      | n :: rest => readFrom { inv with digits := Text.leadingWord n } rest
      | [] => .usage
    else if a = "-v" then .version
    else .usage

/-- What a command line asks for; an argument ends at its first null character. -/
def read (args : List Text) : Command :=
  readFrom ⟨[], Options.initial.trace, Options.initial.numeric.digits, [], []⟩ (args.map Text.untilNul)

/-! ## Messages -/

def versionLine : Text := version ++ ['\n']

def usageLine : Text := "usage: cerexx [-I dir]... [-t] [-d digits] [-v] script|- [args...]\n"

def digitsLine : Text := "digits must be 1.." ++ Text.ofInt Number.maxDigits ++ "\n"

def openFailedLine (script : Text) : Text := "file " ++ script ++ " open failed!\n"

def syntaxErrorLine (script : Text) (e : SyntaxError) : Text :=
  script ++ ":" ++ Text.ofNat e.pos.line ++ ":" ++ Text.ofNat e.pos.column ++ ": syntax error: " ++ e.message ++ "\n"

/-- What is printed for a line that is said; it ends at the first null character. -/
def printed (line : Text) : Text := Text.untilNul (line ++ ['\n'])

/-- The exit code as other programs see it: the low eight bits. -/
def exitStatus (code : Int) : Nat := (code % 256).toNat

/-! ## Running -/

section

variable {σ : Type}

def setUp (m : Machine σ) (inv : Invocation) : Machine σ :=
  m.modifyInterp fun i =>
    { i with options := { i.options with
        directories := inv.directories
        trace := inv.trace
        numeric := { i.options.numeric with digits := inv.digits } } }

def start (m : Machine σ) (inv : Invocation) (source : Text) : Except SyntaxError (Machine σ) :=
  (setUp m inv).start source (if inv.script = "-" then "<stdin>" else inv.script) [inv.argument]

/-- Cancels the request that the interpreter waits for, if it is overdue. -/
def giveUp (m : Machine σ) : Machine σ :=
  match m.interp.status with
  | .held h =>
    if (m.channel.overdue (m.around.clock / 1000)).contains h.id then
      (m.answer? (.cancelled h.id "timeout")).getD m
    else m
  | _ => m

def pause : Nat := 10000

def wait (m : Machine σ) : Machine σ := { m with around := { m.around with clock := m.around.clock + pause } }

/-- Runs to the end, for at most the given number of ticks and pauses. -/
def finish : Nat → Machine σ → Machine σ
  | 0, m => m
  | n + 1, m =>
    match m.interp.status with
    | .stopped => m
    | .running => finish n m.tick
    | .held _ => finish n (giveUp (wait m))

/-- What a run of the program leaves behind. -/
structure Output where
  exit : Nat
  stdout : Text
  stderr : Text
deriving DecidableEq, Repr

def runScript (ticks : Nat) (m : Machine σ) (inv : Invocation) (source : Text) : Output :=
  match start m inv source with
  | .error e => ⟨1, [], syntaxErrorLine inv.script e⟩
  | .ok m =>
    let i := (finish ticks m).interp
    ⟨exitStatus i.exitCode, i.said.toList.flatMap printed, i.diagnostics.toList.flatMap fun s => s ++ ['\n']⟩

def perform (ticks : Nat) (m : Machine σ) (open? : Text → Option Text) (stdin : Text) (args : List Text) : Output :=
  match read args with
  | .version => ⟨0, versionLine, []⟩
  | .usage => ⟨2, [], usageLine⟩
  | .badDigits => ⟨2, [], digitsLine⟩
  | .run inv =>
    if inv.script = "-" then runScript ticks m inv stdin
    else match open? inv.script with
      | none => ⟨2, [], openFailedLine inv.script⟩
      | some source =>
        runScript ticks (m.modifyInterp fun i => { i with input := Text.lines stdin }) inv source

/-- Whether the next clause reads a line of the input of which there is none yet. -/
def needsInput (m : Machine σ) : Bool :=
  let i := m.interp
  i.status = .running && !i.halted && i.queue.isEmpty && i.input.isEmpty &&
    match i.stack.top.cursors with
    | c :: _ =>
      match c.block[c.pc]? with
      | some (.clause _ (.parse .pull _ _)) => c.loop.all fun l => l.phase = .body
      | _ => false
    | [] => false

end

end Rexx.CommandLine
