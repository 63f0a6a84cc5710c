import Rexx.Sample.Host

/-!
# `Sample.Modules` — modules to try the loader with

Some of these modules load; the others each fail in one way. They can be put on the shelf of an interpreter, reached
through a resolver, or lie in files.
-/

namespace Rexx.Sample

abbrev Entering := Detecting State

def declare (id desc : Text) (functions : List (Declared (HostFunction State)))
    (operations : List (Declared (HostOperation State))) : Entering (Declaration State) :=
  return ⟨id, desc, functions, operations, none⟩

def declareTarget (id desc : Text) (target : Nat → Target State) : Entering (Declaration State) := do
  let s ← get
  set { s with nextTarget := s.nextTarget + 1 }
  return ⟨id, desc, [], [], some (target s.nextTarget)⟩

/-- A target that takes commands only, and replies by a function of the command. -/
def commandTarget (name : Text) (reply : Text → Reply) (id : Nat) : Target State :=
  ⟨id, name, true, false, true, [], fun cmd _ _ => return reply cmd⟩

def constantly (value : Text) : HostFunction State := fun _ => return value

def digits : HostCode State Int := return (← get).numeric.digits

def square : HostFunction State := fun a => do
  match Number.ofText? (a.text 0) with
  | some x => return Number.format (← digits) .scientific (x * x)
  | none => HostCode.failWith "number expected"

def sum : HostFunction State := fun a => do
  return Number.format (← digits) .scientific ((a.filterMap Number.ofText?).foldl (· + ·) 0.0)

def countArgs (text : Text) : HostFunction State := fun a => return text ++ Text.ofNat a.size

def firstParam : HostOperation State
  | [] => return []
  | (k, v) :: _ => return k ++ ":" ++ v

def record : HostOperation State := fun ps => return "rec[" ++ showParams ps ++ "]"

/-! ## The shelf -/

/-- A module with functions and operations that have descriptions. -/
def several : Entering (Declaration State) :=
  declare "multi" "several"
    [⟨"left", constantly "mine", "hidden by the built-in", []⟩, ⟨"Hello", countArgs "hello", "greets", ["a", "b"]⟩]
    [⟨"Record", record, "records", ["k"]⟩, ⟨"fails", fun _ => HostCode.failWith "op exploded", [], []⟩]

/-- A module that declares a target and a function, which is one too many. -/
def mixed : Entering (Declaration State) := do
  let d ← declareTarget "mixed" [] (commandTarget "mix" fun _ => .now (.done []))
  return { d with functions := [⟨"f", constantly [], [], []⟩] }

def failing (f : DetectFault) : Entering (Declaration State) := throw f

def modules : List (Text × Option (Detect State)) :=
  [("math", some (declare "math-lib" "math" [⟨"square", square, "square a number", ["n"]⟩] [])),
   ("same", some (declare "math-lib" [] [⟨"cube", constantly "27", [], []⟩] [])),
   ("clash", some (declare "clash" [] [⟨"square", constantly "0", [], []⟩] [])),
   ("util", some (declare [] [] [⟨"sum", sum, [], []⟩] [⟨"note", firstParam, [], []⟩])),
   ("opclash", some (declare "opclash" [] [⟨"fresh", constantly "fresh", [], []⟩]
      [⟨"note", fun _ => return "other", [], []⟩])),
   ("empty", some (declare [] [] [] [])),
   ("mixed", some mixed),
   ("kv", some (declareTarget "kv" [] (commandTarget "kv" fun cmd => .now (.done ("kv:" ++ cmd))))),
   ("full", some (declareTarget "full" "full target" fun id =>
      TargetSpec.target ⟨"full", true, true, true, []⟩ id none)),
   ("multi", some several),
   ("boom", some (failing (.exception "detect exploded"))),
   ("merr", some (failing (.refused "module refused"))),
   ("none", none)]

/-- The module that a text names after a mark, if it begins with the mark. -/
def moduleAfter? (mark spec : Text) : Option (Option (Detect State)) :=
  if mark.isPrefixOf spec then modules.lookup (spec.drop mark.length) else none

/-- A resolver for the modules: after `host:` a module is known by the specifier, after `alias:` it is the same as on the
shelf. -/
def resolver (spec : Text) : Option (Image State) :=
  match moduleAfter? "host:" spec, moduleAfter? "alias:" spec with
  | some detect, _ => some ⟨spec, detect⟩
  | none, some detect => some ⟨Loader.shelfMark ++ spec.drop 6, detect⟩
  | none, none => none

/-! ## Files -/

def greet : HostFunction State := fun a => return "hello " ++ (a.head?.getD "world")

def shout : HostOperation State := fun ps => return Text.upper (ps.flatMap Prod.snd)

def greetings : Entering (Declaration State) :=
  declare "sample" "sample greeting module" [⟨"greet", greet, "greet someone", ["name"]⟩]
    [⟨"shout", shout, "upper case the values", []⟩]

def plain : Entering (Declaration State) :=
  declare "nometa" "default entry" [⟨"plain", countArgs "plain", "count arguments", []⟩] []

/-- A module with a target that lets the host answer every command, within a millisecond. -/
def slow : Entering (Declaration State) := declareTarget "slow" [] (commandTarget "slow" fun cmd => .wait ⟨cmd, [], 1⟩)

def files : Files (SharedObject State) :=
  [(["mods", "libsample_module.so"], ⟨some greetings⟩), (["mods", "copy.so"], ⟨some greetings⟩),
   (["mods", "nometa.so"], ⟨some plain⟩), (["mods", "noentry.so"], ⟨none⟩), (["mods", "slow"], ⟨some slow⟩)]

end Rexx.Sample
