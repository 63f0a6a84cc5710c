import Std.Time.DateTime.Timestamp
import Rexx.CommandLine

/-!
# `Main` — the program

Reads the command line, the script and the input, and prints what the script says as it runs. Texts are sequences of
bytes, one character for each.
-/

namespace Rexx.CommandLine

def ofBytes (b : ByteArray) : Text := b.toList.map fun x => Char.ofNat x.toNat

def toBytes (t : Text) : ByteArray := ⟨(t.map fun c => c.toNat.toUInt8).toArray⟩

def write (s : IO.FS.Stream) (t : Text) : IO Unit := do
  if !t.isEmpty then
    s.write (toBytes t)
    s.flush

def now : IO Nat := return ((← Std.Time.Timestamp.now).toNanosecondsSinceUnixEpoch.val / 1000).toNat

def readFile (name : Text) : IO (Option Text) := do
  match ← (IO.FS.readBinFile ((String.fromUTF8? (toBytes name)).getD "")).toBaseIO with
  | .ok bytes => return some (ofBytes bytes)
  | .error (.noFileOrDirectory ..) | .error (.permissionDenied ..) => return none
  | .error _ => return some []

/-- Prints what has been said and reported, and takes it from the machine. -/
def flush (m : Machine Unit) : IO (Machine Unit) := do
  write (← IO.getStdout) (m.interp.said.toList.flatMap printed)
  write (← IO.getStderr) (m.interp.diagnostics.toList.flatMap fun s => s ++ ['\n'])
  return m.modifyInterp fun i => { i with said := #[], diagnostics := #[] }

/-- The machine with the next line of the input, if it needs one. -/
def feed (m : Machine Unit) : IO (Machine Unit) := do
  if needsInput m then
    let line := ofBytes (← (← IO.getStdin).getLine).toUTF8
    return m.modifyInterp fun i => { i with input := Text.lines line }
  else return m

partial def runLoop (m : Machine Unit) : IO Nat := do
  let m := { m with around := { m.around with clock := ← now } }
  match m.interp.status with
  | .stopped => return exitStatus m.interp.exitCode
  | .running => runLoop (← flush (← feed m).tick)
  | .held _ =>
    IO.sleep 10
    runLoop (giveUp { m with around := { m.around with clock := ← now } })

def newMachine : IO (Machine Unit) := do
  let clock ← now
  let modulePath := ((← IO.getEnv "CEREXX_PATH").map fun s => ofBytes s.toUTF8).getD []
  return ⟨.fresh 0, ∅, .empty, ⟨clock, .seed (UInt32.ofNat (clock / 1000000)), modulePath, []⟩, ()⟩

def runSource (inv : Invocation) (source : Text) : IO Nat := do
  match start (← newMachine) inv source with
  | .ok m => runLoop m
  | .error e =>
    write (← IO.getStderr) (syntaxErrorLine inv.script e)
    return 1

/-- Does what a command line asks for, and gives the exit code. -/
def runCommand : Command → IO Nat
  | .version => do
    write (← IO.getStdout) versionLine
    return 0
  | .usage => do
    write (← IO.getStderr) usageLine
    return 2
  | .badDigits => do
    write (← IO.getStderr) digitsLine
    return 2
  | .run inv => do
    if inv.script = "-" then
      let source ← (← IO.getStdin).readBinToEnd
      runSource inv (ofBytes source)
    else match ← readFile inv.script with
      | some source => runSource inv source
      | none =>
        write (← IO.getStderr) (openFailedLine inv.script)
        return 2

end Rexx.CommandLine

def main (args : List String) : IO UInt32 := do
  let args := args.map fun a => Rexx.CommandLine.ofBytes a.toUTF8
  return UInt32.ofNat (← Rexx.CommandLine.runCommand (Rexx.CommandLine.read args))
