import Rexx.Interpolation
import Rexx.Machine.Frame
import Rexx.Module.Loader
import Rexx.Random

/-!
# `Machine.State` — interpreters and machines

An interpreter has a program, the frames in which it runs, the cells of all variables, and what the host has
registered with it.
-/

namespace Rexx

/-! ## Options -/

structure Options where
  numeric : Number.Settings
  timeout : Nat
  directories : List Text
  markers : Text
  noValueFatal : Bool
  trace : Bool
deriving DecidableEq, Repr

/-- The options of an interpreter that is not set up otherwise. -/
def Options.initial : Options := ⟨.initial, 30000, [], MarkerPattern.curly.name, false, false⟩

/-! ## Interpreters -/

structure Hold where
  id : UInt32
  site : Site
  depth : Nat
deriving DecidableEq, Repr

/-- What an interpreter is doing. -/
inductive Status where
  | stopped
  | running
  | held (hold : Hold)
deriving DecidableEq, Repr

/-- The number of the request that an interpreter waits for; zero if it waits for none. -/
def Status.pending : Status → UInt32
  | .held h => h.id
  | _ => 0

structure Trapped where
  name : Text
  desc : Text
  instruction : Text
deriving DecidableEq, Repr

structure Interpreter (σ : Type) where
  id : Nat
  status : Status
  options : Options
  exitCode : Int
  result : Text
  error : Text
  queue : List Text
  input : List Text
  said : Array Text
  diagnostics : Array Text
  functions : Table (Entry (HostFunction σ))
  operations : Table (Entry (HostOperation σ))
  loader : Loader σ
  trapped : Trapped
  line : Nat
  program : Program
  fragments : List Fragment
  nextFragment : Nat
  stack : Stack
  store : Store
  halted : Bool
  interpretBlocked : Bool

def Interpreter.fresh {σ : Type} (id : Nat) : Interpreter σ where
  id := id
  status := .stopped
  options := .initial
  exitCode := 0
  result := []
  error := []
  queue := []
  input := []
  said := #[]
  diagnostics := #[]
  functions := ∅
  operations := ∅
  loader := .empty
  trapped := ⟨[], [], []⟩
  line := 0
  program := .empty
  fragments := []
  nextFragment := 0
  stack := ⟨.fresh, []⟩
  store := .empty
  halted := false
  interpretBlocked := false

namespace Interpreter

variable {σ : Type}

def vars (i : Interpreter σ) : Variables := ⟨i.store, i.stack.top.pool⟩

def mainVariables (i : Interpreter σ) : Variables := ⟨i.store, i.stack.main.pool⟩

def setVariables (i : Interpreter σ) (v : Variables) : Interpreter σ :=
  { i with store := v.store, stack := i.stack.modifyTop fun f => { f with pool := v.pool } }

def setMainVariables (i : Interpreter σ) (v : Variables) : Interpreter σ :=
  { i with store := v.store, stack := i.stack.modifyMain fun f => { f with pool := v.pool } }

def modifyTop (i : Interpreter σ) (f : Frame → Frame) : Interpreter σ := { i with stack := i.stack.modifyTop f }

def expand (i : Interpreter σ) (s : Text) : Text :=
  Interpolation.expand (MarkerPattern.ofName i.options.markers) i.vars.peek? s

def fragmentOf? (i : Interpreter σ) (unit : Option Nat) : Option Fragment :=
  unit.bind fun id => i.fragments.find? fun f => f.id == id

def liveFragments (i : Interpreter σ) : List Fragment :=
  let units := i.stack.frames.flatMap fun f => f.cursors.filterMap Cursor.unit
  i.fragments.filter fun f => units.contains f.id

end Interpreter

/-! ## Machines -/

structure Surroundings (σ : Type) where
  clock : Nat
  random : Generator
  modulePath : Text
  files : Files (SharedObject σ)

/-- An interpreter together with what it may share with others. -/
structure Machine (σ : Type) where
  interp : Interpreter σ
  targets : Registry σ
  channel : Channel
  around : Surroundings σ
  host : σ

namespace Machine

variable {σ : Type}

def modifyInterp (m : Machine σ) (f : Interpreter σ → Interpreter σ) : Machine σ := { m with interp := f m.interp }

/-- The routine that the machine is in, with those that have called it. -/
protected abbrev stack (m : Machine σ) : Stack := m.interp.stack

protected abbrev top (m : Machine σ) : Frame := m.interp.stack.top

protected abbrev modifyTop (m : Machine σ) (f : Frame → Frame) : Machine σ := m.modifyInterp fun i => i.modifyTop f

def hostView (m : Machine σ) : HostView σ :=
  ⟨m.host, m.interp.mainVariables, m.interp.halted, m.interp.line, m.interp.options.numeric⟩

/-- The machine after code of the host. A request to interrupt the script, once made, is not taken back by it. -/
def afterHost (m : Machine σ) (v : HostView σ) : Machine σ :=
  { m with
    host := v.state
    interp := { m.interp.setMainVariables v.main with halted := m.interp.halted || v.halted } }

/-- The machine that waits for the answer to a request; none if the request cannot be posted. -/
def hold? (m : Machine σ) (site : Site) (c : Checkpoint) : Option (Machine σ) :=
  (m.channel.post? m.interp.id (m.around.clock / 1000) m.interp.options.timeout c).map fun (id, channel) =>
    { m with channel, interp := { m.interp with status := .held ⟨id, site, m.stack.depth⟩ } }

/-- The machine in the routine after the label at index `i`, called at a site. -/
def enter (m : Machine σ) (site : Site) (i : Nat) (a : Args) (needsValue : Bool) : Machine σ :=
  let caller := m.top
  let frame : Frame :=
    { Frame.fresh with target := caller.target, args := a, cursors := [.at m.interp.program.body (i + 1) none] }
  (m.modifyInterp fun rx => { rx with stack := ⟨frame, ⟨caller, site, needsValue⟩ :: rx.stack.callers⟩ }).modifyInterp
    fun rx => rx.setVariables (rx.vars.set "SIGL" (Text.ofNat m.interp.line))

def binding? (m : Machine σ) (f : Frame) : Option (Binding σ) := f.target.bind fun name => m.targets[name]?

/-- The active target, if it has a method. -/
def method? (m : Machine σ) (name : Text) : Option Text :=
  if (m.binding? m.top).any fun b => b.target.has name then m.top.target else none

def searchPath (m : Machine σ) : SearchPath σ :=
  ⟨m.interp.options.directories ++ Loader.directoriesOf m.around.modulePath, m.around.files⟩

def loading (m : Machine σ) : Loader.State σ :=
  ⟨m.interp.loader, ⟨m.interp.functions, m.interp.operations, m.targets⟩, m.host⟩

def load (m : Machine σ) (spec as : Text) : Except ModuleFault Registration × Machine σ :=
  let (r, s) := Loader.load m.loading m.searchPath spec as
  (r, { m with
    interp := { m.interp with
      loader := s.loader, functions := s.provisions.functions, operations := s.provisions.operations }
    targets := s.provisions.targets
    host := s.host })

end Machine

end Rexx
