import Rexx.Builtin.Arguments
import Rexx.Target

/-!
# `Machine.Frame` — where a run is

A program runs in frames, one for each routine that has been called and has not returned. A frame has a pool of
variables and a stack of cursors, one for each block that is being executed. A clause is executed in one step.
-/

namespace Rexx

/-! ## Cursors -/

/-- A place in a clause: the numbers of the children on the way from it up to the clause. -/
abbrev Site := List Nat

/-- Where a loop is between two steps. -/
inductive Phase where
  | test
  | body
  | after
deriving DecidableEq, Repr

structure LoopState where
  control : Control
  guard : Option Guard
  phase : Phase
  limit : Option Float
  step : Float
  left : Option Nat
  tails : List Text

structure Cursor where
  block : List Stmt
  pc : Nat
  unit : Option Nat
  loop : Option LoopState

def Cursor.next (c : Cursor) : Cursor := { c with pc := c.pc + 1 }

def Cursor.at (block : List Stmt) (pc : Nat) (unit : Option Nat) : Cursor := ⟨block, pc, unit, none⟩

structure Fragment where
  id : Nat
  line : Nat
  lines : List Text
deriving DecidableEq, Repr

/-! ## Frames -/

/-- A routine that has been called and has not returned. -/
structure Frame where
  pool : Pool
  target : Option Text
  args : Args
  cursors : List Cursor
  traps : List (Event × Text)
  steps : Nat
  memo : List (Site × Text)
  replies : List (Site × Outcome)

namespace Frame

def fresh : Frame := ⟨.empty, none, [], [], [], 0, [], []⟩

def forget (f : Frame) : Frame := { f with memo := [], replies := [] }

/-- The trap that takes an event: that for the event itself, or one for ERROR where this takes it too. -/
def trap? (f : Frame) (e : Event) : Option (Event × Text) :=
  match f.traps.lookup e with
  | some label => some (e, label)
  | none => if e.fallsToError then (f.traps.lookup .error).map fun label => (.error, label) else none

def disarm (f : Frame) (e : Event) : Frame := { f with traps := f.traps.filter fun (e', _) => e' != e }

def arm (f : Frame) (e : Event) (label : Text) : Frame :=
  { f with traps := (e, label) :: (f.disarm e).traps }

def advance (f : Frame) : Frame := { f with cursors := f.cursors.modifyHead Cursor.next }

def enter (f : Frame) (c : Cursor) : Frame := { f with cursors := c :: f.cursors }

def targetName (f : Frame) : Text := f.target.getD Registry.defaultName

def unit (f : Frame) : Option Nat := f.cursors.head?.bind Cursor.unit

end Frame

/-- A frame that waits for a routine to return. -/
structure Caller where
  frame : Frame
  site : Site
  needsValue : Bool

structure Stack where
  top : Frame
  callers : List Caller

namespace Stack

def depth (s : Stack) : Nat := s.callers.length + 1

def frames (s : Stack) : List Frame := s.top :: s.callers.map Caller.frame

def main (s : Stack) : Frame :=
  match s.callers.getLast? with
  | some c => c.frame
  | none => s.top

def modifyLast (f : Frame → Frame) : List Caller → List Caller
  | [] => []
  | [c] => [{ c with frame := f c.frame }]
  | c :: cs => c :: modifyLast f cs

def modifyMain (s : Stack) (f : Frame → Frame) : Stack :=
  if s.callers.isEmpty then { s with top := f s.top } else { s with callers := modifyLast f s.callers }

def modifyTop (s : Stack) (f : Frame → Frame) : Stack := { s with top := f s.top }

def modifyAt (s : Stack) (depth : Nat) (f : Frame → Frame) : Stack :=
  if depth = s.depth then s.modifyTop f
  else
    { s with callers := s.callers.modify (s.depth - 1 - depth) fun c => { c with frame := f c.frame } }

def unwound (s : Stack) : Stack := ⟨s.main, []⟩

def traps (s : Stack) (e : Event) : Bool := s.frames.any fun f => (f.trap? e).isSome

/-- Gives up frames up to the first one with a trap for an event, from `top` on; the results are the trap and the stack
that is left. -/
def unwindFrom (e : Event) (top : Frame) : List Caller → Option ((Event × Text) × Stack)
  | [] => (top.trap? e).map fun t => (t, ⟨top, []⟩)
  | c :: cs =>
    match top.trap? e with
    | some t => some (t, ⟨top, c :: cs⟩)
    | none => unwindFrom e c.frame cs

/-- Gives up frames up to the first one with a trap for an event. -/
def unwindTo (s : Stack) (e : Event) : Option ((Event × Text) × Stack) := unwindFrom e s.top s.callers

end Stack

def maxDepth : Nat := 250

end Rexx
