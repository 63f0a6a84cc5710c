import Std.Data.TreeMap
import Rexx.Stmt

/-!
# `Program` — source units

A program is a list of statements with the lines it was read from, for traces and reports, and a table of the labels at
its top level. Of two labels with one name the first counts.
-/

namespace Rexx

abbrev Table (α : Type) := Std.TreeMap Text α

structure Program where
  name : Text
  lines : List Text
  body : List Stmt
  labels : Table Nat

/-- The labels of a list of statements of which the first has index `i`, added to those already met. -/
def labelTable (labels : Table Nat) (i : Nat) : List Stmt → Table Nat
  | [] => labels
  | s :: ss =>
    match s.label? with
    | some name => labelTable (labels.insertIfNew name i) (i + 1) ss
    | none => labelTable labels (i + 1) ss

namespace Program

def ofBody (name : Text) (lines : List Text) (body : List Stmt) : Program :=
  ⟨name, lines, body, labelTable ∅ 0 body⟩

def empty : Program := ofBody [] [] []

def title (p : Program) : Text := if p.name.isEmpty then "<script>" else p.name

def line? (p : Program) (n : Nat) : Option Text := if n = 0 then none else p.lines[n - 1]?

end Program

end Rexx
