import Rexx.Program

/-!
# `Variable.Store` — cells, and pools of names

Values live in the cells of a store. A pool gives names to cells: a simple variable has a cell of its own, and so has
a stem, whose cell holds a value for the whole stem and the values of its tails.
-/

namespace Rexx

structure Stem where
  fallback : Option Text
  tails : Table Text

def Stem.empty : Stem := ⟨none, ∅⟩

def Stem.get? (s : Stem) (tail : Text) : Option Text := s.tails[tail]?.or s.fallback

/-- The cells of all variables, by number. -/
structure Store where
  vars : Std.TreeMap Nat Text
  stems : Std.TreeMap Nat Stem
  next : Nat

def Store.empty : Store := ⟨∅, ∅, 0⟩

/-- The names of a routine, and the cell that each leads to. -/
structure Pool where
  vars : Table Nat
  stems : Table Nat

def Pool.empty : Pool := ⟨∅, ∅⟩

namespace Store

/-! ## Cells -/

/-- The cell of a simple variable, made if the pool does not have the name yet. -/
def varCell (st : Store) (p : Pool) (name : Text) : Nat × Store × Pool :=
  match p.vars[name]? with
  | some i => (i, st, p)
  | none => (st.next, { st with next := st.next + 1 }, { p with vars := p.vars.insert name st.next })

/-- The cell of a stem, made if the pool does not have the name yet. -/
def stemCell (st : Store) (p : Pool) (stem : Text) : Nat × Store × Pool :=
  match p.stems[stem]? with
  | some i => (i, st, p)
  | none => (st.next, { st with next := st.next + 1 }, { p with stems := p.stems.insert stem st.next })

def stemAt (st : Store) (i : Nat) : Stem := st.stems.getD i .empty

def setStemAt (st : Store) (i : Nat) (s : Stem) : Store := { st with stems := st.stems.insert i s }

end Store

/-! ## One pool and the store -/

/-- A pool together with the store that its names lead into. -/
structure Variables where
  store : Store
  pool : Pool

namespace Variables

def get? (v : Variables) (name : Text) : Option Text := v.pool.vars[name]?.bind fun i => v.store.vars[i]?

def set (v : Variables) (name value : Text) : Variables :=
  let (i, store, pool) := v.store.varCell v.pool name
  ⟨{ store with vars := store.vars.insert i value }, pool⟩

def drop (v : Variables) (name : Text) : Variables :=
  match v.pool.vars[name]? with
  | some i => { v with store := { v.store with vars := v.store.vars.erase i } }
  | none => v

def stem? (v : Variables) (stem : Text) : Option Stem := v.pool.stems[stem]?.map v.store.stemAt

/-- Changes the contents of a stem, which is made if there is none. -/
def modifyStem (v : Variables) (stem : Text) (f : Stem → Stem) : Variables :=
  let (i, store, pool) := v.store.stemCell v.pool stem
  ⟨store.setStemAt i (f (store.stemAt i)), pool⟩

def modifyStemIfAny (v : Variables) (stem : Text) (f : Stem → Stem) : Variables :=
  match v.pool.stems[stem]? with
  | some i => { v with store := v.store.setStemAt i (f (v.store.stemAt i)) }
  | none => v

def getTail? (v : Variables) (stem tail : Text) : Option Text := (v.stem? stem).bind fun s => s.get? tail

def setTail (v : Variables) (stem tail value : Text) : Variables :=
  v.modifyStem stem fun s => { s with tails := s.tails.insert tail value }

def dropTail (v : Variables) (stem tail : Text) : Variables :=
  v.modifyStemIfAny stem fun s => { s with tails := s.tails.erase tail }

def getStem? (v : Variables) (stem : Text) : Option Text := (v.stem? stem).bind Stem.fallback

def setStem (v : Variables) (stem value : Text) : Variables := v.modifyStem stem fun _ => ⟨some value, ∅⟩

def dropStem (v : Variables) (stem : Text) : Variables := v.modifyStemIfAny stem fun _ => .empty

def tailsOf (v : Variables) (stem : Text) : List Text := ((v.stem? stem).map fun s => s.tails.keys).getD []

/-! ## Reading a pool out -/

def simpleValues (v : Variables) : List (Text × Text) :=
  v.pool.vars.toList.filterMap fun (name, i) => v.store.vars[i]?.map fun value => (name, value)

def stemValues (v : Variables) : List (Text × Stem) :=
  v.pool.stems.toList.filterMap fun (name, i) =>
    let s := v.store.stemAt i
    if s.fallback.isSome || !s.tails.isEmpty then some (name, s) else none

end Variables

/-! ## Sharing -/

namespace Store

/-- Lets the pool `sharer` share a stem of the pool `source`: both then have the same cell under its name. -/
def exposeStem (st : Store) (sharer source : Pool) (stem : Text) : Store × Pool × Pool :=
  let (i, st, source) := st.stemCell source stem
  (st, { sharer with stems := sharer.stems.insert stem i }, source)

/-- Lets the pool `sharer` share a variable of the pool `source`. -/
def expose (st : Store) (sharer source : Pool) (name : Text) : Store × Pool × Pool :=
  if name.getLast? = some '.' then st.exposeStem sharer source name
  else if name.contains '.' then st.exposeStem sharer source (name.takeWhile (· != '.') ++ ['.'])
  else
    let (i, st, source) := st.varCell source name
    (st, { sharer with vars := sharer.vars.insert name i }, source)

end Store

end Rexx
