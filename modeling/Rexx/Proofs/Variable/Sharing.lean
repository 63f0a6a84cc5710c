import Rexx.Proofs.Isolation.Memory

/-!
# `Variable.Sharing` — pools as names for shared cells

Any number of pools have their names in one store, and EXPOSE makes a name of one pool lead to the cell of another
pool.
-/

namespace Rexx

open Pool Std.TreeMap Variables

/-! ## Pools and steps -/

/-- What pools can share. -/
inductive Slot where
  | var (name : Text)
  | stem (name : Text)
deriving DecidableEq

/-- What EXPOSE shares for a name: for a compound name its stem. -/
def Slot.ofName (name : Text) : Slot := (exposedStem? name).elim (.var name) .stem

def Pool.cell? (p : Pool) : Slot → Option Nat
  | .var name => p.var? name
  | .stem name => p.stem? name

/-- Pools of any number, and the store into which their names lead. -/
structure Pools (ι : Type) where
  store : Store
  pool : ι → Pool

inductive PoolStep (ι : Type) where
  | set (p : ι) (name value : Text)
  | drop (p : ι) (name : Text)
  | setTail (p : ι) (stem tail value : Text)
  | dropTail (p : ι) (stem tail : Text)
  | setStem (p : ι) (stem value : Text)
  | dropStem (p : ι) (stem : Text)
  | expose (p q : ι) (name : Text)

namespace PoolStep

variable {ι : Type}

def receiver : PoolStep ι → ι
  | .set p _ _ | .drop p _ | .setTail p _ _ _ | .dropTail p _ _ | .setStem p _ _ | .dropStem p _ | .expose p _ _ => p

def source : PoolStep ι → ι
  | .expose _ q _ => q
  | s => s.receiver

def slot : PoolStep ι → Slot
  | .set _ name _ | .drop _ name => .var name
  | .setTail _ stem _ _ | .dropTail _ stem _ | .setStem _ stem _ | .dropStem _ stem => .stem stem
  | .expose _ _ name => .ofName name

def creates : PoolStep ι → Bool
  | .drop _ _ | .dropTail _ _ _ | .dropStem _ _ => false
  | _ => true

/-- What a step writes to a simple variable: a value, or nothing in its place. -/
def varWrite : PoolStep ι → Option (Option Text)
  | .set _ _ value => some (some value)
  | .drop _ _ => some none
  | _ => none

end PoolStep

namespace Pools

variable {ι : Type}

/-- Pools without names. -/
def empty : Pools ι := ⟨.empty, fun _ => .empty⟩

def at_ (w : Pools ι) (p : ι) : Variables := ⟨w.store, w.pool p⟩

def cell? (w : Pools ι) (p : ι) (k : Slot) : Option Nat := (w.pool p).cell? k

def Shares (w : Pools ι) (p q : ι) (k : Slot) : Prop := ∃ c, w.cell? p k = some c ∧ w.cell? q k = some c

/-- The pool `p` reads in `w` what the pool `q` reads in `w'`: a simple variable, or a stem and every tail of it. -/
def SameReading (w : Pools ι) (p : ι) (w' : Pools ι) (q : ι) : Slot → Prop
  | .var name => (w.at_ p).get? name = (w'.at_ q).get? name
  | .stem stem => (w.at_ p).getStem? stem = (w'.at_ q).getStem? stem ∧
      ∀ tail, (w.at_ p).getTail? stem tail = (w'.at_ q).getTail? stem tail

variable [DecidableEq ι]

/-- Replaces a pool and the store. -/
def put (w : Pools ι) (p : ι) (v : Variables) : Pools ι := ⟨v.store, Function.update w.pool p v.pool⟩

def step (w : Pools ι) : PoolStep ι → Pools ι
  | .set p name value => w.put p ((w.at_ p).set name value)
  | .drop p name => w.put p ((w.at_ p).drop name)
  | .setTail p stem tail value => w.put p ((w.at_ p).setTail stem tail value)
  | .dropTail p stem tail => w.put p ((w.at_ p).dropTail stem tail)
  | .setStem p stem value => w.put p ((w.at_ p).setStem stem value)
  | .dropStem p stem => w.put p ((w.at_ p).dropStem stem)
  | .expose p q name =>
    let shared := w.store.expose (w.pool p) (w.pool q) name
    ⟨shared.1, Function.update (Function.update w.pool q shared.2.2) p shared.2.1⟩

def run (w : Pools ι) (steps : List (PoolStep ι)) : Pools ι := steps.foldl step w

end Pools

/-! ## One pool and the store -/

def Variables.cellFor (v : Variables) (k : Slot) : Nat := (v.pool.cell? k).getD v.store.next

def Variables.nextFor (v : Variables) (k : Slot) : Nat := if v.pool.cell? k = none then v.store.next + 1 else v.store.next

theorem Pool.cell?_insertVar (p : Pool) (name : Text) (i : Nat) (k : Slot) :
    cell? { p with vars := p.vars.insert name i } k = if k = .var name then some i else p.cell? k := by
  cases k with
  | var a => simp [cell?, var?_insert, eq_comm]
  | stem a => simp [cell?, stem?]

theorem Pool.cell?_insertStem (p : Pool) (stem : Text) (i : Nat) (k : Slot) :
    cell? { p with stems := p.stems.insert stem i } k = if k = .stem stem then some i else p.cell? k := by
  cases k with
  | var a => simp [cell?, var?]
  | stem a => simp [cell?, stem?_insert, eq_comm]

namespace Variables

def cellTo (v : Variables) (k : Slot) (makes : Bool) : Option Nat := if makes then some (v.cellFor k) else v.pool.cell? k

structure Changes (v : Variables) (k : Slot) (makes : Bool) (f : Option Text → Option Text) (g : Stem → Stem)
    (v' : Variables) : Prop where
  cell? : ∀ j, v'.pool.cell? j = if j = k then v.cellTo k makes else v.pool.cell? j
  next : v'.store.next = if makes then v.nextFor k else v.store.next
  vars : ∀ c, v'.store.vars[c]? = if v.cellTo k makes = some c then f v.store.vars[c]? else v.store.vars[c]?
  stemAt : ∀ c, v'.store.stemAt c = if v.cellTo k makes = some c then g (v.store.stemAt c) else v.store.stemAt c

namespace Changes

variable {v v' : Variables} {k : Slot} {makes : Bool} {i : Nat}

theorem found (h : v.pool.cell? k = some i) (makes : Bool) : v.Changes k makes id id v ∧ v.cellTo k makes = some i := by
  have hto : v.cellTo k makes = some i := by simp [cellTo, cellFor, h]
  refine ⟨⟨fun j => ?_, by simp [nextFor, h], by simp, by simp⟩, hto⟩
  by_cases hj : j = k
  · rw [if_pos hj, hj, h, hto]
  · rw [if_neg hj]

theorem made (h : v.pool.cell? k = none) {p : Pool}
    (hp : ∀ j, p.cell? j = if j = k then some v.store.next else v.pool.cell? j) :
    v.Changes k true id id ⟨{ v.store with next := v.store.next + 1 }, p⟩ ∧ v.cellTo k true = some v.store.next := by
  have hto : v.cellTo k true = some v.store.next := by simp [cellTo, cellFor, h]
  exact ⟨⟨fun j => hto ▸ hp j, by simp [nextFor, h], by simp, fun c => (ite_self _).symm⟩, hto⟩

theorem absent (h : v.pool.cell? k = none) (f : Option Text → Option Text) (g : Stem → Stem) : v.Changes k false f g v where
  cell? j := by by_cases hj : j = k <;> simp [hj, cellTo]
  next := rfl
  vars c := by simp [cellTo, h]
  stemAt c := by simp [cellTo, h]

theorem setVars (h : v.Changes k makes id id v' ∧ v.cellTo k makes = some i) (vars : Std.TreeMap Nat Text) {x : Option Text}
    (hvars : ∀ c : Nat, vars[c]? = if i = c then x else v'.store.vars[c]?) :
    v.Changes k makes (fun _ => x) id ⟨{ v'.store with vars }, v'.pool⟩ where
  cell? := h.1.cell?
  next := h.1.next
  vars c := by simp [hvars, h.1.vars, h.2]
  stemAt := h.1.stemAt

theorem setStemAt (h : v.Changes k makes id id v' ∧ v.cellTo k makes = some i) (g : Stem → Stem) :
    v.Changes k makes id g ⟨v'.store.setStemAt i (g (v'.store.stemAt i)), v'.pool⟩ where
  cell? := h.1.cell?
  next := h.1.next
  vars := h.1.vars
  stemAt c := by
    rw [Store.stemAt_setStemAt, h.1.stemAt, h.1.stemAt, h.2]
    by_cases hc : i = c <;> simp [hc]

variable (v)

theorem varCell (name : Text) :
    v.Changes (.var name) true id id ⟨(v.store.varCell v.pool name).2.1, (v.store.varCell v.pool name).2.2⟩ ∧
      v.cellTo (.var name) true = some (v.store.varCell v.pool name).1 := by
  have hcell : v.pool.vars[name]? = v.pool.cell? (.var name) := rfl
  rw [Store.varCell, hcell]
  cases hp : v.pool.cell? (.var name) with
  | some i => exact found hp true
  | none => exact made hp (v.pool.cell?_insertVar name _)

theorem stemCell (stem : Text) :
    v.Changes (.stem stem) true id id ⟨(v.store.stemCell v.pool stem).2.1, (v.store.stemCell v.pool stem).2.2⟩ ∧
      v.cellTo (.stem stem) true = some (v.store.stemCell v.pool stem).1 := by
  have hcell : v.pool.stems[stem]? = v.pool.cell? (.stem stem) := rfl
  rw [Store.stemCell, hcell]
  cases hp : v.pool.cell? (.stem stem) with
  | some i => exact found hp true
  | none => exact made hp (v.pool.cell?_insertStem stem _)

theorem set (name value : Text) : v.Changes (.var name) true (fun _ => some value) id (v.set name value) :=
  setVars (varCell v name) ((v.store.varCell v.pool name).2.1.vars.insert (v.store.varCell v.pool name).1 value) fun c => by
    simp [getElem?_insert]

theorem drop (name : Text) : v.Changes (.var name) false (fun _ => none) id (v.drop name) := by
  have hcell : v.pool.vars[name]? = v.pool.cell? (.var name) := rfl
  rw [Variables.drop, hcell]
  cases hp : v.pool.cell? (.var name) with
  | some i => exact setVars (found hp false) (v.store.vars.erase i) fun c => by simp [getElem?_erase]
  | none => exact absent hp _ _

theorem modifyStem (stem : Text) (g : Stem → Stem) : v.Changes (.stem stem) true id g (v.modifyStem stem g) :=
  setStemAt (stemCell v stem) g

theorem modifyStemIfAny (stem : Text) (g : Stem → Stem) : v.Changes (.stem stem) false id g (v.modifyStemIfAny stem g) := by
  have hcell : v.pool.stems[stem]? = v.pool.cell? (.stem stem) := rfl
  rw [Variables.modifyStemIfAny, hcell]
  cases hp : v.pool.cell? (.stem stem) with
  | some i => exact setStemAt (found hp false) g
  | none => exact absent hp _ _

end Changes

end Variables

theorem Store.expose_changes (st : Store) (sharer source : Pool) (name : Text) :
    Changes ⟨st, source⟩ (.ofName name) true id id
        ⟨(st.expose sharer source name).1, (st.expose sharer source name).2.2⟩ ∧
      ∀ k, (st.expose sharer source name).2.1.cell? k =
        if k = .ofName name then cellTo ⟨st, source⟩ (.ofName name) true else sharer.cell? k := by
  have hstem (stem : Text) := Changes.stemCell ⟨st, source⟩ stem
  have hvar := Changes.varCell ⟨st, source⟩ name
  unfold expose Slot.ofName exposedStem? exposeStem
  split
  · exact ⟨(hstem _).1, fun k => (hstem _).2 ▸ sharer.cell?_insertStem _ _ k⟩
  · split
    · exact ⟨(hstem _).1, fun k => (hstem _).2 ▸ sharer.cell?_insertStem _ _ k⟩
    · exact ⟨hvar.1, fun k => hvar.2 ▸ sharer.cell?_insertVar _ _ k⟩

/-! ## The equations of a step -/

namespace Pools

variable {ι : Type} [DecidableEq ι] (w : Pools ι) (s : PoolStep ι) {c : Nat} {k : Slot} {q : ι}

theorem cell?_put (p q : ι) (v : Variables) (k : Slot) :
    (w.put p v).cell? q k = if q = p then v.pool.cell? k else w.cell? q k := by
  unfold cell? put
  by_cases h : q = p
  · simp [h]
  · simp [h]

def target : Option Nat :=
  if s.creates then some ((w.at_ s.source).cellFor s.slot) else w.cell? s.source s.slot

def stemAfter (s : PoolStep ι) (contents : Stem) : Stem :=
  match s with
  | .setTail _ _ tail value => { contents with tails := contents.tails.insert tail value }
  | .dropTail _ _ tail => { contents with tails := contents.tails.erase tail }
  | .setStem _ _ value => ⟨some value, ∅⟩
  | .dropStem _ _ => .empty
  | _ => contents

/-- **What a step does**: it is a change through the pool of its source, and the pools of its receiver and of its source then
have the cell that it went to. -/
structure Performs (v' : Variables) : Prop where
  store : (w.step s).store = v'.store
  changes : (w.at_ s.source).Changes s.slot s.creates (s.varWrite.getD ·) (stemAfter s) v'
  cell? : ∀ q k, (w.step s).cell? q k = if k = s.slot ∧ (q = s.receiver ∨ q = s.source) then w.target s else w.cell? q k

variable {w s} in
theorem Performs.of_put {v' : Variables} (hstep : w.step s = w.put s.receiver v') (hs : s.source = s.receiver)
    (h : (w.at_ s.source).Changes s.slot s.creates (s.varWrite.getD ·) (stemAfter s) v') : w.Performs s v' := by
  refine ⟨congrArg Pools.store hstep, h, fun q k => ?_⟩
  rw [hstep, cell?_put, h.cell?, hs]
  by_cases hq : q = s.receiver
  · by_cases hk : k = s.slot
    · rw [if_pos hq, if_pos hk, if_pos ⟨hk, .inl hq⟩, target, hs]
      rfl
    · rw [if_pos hq, if_neg hk, if_neg fun h => hk h.1, hq]
      rfl
  · rw [if_neg hq, if_neg fun h => hq (h.2.elim id id)]

theorem step_performs : ∃ v', w.Performs s v' := by
  cases s with
  | set p name value => exact ⟨_, .of_put rfl rfl (.set (w.at_ p) name value)⟩
  | drop p name => exact ⟨_, .of_put rfl rfl (.drop (w.at_ p) name)⟩
  | setTail p stem tail value => exact ⟨_, .of_put rfl rfl (.modifyStem (w.at_ p) stem _)⟩
  | setStem p stem value => exact ⟨_, .of_put rfl rfl (.modifyStem (w.at_ p) stem _)⟩
  | dropTail p stem tail => exact ⟨_, .of_put rfl rfl (.modifyStemIfAny (w.at_ p) stem _)⟩
  | dropStem p stem => exact ⟨_, .of_put rfl rfl (.modifyStemIfAny (w.at_ p) stem _)⟩
  | expose p r name =>
    obtain ⟨hsource, hsharer⟩ := Store.expose_changes w.store (w.pool p) (w.pool r) name
    refine ⟨_, rfl, hsource, fun q k => ?_⟩
    have hnames := hsource.cell? k
    simp only [step, cell?, PoolStep.slot, PoolStep.receiver, PoolStep.source, target, PoolStep.creates]
    -- a pool that exposes a name to itself has been updated twice, with the same cell
    by_cases hp : q = p
    · simp [hp, hsharer, at_, cellTo]
    · by_cases hr : q = r
      · have hrp : r ≠ p := fun h => hp (hr.trans h)
        simp [hr, hrp, hnames, at_, cellTo]
      · simp [hp, hr]

theorem cell?_step (q : ι) (k : Slot) :
    (w.step s).cell? q k = if k = s.slot ∧ (q = s.receiver ∨ q = s.source) then w.target s else w.cell? q k := by
  obtain ⟨v', h⟩ := w.step_performs s
  exact h.cell? q k

theorem next_step : (w.step s).store.next = if s.creates then (w.at_ s.source).nextFor s.slot else w.store.next := by
  obtain ⟨v', h⟩ := w.step_performs s
  rw [h.store, h.changes.next]
  rfl

theorem cell?_step_receiver : (w.step s).cell? s.receiver s.slot = w.target s := by
  rw [cell?_step, if_pos ⟨rfl, .inl rfl⟩]

def written (write : PoolStep ι → Option (Option Text)) (c : Nat) (old : Option Text) : Option Text :=
  (if (w.step s).cell? s.receiver s.slot = some c then write s else none).getD old

theorem vars_step (c : Nat) : (w.step s).store.vars[c]? = w.written s PoolStep.varWrite c w.store.vars[c]? := by
  obtain ⟨v', h⟩ := w.step_performs s
  rw [h.store, h.changes.vars, written, cell?_step_receiver]
  show (if w.target s = some c then _ else _) = _
  split <;> rfl

theorem stemAt_step (c : Nat) : (w.step s).store.stemAt c =
      if (w.step s).cell? s.receiver s.slot = some c then stemAfter s (w.store.stemAt c) else w.store.stemAt c := by
  obtain ⟨v', h⟩ := w.step_performs s
  rw [h.store, h.changes.stemAt, cell?_step_receiver]
  rfl

omit [DecidableEq ι] in
theorem get?_eq (p : ι) (name : Text) :
    (w.at_ p).get? name = (w.cell? p (.var name)).bind fun c => w.store.vars[c]? := rfl

omit [DecidableEq ι] in
theorem getTail?_eq (p : ι) (stem tail : Text) : (w.at_ p).getTail? stem tail =
      (w.cell? p (.stem stem)).bind fun c => (w.store.stemAt c).tails[tail]?.or (w.store.stemAt c).fallback := by
  show ((w.cell? p (.stem stem)).map w.store.stemAt).bind _ = _
  cases w.cell? p (.stem stem) <;> rfl

omit [DecidableEq ι] in
theorem getStem?_eq (p : ι) (stem : Text) :
    (w.at_ p).getStem? stem = (w.cell? p (.stem stem)).bind fun c => (w.store.stemAt c).fallback := by
  show ((w.cell? p (.stem stem)).map w.store.stemAt).bind _ = _
  cases w.cell? p (.stem stem) <;> rfl

omit [DecidableEq ι] in
theorem sameReading_of_cells {w w' : Pools ι} {p : ι} (hcell : w.cell? p k = w'.cell? q k)
    (hvars : ∀ c, w.cell? p k = some c → w.store.vars[c]? = w'.store.vars[c]?)
    (hstems : ∀ c, w.cell? p k = some c → w.store.stemAt c = w'.store.stemAt c) : w.SameReading p w' q k := by
  cases k with
  | var name =>
    show (w.at_ p).get? name = (w'.at_ q).get? name
    rw [get?_eq, get?_eq, ← hcell]
    cases hc : w.cell? p (.var name) with
    | none => rfl
    | some c => exact hvars c hc
  | stem stem =>
    constructor
    · rw [getStem?_eq, getStem?_eq, ← hcell]
      cases hc : w.cell? p (.stem stem) with
      | none => rfl
      | some c => exact congrArg Stem.fallback (hstems c hc)
    · intro tail
      rw [getTail?_eq, getTail?_eq, ← hcell]
      cases hc : w.cell? p (.stem stem) with
      | none => rfl
      | some c =>
        show (w.store.stemAt c).tails[tail]?.or _ = _
        rw [hstems c hc]
        rfl

/-! ## Sharing lasts -/

theorem cell?_step_of_some (h : w.cell? q k = some c)
    (hs : ∀ r name, s = .expose q r name → Slot.ofName name ≠ k) : (w.step s).cell? q k = some c := by
  rw [cell?_step]
  split
  · rename_i hk
    obtain ⟨rfl, hq⟩ := hk
    -- the step is about this slot, so the pool is the one in which it finds its cell
    have hsource : s.source = q := by
      cases s with
      | expose p r name =>
        obtain rfl | rfl := hq
        · exact absurd rfl (hs r name rfl)
        · rfl
      | _ =>
        obtain rfl | rfl := hq
        · rfl
        · rfl
    unfold target
    rw [hsource]
    split
    · show some ((w.cell? q s.slot).getD _) = some c
      rw [h]
      rfl
    · exact h
  · exact h

theorem cell?_run_of_some (h : w.cell? q k = some c) {steps : List (PoolStep ι)}
    (hs : ∀ r name, .expose q r name ∈ steps → Slot.ofName name ≠ k) : (w.run steps).cell? q k = some c := by
  induction steps generalizing w with
  | nil => exact h
  | cons s steps ih =>
    refine ih (w.step s) (w.cell?_step_of_some s h fun r name hr => hs r name ?_) fun r name hr => hs r name ?_
    · exact hr ▸ List.mem_cons_self
    · exact List.mem_cons_of_mem _ hr

theorem shares_after_expose (p q : ι) (name : Text) {steps : List (PoolStep ι)}
    (hp : ∀ r name', .expose p r name' ∈ steps → Slot.ofName name' ≠ .ofName name)
    (hq : ∀ r name', .expose q r name' ∈ steps → Slot.ofName name' ≠ .ofName name) :
    ((w.step (.expose p q name)).run steps).Shares p q (.ofName name) := by
  have hcell : ∀ r, r = p ∨ r = q →
      (w.step (.expose p q name)).cell? r (.ofName name) = some ((w.at_ q).cellFor (.ofName name)) := by
    intro r hr
    rw [cell?_step, if_pos ⟨rfl, hr⟩]
    rfl
  exact ⟨_, cell?_run_of_some _ (hcell p (.inl rfl)) hp, cell?_run_of_some _ (hcell q (.inr rfl)) hq⟩

omit [DecidableEq ι] in
theorem Shares.sameReading {w : Pools ι} {p : ι} (h : w.Shares p q k) : w.SameReading p w q k := by
  obtain ⟨c, hp, hq⟩ := h
  exact sameReading_of_cells (hp.trans hq.symm) (fun _ _ => rfl) fun _ _ => rfl

/-! ## What a step leaves alone -/

structure Tidy (w : Pools ι) : Prop where
  below : ∀ {p k c}, w.cell? p k = some c → c < w.store.next
  one : ∀ {p q k j c}, w.cell? p k = some c → w.cell? q j = some c → k = j
  vars : ∀ c, w.store.next ≤ c → w.store.vars[c]? = none
  stems : ∀ c, w.store.next ≤ c → w.store.stemAt c = .empty

omit [DecidableEq ι] in
theorem tidy_empty : (empty : Pools ι).Tidy where
  below {p k c} h := by cases k <;> simp [cell?, empty, Pool.empty, Pool.cell?, Pool.var?, Pool.stem?] at h
  one {p q k j c} h := by cases k <;> simp [cell?, empty, Pool.empty, Pool.cell?, Pool.var?, Pool.stem?] at h
  vars c _ := by simp [empty, Store.empty]
  stems c _ := by simp [empty, Store.empty, Store.stemAt, Std.TreeMap.getD_emptyc]

variable {w s}

theorem next_le_step : w.store.next ≤ (w.step s).store.next := by
  rw [next_step, nextFor]
  split
  · split
    · exact Nat.le_succ _
    · exact le_refl _
  · exact le_refl _

omit [DecidableEq ι] in
theorem cellFor_of_some {p : ι} (h : w.cell? p k = some c) : (w.at_ p).cellFor k = c := congrArg (Option.getD · _) h

omit [DecidableEq ι] in
theorem cellFor_of_none {p : ι} (h : w.cell? p k = none) : (w.at_ p).cellFor k = w.store.next :=
  congrArg (Option.getD · _) h

theorem target_cases (h : w.target s = some c) : w.cell? s.source s.slot = some c ∨
      w.cell? s.source s.slot = none ∧ c = w.store.next ∧ (w.step s).store.next = w.store.next + 1 := by
  unfold target at h
  rw [next_step]
  split at h
  · rename_i hs
    rw [if_pos hs]
    cases hc : w.cell? s.source s.slot with
    | some d => exact .inl ((congrArg some (cellFor_of_some hc)).symm.trans h)
    | none =>
      refine .inr ⟨rfl, (Option.some.inj h).symm.trans (cellFor_of_none hc), ?_⟩
      show (if w.cell? s.source s.slot = none then _ else _) = _
      rw [if_pos hc]
      rfl
  · exact .inl h

theorem view_step {γ : Type} (view : Store → Nat → γ) {d : γ} {F : γ → γ} (hfresh : view w.store w.store.next = d)
    (hd : s.creates = false → F d = d)
    (hview : ∀ c, w.target s = some c → view (w.step s).store c = F (view w.store c)) :
    (((w.step s).cell? s.receiver s.slot).map (view (w.step s).store)).getD d =
      F (((w.cell? s.source s.slot).map (view w.store)).getD d) := by
  rw [cell?_step_receiver]
  cases hc : w.target s with
  | none =>
    unfold target at hc
    split at hc
    · cases hc
    · rename_i hs
      rw [hc]
      exact (hd (by simpa using hs)).symm
  | some c =>
    obtain hold | ⟨hnone, rfl, -⟩ := target_cases hc
    · rw [hold]
      exact hview c hc
    · rw [hnone]
      exact (hview _ hc).trans (congrArg F hfresh)

theorem cell?_step_cases (h : (w.step s).cell? q k = some c) :
    (∃ r, w.cell? r k = some c) ∨ k = s.slot ∧ c = w.store.next ∧ (w.step s).store.next = w.store.next + 1 := by
  rw [cell?_step] at h
  split at h
  · rename_i hk
    obtain hold | hnew := target_cases h
    · exact .inl ⟨s.source, hk.1 ▸ hold⟩
    · exact .inr ⟨hk.1, hnew.2⟩
  · exact .inl ⟨q, h⟩

theorem Tidy.step (h : w.Tidy) (s : PoolStep ι) : (w.step s).Tidy := by
  have hbelow : ∀ {p k c}, (w.step s).cell? p k = some c → c < (w.step s).store.next := by
    intro p k c hc
    obtain ⟨r, hr⟩ | ⟨-, rfl, hnext⟩ := cell?_step_cases hc
    · exact lt_of_lt_of_le (h.below hr) next_le_step
    · omega
  -- what is new begins at the number of the next cell, and a step writes below it
  have hunwritten : ∀ c, (w.step s).store.next ≤ c → (w.step s).cell? s.receiver s.slot ≠ some c := by
    intro c hc hcell
    have := hbelow hcell
    omega
  refine ⟨hbelow, ?_, fun c hc => ?_, fun c hc => ?_⟩
  · intro p q k j c hp hq
    obtain ⟨r, hr⟩ | ⟨hk, hc, -⟩ := cell?_step_cases hp
    · obtain ⟨r', hr'⟩ | ⟨-, hc', -⟩ := cell?_step_cases hq
      · exact h.one hr hr'
      · have := h.below hr
        omega
    · obtain ⟨r', hr'⟩ | ⟨hj, -, -⟩ := cell?_step_cases hq
      · have := h.below hr'
        omega
      · exact hk.trans hj.symm
  · rw [vars_step, written, if_neg (hunwritten c hc)]
    exact h.vars c (next_le_step.trans hc)
  · rw [stemAt_step, if_neg (hunwritten c hc)]
    exact h.stems c (next_le_step.trans hc)

theorem Tidy.run (h : w.Tidy) (steps : List (PoolStep ι)) : (w.run steps).Tidy := by
  induction steps generalizing w with
  | nil => exact h
  | cons s steps ih => exact ih (h.step s)

theorem sameReading_of_unwritten (hcell : (w.step s).cell? q k = w.cell? q k)
    (hc : ∀ c, w.cell? q k = some c → (w.step s).cell? s.receiver s.slot ≠ some c) :
    w.SameReading q (w.step s) q k := by
  refine sameReading_of_cells hcell.symm (fun c hq => ?_) fun c hq => ?_
  · rw [vars_step, written, if_neg (hc c hq)]
    rfl
  · rw [stemAt_step, if_neg (hc c hq)]

theorem Tidy.sameReading_of_ne (h : w.Tidy) (hk : k ≠ s.slot) : w.SameReading q (w.step s) q k := by
  have hcell : (w.step s).cell? q k = w.cell? q k := by
    rw [cell?_step, if_neg fun hks => hk hks.1]
  refine sameReading_of_unwritten hcell fun c hq hs => hk ?_
  exact (h.step s).one (hcell.trans hq) hs

end Pools

def crossShared : List (PoolStep Bool) :=
  [.set true "A" "1", .expose false true "A", .set false "A" "2", .setTail false "S." "X" "3", .expose true false "S.T",
    .setStem true "S." "4"]

end Rexx
