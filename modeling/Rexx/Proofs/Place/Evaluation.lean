import Rexx.Proofs.Evaluation.Expressions

/-!
# `Place.Evaluation` — where a run is, and what evaluation does to it

The place of a run is what it knows of its program text: the program, the fragments, the cursors of all frames, and
whether it goes on at all.
-/

namespace Rexx

open Engine List

/-! ## Places -/

structure Place where
  status : Status
  program : Program
  fragments : List Fragment
  nextFragment : Nat
  top : List Cursor
  callers : List (List Cursor)

def Interpreter.place {σ : Type} (i : Interpreter σ) : Place :=
  ⟨i.status, i.program, i.fragments, i.nextFragment, i.stack.top.cursors, i.stack.callers.map fun c => c.frame.cursors⟩

def Machine.place {σ : Type} (m : Machine σ) : Place := m.interp.place

namespace Place

/-- **Where a suspended computation leads**: it waits for the host, or a routine after a label has been entered, or it has
found no number for its request. -/
inductive Waits (π : Place) : Place → Prop where
  | held (hold : Hold) : Waits π { π with status := .held hold }
  | entered {label : Text} {k : Nat} (label? : π.program.labels[label]? = some k) (room : π.callers.length + 1 < maxDepth) :
      Waits π { π with top := [.at π.program.body (k + 1) none], callers := π.top :: π.callers }
  | refused : Waits π π

/-- Where a computation that fails leads: in the frame being executed, or in the one below it, it does not matter where,
since the frame goes on at a label or is given up. -/
def Breaks (π π' : Place) : Prop :=
  ∃ top callers, callers <:+ π.callers ∧ π' = { π with top := top, callers := callers }

theorem Breaks.refl (π : Place) : π.Breaks π := ⟨π.top, π.callers, suffix_rfl, rfl⟩

end Place

namespace Machine

variable {σ : Type} {S : Set Site} {m m' : Machine σ}

theorem cursors_of_kept {cs cs' : List Caller} (h : CallersKept cs cs') :
    (cs'.map fun c => c.frame.cursors) = cs.map fun c => c.frame.cursors := by
  induction h with
  | nil => rfl
  | cons hc _ ih => rw [map_cons, map_cons, ih, hc]

theorem Evolves.place (h : m.Evolves S m') : m'.place = m.place := by
  have htop : m'.top.cursors = m.top.cursors := by rw [h.top.same]
  unfold Machine.place Interpreter.place
  rw [htop, cursors_of_kept h.callers, h.interp]

theorem Suspends.waits {R : Machine σ → Machine σ → Prop} (h : m.Suspends R S m') (hR : ∀ m0, R m m0 → m0.place = m.place) :
    m.place.Waits m'.place := by
  cases h with
  | held hp _ _ hh =>
    obtain ⟨q, _, rfl⟩ := Option.map_eq_some_iff.1 hh
    rw [← hR _ hp]
    exact .held _
  | @entered m0 _ _ _ _ hp _ _ he hl hroom =>
    obtain ⟨label, hl⟩ := hl
    rw [← hR _ hp, he]
    exact .entered hl (by simpa [place, Interpreter.place, Stack.depth] using hroom)
  | refused hp =>
    rw [hR _ hp]
    exact .refused

end Machine

namespace Engine

variable {σ α β : Type} {S : Set Site} {m : Machine σ}

/-! ## Computations that leave the place as it is -/

def LingersAt (c : Engine σ α) (m : Machine σ) : Prop :=
  Ensures (fun m m' => m'.place = m.place) (fun m m' => m.place.Breaks m'.place) (fun m m' => m.place.Waits m'.place) c m

/-- **The computation leaves the place as it is**, wherever it is started, unless it fails or is suspended. -/
def Lingers (c : Engine σ α) : Prop := ∀ m, LingersAt c m

theorem LingersAt.bind {a : Engine σ α} {f : α → Engine σ β} (ha : LingersAt a m)
    (hf : ∀ v m', a m = .ok v m' → LingersAt (f v) m') : LingersAt (a >>= f) m :=
  Ensures.bind ⟨fun h h' => h'.trans h, fun h h' => h ▸ h', fun h h' => h ▸ h'⟩ ha hf

theorem LingersAt.of_evaluates {c : Engine σ α} (h : Evaluates S c m) : LingersAt c m :=
  h.imp (fun h => h.place) (fun h => h.place ▸ .refl _) fun h => h.waits fun _ h0 => h0.place

namespace Lingers

theorem bind {a : Engine σ α} {f : α → Engine σ β} (ha : Lingers a) (hf : ∀ v, Lingers (f v)) : Lingers (a >>= f) :=
  fun m => (ha m).bind fun v m' _ => hf v m'

theorem of_ok {c : Engine σ α} (h : ∀ m, ∃ v m', c m = .ok v m' ∧ m'.place = m.place) : Lingers c := by
  intro m
  obtain ⟨v, m', hm, hplace⟩ := h m
  exact .of_ok hm hplace

theorem pure (v : α) : Lingers (Pure.pure v : Engine σ α) := .of_ok fun m => ⟨v, m, rfl, rfl⟩

theorem get : Lingers (MonadState.get : Engine σ (Machine σ)) := .of_ok fun m => ⟨m, m, rfl, rfl⟩

theorem interp : Lingers (interp : Engine σ (Interpreter σ)) := .of_ok fun m => ⟨m.interp, m, rfl, rfl⟩

theorem numeric : Lingers (numeric : Engine σ Number.Settings) := .of_ok fun m => ⟨_, m, rfl, rfl⟩

theorem modifyInterp {f : Interpreter σ → Interpreter σ} (hf : ∀ i, (f i).place = i.place) : Lingers (modifyInterp f) :=
  .of_ok fun m => ⟨⟨⟩, m.modifyInterp f, rfl, hf m.interp⟩

theorem modifyTop {f : Frame → Frame} (hf : ∀ fr, (f fr).cursors = fr.cursors) :
    Lingers (modifyTop f : Engine σ Unit) := by
  refine .modifyInterp fun i => ?_
  show Place.mk _ _ _ _ (f i.stack.top).cursors _ = _
  rw [hf]
  rfl

theorem modifyVariables (f : Variables → Variables) : Lingers (modifyVariables f : Engine σ Unit) :=
  .modifyInterp fun _ => rfl

theorem fail (f : Fault) : Lingers (fail f : Engine σ α) := fun m => .of_raised rfl (.refl m.place)

theorem orFail (r : Except Fault α) : Lingers (orFail r : Engine σ α) := by
  cases r with
  | ok v => exact .pure v
  | error f => exact .fail f

theorem of_evaluates {c : Engine σ α} (h : ∀ m, Evaluates S c m) : Lingers c := fun m => .of_evaluates (h m)

end Lingers

theorem cursors_modifyAt (s : Stack) (depth : Nat) {f : Frame → Frame} (hf : ∀ fr, (f fr).cursors = fr.cursors) :
    (s.modifyAt depth f).top.cursors = s.top.cursors ∧
      ((s.modifyAt depth f).callers.map fun c => c.frame.cursors) = s.callers.map fun c => c.frame.cursors := by
  unfold Stack.modifyAt
  split
  · exact ⟨hf s.top, rfl⟩
  · refine ⟨rfl, ext_getElem? fun k => ?_⟩
    rw [getElem?_map, getElem?_map, getElem?_modify]
    cases s.callers[k]? with
    | none => rfl
    | some c => by_cases hk : s.depth - 1 - depth = k <;> simp [hk, hf]

theorem complete_place (i : Interpreter σ) (depth : Nat) (site : Site) (r : Outcome) :
    (i.complete depth site r).place = i.place := by
  obtain ⟨htop, hcallers⟩ := cursors_modifyAt i.stack depth (f := fun f =>
    { f with
      pool := (Variables.publish ⟨i.store, (i.stack.frames.getD (i.stack.depth - depth) i.stack.top).pool⟩ r.settled).pool
      replies := (site, r.settled) :: f.replies }) fun _ => rfl
  exact congrArg₂ (Place.mk i.status i.program i.fragments i.nextFragment) htop hcallers

/-! ## Expressions -/

theorem lingers_pervasive : Pervasive fun _ (c : Engine σ _) => Lingers c where
  pure := .pure
  bind := .bind
  fail _ := .fail _
  numeric := .numeric
  fetch name := .of_evaluates (S := ∅) (fetch_evaluates name)
  assign name value := .of_evaluates (S := ∅) (assign_evaluates name value)

theorem lingers_evaluative : Evaluative fun _ (c : Engine σ _) => Lingers c where
  toSequential := lingers_pervasive.toSequential
  eval i x := .of_evaluates (eval_evaluates [i] x)

end Engine

end Rexx
