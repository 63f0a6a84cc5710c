import Mathlib
import Rexx.Machine.Run

/-!
# `Engine.Outcome` — how computations of the engine end

A computation of the engine ends in one of three ways: with a value, with a condition, or suspended.
-/

namespace Rexx

open Engine

/-! ## Computations with a state and failures -/

section

variable {ε τ α β : Type} {f : α → EStateM ε τ β}

theorem bind_apply (a : EStateM ε τ α) (f : α → EStateM ε τ β) (s : τ) : (a >>= f) s = match a s with
      | .ok v s' => f v s'
      | .error e s' => .error e s' := by
  show EStateM.bind a f s = _
  unfold EStateM.bind
  cases a s <;> rfl

theorem bind_of_ok {a : EStateM ε τ α} {s s' : τ} {v : α} (h : a s = .ok v s') : (a >>= f) s = f v s' := by
  rw [bind_apply, h]

theorem bind_of_error {a : EStateM ε τ α} {s s' : τ} {e : ε} (h : a s = .error e s') : (a >>= f) s = .error e s' := by
  rw [bind_apply, h]

theorem pure_apply (v : α) (s : τ) : (pure v : EStateM ε τ α) s = .ok v s := rfl

theorem get_apply (s : τ) : (get : EStateM ε τ τ) s = .ok s s := rfl

theorem set_apply (s' s : τ) : (set s' : EStateM ε τ PUnit) s = .ok ⟨⟩ s' := rfl

theorem modify_apply (f : τ → τ) (s : τ) : (modify f : EStateM ε τ PUnit) s = .ok ⟨⟩ (f s) := rfl

theorem throw_apply (e : ε) (s : τ) : (throw e : EStateM ε τ α) s = .error e s := rfl

end

namespace Engine

variable {σ α β : Type}

/-- How a computation ends, with the machine that it leaves. -/
abbrev Result (σ α : Type) := EStateM.Result Interrupt (Machine σ) α

/-- The machine in which a computation was given up to be made again. -/
def suspended? : Result σ α → Option (Machine σ)
  | .error .suspended m => some m
  | _ => none

theorem suspended_of_isSome {r : Result σ α} {m : Machine σ} (h : (suspended? r).isSome = true) :
    r = .error .suspended ((suspended? r).getD m) := by
  unfold suspended? at h ⊢
  split at h
  · rfl
  · cases h

theorem ok_of_run' {c : Engine σ α} {m : Machine σ} {v : α} (h : c.run' m = some v) : ∃ m', c m = .ok v m' := by
  rw [EStateM.run', EStateM.run] at h
  cases hc : c m with
  | ok w m' =>
    rw [hc] at h
    cases h
    exact ⟨m', rfl⟩
  | error e m' =>
    rw [hc] at h
    cases h

/-! ## Building blocks -/

theorem fail_apply (f : Fault) (m : Machine σ) : (fail f : Engine σ α) m = .error (.raised f.condition) m := rfl

theorem interp_apply (m : Machine σ) : interp m = .ok m.interp m := rfl

theorem fetch_of_peek? {m : Machine σ} {name s : Text} (h : m.interp.vars.peek? name = some s) : fetch name m = .ok s m := by
  rw [fetch, bind_of_ok (interp_apply m), h]
  rfl

theorem top_apply (m : Machine σ) : top m = .ok m.top m := rfl

theorem modifyInterp_apply (f : Interpreter σ → Interpreter σ) (m : Machine σ) :
    modifyInterp f m = .ok ⟨⟩ (m.modifyInterp f) := rfl

theorem modifyTop_apply (f : Frame → Frame) (m : Machine σ) :
    modifyTop f m = .ok ⟨⟩ (m.modifyTop f) := rfl

theorem numeric_apply (m : Machine σ) : numeric m = .ok m.interp.options.numeric m := rfl

theorem orFail_apply (r : Except Fault α) (m : Machine σ) : (orFail r) m = match r with
      | .ok v => .ok v m
      | .error f => .error (.raised f.condition) m := by
  cases r <;> rfl

section

variable {m : Machine σ} {site : Site} {known : Text → Engine σ α} {c : Engine σ α}

theorem orNoted_of_some {v : Text} (h : m.top.memo.lookup site = some v) : orNoted site known c m = known v m := by
  rw [orNoted, bind_of_ok (top_apply m), h]

theorem orNoted_of_none (h : m.top.memo.lookup site = none) : orNoted site known c m = c m := by
  rw [orNoted, bind_of_ok (top_apply m), h]

end

/-! ## Computations that are never suspended -/

/-- The computation is never suspended. -/
def Immediate (c : Engine σ α) : Prop := ∀ m m1, c m ≠ .error .suspended m1

namespace Immediate

theorem of_ok {c : Engine σ α} (h : ∀ m, ∃ v m', c m = .ok v m') : Immediate c := by
  intro m m1 hc
  obtain ⟨v, m', hv⟩ := h m
  rw [hv] at hc
  cases hc

theorem pure (v : α) : Immediate (Pure.pure v : Engine σ α) := .of_ok fun m => ⟨v, m, rfl⟩

theorem get : Immediate (MonadState.get : Engine σ (Machine σ)) := .of_ok fun m => ⟨m, m, rfl⟩

theorem interp : Immediate (interp : Engine σ (Interpreter σ)) := .of_ok fun m => ⟨m.interp, m, rfl⟩

theorem top : Immediate (top : Engine σ Frame) := .of_ok fun m => ⟨m.top, m, rfl⟩

theorem numeric : Immediate (numeric : Engine σ Number.Settings) := .of_ok fun m => ⟨_, m, rfl⟩

theorem modifyInterp (f : Interpreter σ → Interpreter σ) : Immediate (modifyInterp f) :=
  .of_ok fun m => ⟨⟨⟩, m.modifyInterp f, rfl⟩

theorem modifyTop (f : Frame → Frame) : Immediate (modifyTop f : Engine σ Unit) := .modifyInterp _

theorem modifyVariables (f : Variables → Variables) : Immediate (modifyVariables f : Engine σ Unit) :=
  .modifyInterp _

theorem fail (f : Fault) : Immediate (fail f : Engine σ α) := by
  intro m m1 h
  cases h

theorem raise (e : Condition) : Immediate (throw (.raised e) : Engine σ α) := by
  intro m m1 h
  cases h

theorem orFail (r : Except Fault α) : Immediate (orFail r : Engine σ α) := by
  cases r with
  | ok v => exact .pure v
  | error f => exact .fail f

theorem bind {a : Engine σ α} {f : α → Engine σ β} (ha : Immediate a) (hf : ∀ v, Immediate (f v)) :
    Immediate (a >>= f) := by
  intro m m1 h
  cases hm : a m with
  | ok v m' => exact hf v m' m1 ((bind_of_ok hm).symm.trans h)
  | error e m' =>
    rw [bind_of_error hm] at h
    cases h
    exact ha m m1 hm

theorem ite {p : Prop} [Decidable p] {a b : Engine σ α} (ha : Immediate a) (hb : Immediate b) :
    Immediate (if p then a else b) := by
  split
  · exact ha
  · exact hb

end Immediate

/-! ## Ends and their relations -/

/-- The computation `c`, started on `m`, ends in a machine to which `m` is related: by `G` if it has a value, by `X` if it
raises a condition, and by `S` if it is suspended. -/
def Ensures (G X S : Machine σ → Machine σ → Prop) (c : Engine σ α) (m : Machine σ) : Prop :=
  match c m with
  | .ok _ m' => G m m'
  | .error (.raised _) m' => X m m'
  | .error .suspended m' => S m m'

structure Precedes (A G X S : Machine σ → Machine σ → Prop) : Prop where
  value : ∀ {m m' m''}, A m m' → G m' m'' → G m m''
  raised : ∀ {m m' m''}, A m m' → X m' m'' → X m m''
  suspended : ∀ {m m' m''}, A m m' → S m' m'' → S m m''

variable {A G X S : Machine σ → Machine σ → Prop} {m m' : Machine σ} {c : Engine σ α}

theorem Ensures.ok {v : α} (h : Ensures G X S c m) (hc : c m = .ok v m') : G m m' := by
  simpa only [Ensures, hc] using h

theorem Ensures.raised {e : Condition} (h : Ensures G X S c m) (hc : c m = .error (.raised e) m') : X m m' := by
  simpa only [Ensures, hc] using h

theorem Ensures.suspended (h : Ensures G X S c m) (hc : c m = .error .suspended m') : S m m' := by
  simpa only [Ensures, hc] using h

theorem Ensures.of_ok {v : α} (hc : c m = .ok v m') (h : G m m') : Ensures G X S c m := by
  simpa only [Ensures, hc] using h

theorem Ensures.of_raised {e : Condition} (hc : c m = .error (.raised e) m') (h : X m m') : Ensures G X S c m := by
  simpa only [Ensures, hc] using h

theorem Ensures.of_suspended (hc : c m = .error .suspended m') (h : S m m') : Ensures G X S c m := by
  simpa only [Ensures, hc] using h

theorem Ensures.congr {c' : Engine σ α} (h : Ensures G X S c' m) (heq : c m = c' m) : Ensures G X S c m := by
  simpa only [Ensures, heq] using h

theorem Ensures.imp {G' X' S' : Machine σ → Machine σ → Prop} (h : Ensures G X S c m)
    (hG : ∀ {m'}, G m m' → G' m m') (hX : ∀ {m'}, X m m' → X' m m') (hS : ∀ {m'}, S m m' → S' m m') :
    Ensures G' X' S' c m := by
  cases hc : c m with
  | ok v m' => exact .of_ok hc (hG (h.ok hc))
  | error e m' =>
    cases e with
    | suspended => exact .of_suspended hc (hS (h.suspended hc))
    | raised e => exact .of_raised hc (hX (h.raised hc))

theorem Ensures.bind (hA : Precedes A G X S) {a : Engine σ α} {f : α → Engine σ β} (ha : Ensures A X S a m)
    (hrest : ∀ v m', a m = .ok v m' → Ensures G X S (f v) m') : Ensures G X S (a >>= f) m := by
  cases hc : a m with
  | ok v m1 =>
    have hb : (a >>= f) m = f v m1 := bind_of_ok hc
    have h1 : A m m1 := ha.ok hc
    have h2 := hrest v m1 hc
    cases hr : f v m1 with
    | ok w m2 => exact .of_ok (hb.trans hr) (hA.value h1 (h2.ok hr))
    | error e m2 =>
      cases e with
      | suspended => exact .of_suspended (hb.trans hr) (hA.suspended h1 (h2.suspended hr))
      | raised e => exact .of_raised (hb.trans hr) (hA.raised h1 (h2.raised hr))
  | error e m1 =>
    have hb : (a >>= f) m = .error e m1 := bind_of_error hc
    cases e with
    | suspended => exact .of_suspended hb (ha.suspended hc)
    | raised e => exact .of_raised hb (ha.raised hc)

end Engine

end Rexx
