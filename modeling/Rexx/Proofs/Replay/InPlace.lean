import Rexx.Proofs.Replay.Passes

/-!
# `Replay.InPlace` — evaluation in place

`evalInPlace` evaluates an expression from left to right, each part of it once.
-/

namespace Rexx.Engine

open Replays Site

variable {σ α β : Type} {S T : Set Site} {site : Site} {P : Machine σ → Prop}
  {ρ : Machine σ → Machine σ → Prop} {m : Machine σ}

/-! ## Evaluation in place -/

/-- The computation, made once. -/
def Once (c : Engine σ α) (m : Machine σ) (r : Result σ α) : Prop := c m = r

def Noting (site : Site) (A : Machine σ → Result σ Text → Prop) : Machine σ → Result σ Text → Prop :=
  Sequel A fun v m r => r = .ok v (m.note site v)

inductive Awaited (ρ : Machine σ → Machine σ → Prop) (site : Site) (c : Engine σ Text) :
    Machine σ → Result σ Text → Prop where
  | value {m m' : Machine σ} {v : Text} (h : c m = .ok v m') : Awaited ρ site c m (.ok v (m'.note site v))
  | raises {m m' : Machine σ} {e : Condition} (h : c m = .error (.raised e) m') :
      Awaited ρ site c m (.error (.raised e) m')
  | returned {m m1 u : Machine σ} {v : Text} (h : c m = .error .suspended m1) (resume : ρ m1 u)
      (hv : u.top.memo.lookup site = some v) : Awaited ρ site c m (.ok v u)
  | answered {m m1 u : Machine σ} {r : Result σ Text} (h : c m = .error .suspended m1) (resume : ρ m1 u)
      (hn : u.top.memo.lookup site = none) (rest : Awaited ρ site c u r) : Awaited ρ site c m r

mutual

def evalInPlace (ρ : Machine σ → Machine σ → Prop) (site : Site) : Expr → Machine σ → Result σ Text → Prop
  | .literal text quote =>
    if Expr.isMarked text quote then Noting site (Once do return (← interp).expand text) else Once (pure text)
  | .symbol name => Noting site (Once (fetch name))
  | .call name quoted args =>
    Sequel (argsInPlace ρ site 0 args) fun a => Awaited ρ site (call site name a true quoted)
  | .binary op left right =>
    Sequel (evalInPlace ρ (0 :: site) left) fun a =>
      Sequel (evalInPlace ρ (1 :: site) right) fun b => Once do orFail (op.apply (← numeric) a b)
  | .unary op operand =>
    Sequel (evalInPlace ρ (0 :: site) operand) fun a => Once do orFail (op.apply (← numeric) a)
  | .pipe value name =>
    Sequel (evalInPlace ρ (0 :: site) value) fun v => Awaited ρ site (call site name [v] true false)
  | .pipeCall value name args =>
    Sequel (Sequel (evalInPlace ρ (0 :: site) value) fun v =>
        Sequel (filledInPlace ρ site v 1 args) fun a => Once (pure (if args.any Expr.isHole then a else v :: a)))
      fun a => Awaited ρ site (call site name a true false)

/-- The values of arguments, evaluated in place. -/
def argsInPlace (ρ : Machine σ → Machine σ → Prop) (site : Site) (i : Nat) :
    List Expr → Machine σ → Result σ (List Text) → Prop
  | [] => Once (pure [])
  | x :: xs =>
    Sequel (evalInPlace ρ (i :: site) x) fun a =>
      Sequel (argsInPlace ρ site (i + 1) xs) fun as => Once (pure (a :: as))

def filledInPlace (ρ : Machine σ → Machine σ → Prop) (site : Site) (v : Text) (i : Nat) :
    List Expr → Machine σ → Result σ (List Text) → Prop
  | [] => Once (pure [])
  | x :: xs =>
    Sequel (if x.isHole then Once (pure v) else evalInPlace ρ (i :: site) x) fun a =>
      Sequel (filledInPlace ρ site v (i + 1) xs) fun as => Once (pure (a :: as))

end

/-! ## Parts that are made once -/

theorem Sequel.congr {A A' : Machine σ → Result σ α → Prop} {F F' : α → Machine σ → Result σ β → Prop}
    (hA : ∀ r, A m r ↔ A' m r) (hF : ∀ v m', A m (.ok v m') → ∀ r, F v m' r ↔ F' v m' r) (r : Result σ β) :
    Sequel A F m r ↔ Sequel A' F' m r := by
  constructor
  · rintro (⟨v, m', hv, hr⟩ | ⟨e, m', he, hr⟩)
    · exact .inl ⟨v, m', (hA _).1 hv, (hF v m' hv r).1 hr⟩
    · exact .inr ⟨e, m', (hA _).1 he, hr⟩
  · rintro (⟨v, m', hv, hr⟩ | ⟨e, m', he, hr⟩)
    · have hv' := (hA _).2 hv
      exact .inl ⟨v, m', hv', (hF v m' hv' r).2 hr⟩
    · exact .inr ⟨e, m', (hA _).2 he, hr⟩

theorem replays_iff_once {c : Engine σ α} (hc : Immediate c) (r : Result σ α) : Replays ρ c m r ↔ Once c m r := by
  constructor
  · intro h
    cases h with
    | value h => exact h
    | raises h => exact h
    | again h => exact absurd h (hc _ _)
  · rintro rfl
    exact .of_immediate hc m

section

variable {c c' : Engine σ β} {a : Engine σ α} {f : α → Engine σ β} {F : α → Machine σ → Result σ β → Prop}
  {m m' : Machine σ} {r : Result σ β}

theorem sequel_once_of_ok {v : α} (h : a m = .ok v m') : Sequel (Once a) F m r ↔ F v m' r := by
  simp [Sequel, Once, h]

theorem sequel_once_of_raised {e : Condition} (h : a m = .error (.raised e) m') :
    Sequel (Once a) F m r ↔ r = .error (.raised e) m' := by
  simp [Sequel, Once, h]

theorem Replays.congr_first (h : c m = c' m')
    (hrest : ∀ m1 u, c' m' = .error .suspended m1 → ρ m1 u → (Replays ρ c u r ↔ Replays ρ c' u r)) :
    Replays ρ c m r ↔ Replays ρ c' m' r := by
  constructor
  · intro hr
    cases hr with
    | value hr => exact .value (h.symm.trans hr)
    | raises hr => exact .raises (h.symm.trans hr)
    | again hr resume rest => exact .again (h.symm.trans hr) resume ((hrest _ _ (h.symm.trans hr) resume).1 rest)
  · intro hr
    cases hr with
    | value hr => exact .value (h.trans hr)
    | raises hr => exact .raises (h.trans hr)
    | again hr resume rest => exact .again (h.trans hr) resume ((hrest _ _ hr resume).2 rest)

theorem Replays.raised_iff {e : Condition} (h : c m = .error (.raised e) m') :
    Replays ρ c m r ↔ r = .error (.raised e) m' := by
  refine ⟨fun hr => ?_, fun hr => hr ▸ .raises h⟩
  cases hr with
  | value hr => cases h.symm.trans hr
  | raises hr => exact hr.symm.trans h
  | again hr => cases h.symm.trans hr

theorem Replays.bind_standing_iff {Q : α → Machine σ → Prop} (ha : Immediate a) (hQ : ∀ v u, Q v u → a u = .ok v u)
    (hkeep : ∀ v u m1 u', a m = .ok v u ∨ Q v u → f v u = .error .suspended m1 → ρ m1 u' → Q v u') :
    Replays ρ (a >>= f) m r ↔ Sequel (Once a) (fun v => Replays ρ (f v)) m r := by
  cases h : a m with
  | ok v m' =>
    rw [sequel_once_of_ok h]
    refine congr_first (bind_of_ok h) fun m1 u hs hr => ?_
    exact congr (fun u hu => bind_of_ok (hQ v u hu)) (fun u m1 u' hu => hkeep v u m1 u' (.inr hu))
      (hkeep v m' m1 u (.inl h) hs hr)
  | error e m' =>
    cases e with
    | suspended => exact absurd h (ha _ _)
    | raised e => rw [sequel_once_of_raised h, raised_iff (bind_of_error h)]

/-- A part that is made again at each return, and changes nothing that the rest looks at, may be seen as part of the way
back. -/
theorem Replays.bind_again_iff {a : Engine σ Unit} {f : Unit → Engine σ β} (ha : ∀ m, ∃ u, a m = .ok () u)
    (hm : a m = .ok () m') :
    Replays ρ (a >>= f) m r ↔ Replays (fun m u => ∃ w, ρ m w ∧ a w = .ok () u) (f ()) m' r := by
  constructor
  · intro h
    induction h generalizing m' with
    | value h => exact .value ((bind_of_ok hm).symm.trans h)
    | raises h => exact .raises ((bind_of_ok hm).symm.trans h)
    | @again _ _ u _ h resume _ ih =>
      obtain ⟨u', hu'⟩ := ha u
      exact .again ((bind_of_ok hm).symm.trans h) ⟨u, resume, hu'⟩ (ih hu')
  · intro h
    induction h generalizing m with
    | value h => exact .value ((bind_of_ok hm).trans h)
    | raises h => exact .raises ((bind_of_ok hm).trans h)
    | again h resume _ ih =>
      obtain ⟨w, hw, hu⟩ := resume
      exact .again ((bind_of_ok hm).trans h) hw (ih hu)

end

theorem replays_remember_iff_awaited {c : Engine σ Text}
    (hn : m.top.memo.lookup site = none) (r : Result σ Text) :
    Replays ρ (remember site c) m r ↔ Awaited ρ site c m r := by
  constructor
  · intro h
    induction h with
    | @value m m' v h =>
      cases hc : c m with
      | ok w m1 =>
        rw [remember_of_ok hn hc] at h
        cases h
        exact .value hc
      | error e m1 =>
        rw [remember_of_error hn hc] at h
        cases h
    | @raises m m' e h =>
      cases hc : c m with
      | ok w m1 =>
        rw [remember_of_ok hn hc] at h
        cases h
      | error e m1 =>
        rw [remember_of_error hn hc] at h
        cases h
        exact .raises hc
    | @again m m1 u r h resume rest ih =>
      cases hc : c m with
      | ok w m2 =>
        rw [remember_of_ok hn hc] at h
        cases h
      | error e m2 =>
        rw [remember_of_error hn hc] at h
        cases h
        cases hu : u.top.memo.lookup site with
        | none => exact .answered hc resume hu (ih hu)
        | some v =>
          -- The routine has returned: the next pass finds its value.
          have hv : r = .ok v u := by
            cases rest with
            | value h => exact h.symm.trans (remember_of_some hu)
            | raises h => exact h.symm.trans (remember_of_some hu)
            | again h => exact absurd (h.symm.trans (remember_of_some hu)) (by simp)
          exact hv ▸ .returned hc resume hu
  · intro h
    induction h with
    | value h => exact .value (remember_of_ok hn h)
    | raises h => exact .raises (remember_of_error hn h)
    | returned h resume hv => exact .again (remember_of_error hn h) resume (.value (remember_of_some hv))
    | answered h resume hu _ ih => exact .again (remember_of_error hn h) resume (ih hu)

theorem replays_remember_iff_noting {c : Engine σ Text} (hc : Immediate c)
    (hn : m.top.memo.lookup site = none) (r : Result σ Text) :
    Replays ρ (remember site c) m r ↔ Noting site (Once c) m r := by
  rw [replays_remember_iff_awaited hn]
  constructor
  · intro h
    cases h with
    | value h => exact .inl ⟨_, _, h, rfl⟩
    | raises h => exact .inr ⟨_, _, h, rfl⟩
    | returned h => exact absurd h (hc _ _)
    | answered h => exact absurd h (hc _ _)
  · rintro (⟨v, m', h, rfl⟩ | ⟨e, m', h, rfl⟩)
    · exact .value h
    · exact .raises h

/-! ## Parts of which nothing is noted -/

def Unnoted (S : Set Site) (m : Machine σ) : Prop := ∀ k ∈ S, m.top.memo.lookup k = none

theorem Unnoted.mono (h : Unnoted T m) (hs : S ⊆ T) : Unnoted S m := fun k hk => h k (hs hk)

theorem Unnoted.later {u : Machine σ} (h : Unnoted T m) (hu : m.Later S u) (hd : ∀ k ∈ T, k ∉ S) : Unnoted T u :=
  fun k hk => (hu.top.memo_eq (hd k hk)).trans (h k hk)

/-! ## Passes and evaluation in place -/

/-- **A part whose passes come to what it comes to in place**, as long as nothing is noted for its sites. -/
structure Operand (P : Machine σ → Prop) (ρ : Machine σ → Machine σ → Prop) (S : Set Site) (a : Engine σ α)
    (A : Machine σ → Result σ α → Prop) : Prop where
  settles : Settles P ρ a
  evaluates : ∀ m, Evaluates S a m
  iff : ∀ {m}, P m → Unnoted S m → ∀ r, Replays ρ a m r ↔ A m r

/-- The sites below a site, from the `i`-th part on. -/
def partsFrom (site : Site) (i : Nat) : Set Site := {k | ∃ j, i ≤ j ∧ k ∈ tree (j :: site)}

theorem partsFrom_subset (site : Site) (i : Nat) : partsFrom site i ⊆ site.inner := fun _ ⟨j, _, hk⟩ => ⟨j, hk⟩

namespace Operand

variable {U : Set Site} {a : Engine σ α} {A : Machine σ → Result σ α → Prop} {f : α → Engine σ β}
  {F : α → Machine σ → Result σ β → Prop}

theorem pure (v : α) : Operand P ρ S (Pure.pure v) (Once (Pure.pure v)) :=
  ⟨.pure v, .pure v, fun _ _ => replays_iff_once (.pure v)⟩

theorem operator (g : Number.Settings → Except Fault α) :
    Operand P ρ S (numeric >>= fun s => orFail (g s)) (Once (numeric >>= fun s => orFail (g s))) :=
  ⟨.of_numeric g, numeric_evaluates g, fun _ _ => replays_iff_once (.bind .numeric fun s => .orFail (g s))⟩

theorem mono (h : Operand P ρ S a A) (hs : S ⊆ T) : Operand P ρ T a A :=
  ⟨h.settles, fun m => (h.evaluates m).mono hs, fun hP hm => h.iff hP (hm.mono hs)⟩

theorem noting {c : Engine σ Text} (hc : Immediate c) (he : ∀ m, Evaluates site.tree c m) :
    Operand P ρ site.tree (remember site c) (Noting site (Once c)) :=
  have hnoted := fun m => remember_evaluates site.self_mem_tree fun _ => he m
  ⟨remember_settles hnoted, hnoted, fun _ hm => replays_remember_iff_noting hc (hm site site.self_mem_tree)⟩

variable (hρ : Faithful P ρ) (ha : Operand P ρ S a A)
include hρ

include ha in
theorem bind (hf : ∀ v, Operand P ρ T (f v) (F v)) (hS : S ⊆ U) (hT : T ⊆ U) (hd : ∀ k ∈ T, k ∉ S) :
    Operand P ρ U (a >>= f) (Sequel A F) := by
  refine ⟨.bind hρ ha.settles fun v => (hf v).settles, fun m => .bind ((ha.evaluates m).mono hS) fun v m1 _ =>
    ((hf v).evaluates m1).mono hT, fun {m} hP hm r => ?_⟩
  rw [bind_iff hρ ha.settles (fun v => .of_evaluates hρ (hf v).evaluates) hP]
  refine Sequel.congr (ha.iff hP (hm.mono hS)) (fun v m1 h1 => ?_) r
  have hlater := h1.later_of_ok hρ ha.evaluates hP
  exact (hf v).iff (hρ.keeps hP hlater) ((hm.mono hT).later hlater hd)

include ha in
/-- What follows a part and evaluates nothing more. -/
theorem next (hf : ∀ v, Operand P ρ ∅ (f v) (F v)) : Operand P ρ S (a >>= f) (Sequel A F) :=
  ha.bind hρ hf subset_rfl (Set.empty_subset S) fun _ hk => hk.elim

include ha in
theorem act_iff (hf : ∀ v, Immediate (f v)) (hP : P m) (hm : Unnoted S m) (r : Result σ β) :
    Replays ρ (a >>= f) m r ↔ Sequel A (fun v => Once (f v)) m r := by
  rw [bind_iff hρ ha.settles (fun v => .of_immediate (hf v)) hP]
  exact Sequel.congr (ha.iff hP hm) (fun v m1 _ => replays_iff_once (hf v)) r

theorem call (args : α → Args) {name : Text} {quoted : Bool} (ha : Operand P ρ site.inner a A) :
    Operand P ρ site.tree (remember site (a >>= fun v => call site name (args v) true quoted))
      (Sequel A fun v => Awaited ρ site (call site name (args v) true quoted)) := by
  have hcall := fun v => call_evaluates (σ := σ) site.self_mem_tree name (args v) true quoted
  have hnoted := fun m => remember_bind_evaluates (ha.evaluates m) hcall
  refine ⟨remember_settles hnoted, hnoted, fun {m} hP hm r => ?_⟩
  have hn := hm site site.self_mem_tree
  rw [remember_bind_iff hρ ha.settles ha.evaluates (fun v => .of_evaluates hρ fun m =>
    remember_evaluates site.self_mem_tree (hcall v m)) hP hn]
  refine Sequel.congr (ha.iff hP (hm.mono site.inner_subset_tree)) (fun v m1 h1 => replays_remember_iff_awaited ?_) r
  exact ((h1.later_of_ok hρ ha.evaluates hP).top.memo_eq site.self_not_mem_inner).trans hn

theorem cons {i : Nat} {a : Engine σ Text} {as : Engine σ (List Text)} {A : Machine σ → Result σ Text → Prop}
    {B : Machine σ → Result σ (List Text) → Prop} (ha : Operand P ρ (tree (i :: site)) a A)
    (has : Operand P ρ (partsFrom site (i + 1)) as B) :
    Operand P ρ (partsFrom site i) (a >>= fun v => as >>= fun vs => Pure.pure (v :: vs))
      (Sequel A fun v => Sequel B fun vs => Once (Pure.pure (v :: vs))) := by
  refine ha.bind hρ (fun v => has.next hρ fun vs => .pure _) (fun k hk => ⟨i, le_rfl, hk⟩) ?_ ?_
  · exact fun k ⟨j, hj, hk⟩ => ⟨j, by omega, hk⟩
  · exact fun k ⟨j, hj, hk⟩ => not_mem_tree_of_ne (by omega) hk

mutual

theorem eval (site : Site) (x : Expr) : Operand P ρ site.tree (eval site x) (evalInPlace ρ site x) := by
  have hinner := fun i => tree_child_subset i site
  have htree := fun i => (hinner i).trans site.inner_subset_tree
  cases x with
  | literal text quote =>
    rw [Engine.eval, evalInPlace]
    split
    · exact noting (.of_ok fun m => ⟨_, m, rfl⟩) fun m => .of_same rfl
    · exact .pure text
  | symbol name =>
    rw [Engine.eval, evalInPlace]
    exact noting (fetch_immediate name) (fetch_evaluates name)
  | call name quoted args =>
    rw [Engine.eval, evalInPlace]
    exact call hρ id ((arguments site 0 args).mono (partsFrom_subset site 0))
  | binary op left right =>
    rw [Engine.eval, evalInPlace]
    exact (eval (0 :: site) left).bind hρ (fun a => (eval (1 :: site) right).next hρ fun b => operator _) (htree 0) (htree 1)
      fun k => not_mem_tree_of_ne (by decide)
  | unary op operand =>
    rw [Engine.eval, evalInPlace]
    exact ((eval (0 :: site) operand).next hρ fun a => operator _).mono (htree 0)
  | pipe value name =>
    rw [Engine.eval, evalInPlace]
    exact call hρ (fun v => [v]) ((eval (0 :: site) value).mono (hinner 0))
  | pipeCall value name args =>
    rw [eval_pipeCall, evalInPlace]
    refine call hρ id ((eval (0 :: site) value).bind hρ (fun v => (filled site v 1 args).next hρ fun a => .pure _) (hinner 0)
      (partsFrom_subset site 1) ?_)
    exact fun k ⟨j, hj, hk⟩ => not_mem_tree_of_ne (by omega) hk
termination_by sizeOf x

theorem arguments (site : Site) (i : Nat) (xs : List Expr) :
    Operand P ρ (partsFrom site i) (evalArgs site i xs) (argsInPlace ρ site i xs) := by
  cases xs with
  | nil =>
    rw [evalArgs, argsInPlace]
    exact .pure []
  | cons x xs =>
    rw [evalArgs, argsInPlace]
    exact cons hρ (eval (i :: site) x) (arguments site (i + 1) xs)
termination_by sizeOf xs

theorem filled (site : Site) (v : Text) (i : Nat) (xs : List Expr) :
    Operand P ρ (partsFrom site i) (evalFilled site v i xs) (filledInPlace ρ site v i xs) := by
  cases xs with
  | nil =>
    rw [evalFilled, filledInPlace]
    exact .pure []
  | cons x xs =>
    rw [evalFilled_cons, filledInPlace, evalFill]
    refine cons hρ ?_ (filled site v (i + 1) xs)
    split
    · exact .pure v
    · exact eval (i :: site) x
termination_by sizeOf xs

end

end Operand

end Rexx.Engine
