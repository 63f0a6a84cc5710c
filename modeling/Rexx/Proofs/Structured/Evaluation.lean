import Rexx.Proofs.Evaluation.Effect
import Rexx.Proofs.Structured.Semantics

/-!
# `Structured.Evaluation` — values and loops without calls

Where nothing is called, the engine does to its machine what a computation on variables does to them, and besides only
notes values for the sites that it visits.
-/

namespace Rexx

open Engine Plain Site

def Site.onward (i : Nat) : Set Site := {k | ∃ j, i ≤ j ∧ k ∈ Site.tree [j]}

namespace Machine

variable {σ α : Type} {o : Options} {m : Machine σ}

structure Calm (o : Options) (m : Machine σ) : Prop where
  options : m.interp.options = o
  callers : m.stack.callers = []
  traps : m.top.traps = []

def dress (m : Machine σ) (memo : List (Site × Text)) (v : Variables) : Machine σ :=
  m.modifyInterp fun i => (i.setVariables v).modifyTop fun f => { f with memo }

theorem Calm.dress (h : m.Calm o) (memo : List (Site × Text)) (v : Variables) : (m.dress memo v).Calm o :=
  ⟨h.options, h.callers, h.traps⟩

theorem Calm.not_traps (h : m.Calm o) (e : Event) : m.stack.traps e = false := by
  unfold Stack.traps Stack.frames
  rw [h.callers]
  simp [Frame.trap?, h.traps]

def reflect (m : Machine σ) (memo : List (Site × Text)) : EStateM.Result Fault Variables α → Engine.Result σ α
  | .ok a v => .ok a (m.dress memo v)
  | .error f v => .error (.raised f.condition) (m.dress memo v)

end Machine

namespace Engine

variable {σ α β : Type} {o : Options} {S T : Set Site} {site : Site}

/-- **The engine does what a computation on variables does**, and notes values for sites in `S`, if it has none noted for
them at the beginning. -/
def Mirrors (o : Options) (S : Set Site) (c : Engine σ α) (p : Plain α) : Prop :=
  ∀ m : Machine σ, m.Calm o → (∀ k ∈ S, m.top.memo.lookup k = none) →
    ∃ memo, (∀ k ∉ S, memo.lookup k = m.top.memo.lookup k) ∧ c m = m.reflect memo (p m.interp.vars)

namespace Mirrors

variable {c : Engine σ α} {p : Plain α} {f : α → Engine σ β} {q : α → Plain β}

theorem of_eq
    (h : ∀ m : Machine σ, m.Calm o → c m = m.reflect m.top.memo (p m.interp.vars)) : Mirrors o S c p :=
  fun m hm _ => ⟨m.top.memo, fun _ _ => rfl, h m hm⟩

theorem pure (a : α) : Mirrors o S (Pure.pure a : Engine σ α) (Pure.pure a) := .of_eq fun _ _ => rfl

theorem fail (f : Fault) : Mirrors o S (fail f : Engine σ α) (throw f) := .of_eq fun _ _ => rfl

theorem orFail (r : Except Fault α) : Mirrors o S (orFail r : Engine σ α) (Plain.ofExcept r) := by
  cases r with
  | ok a => exact .pure a
  | error f => exact .fail f

theorem mono (h : Mirrors o S c p) (hs : S ⊆ T) : Mirrors o T c p := by
  intro m hm hn
  obtain ⟨memo, hk, hc⟩ := h m hm fun k hk => hn k (hs hk)
  exact ⟨memo, fun k hkt => hk k fun hks => hkt (hs hks), hc⟩

theorem bind (hc : Mirrors o S c p)
    (hf : ∀ a, Mirrors o T (f a) (q a)) (hst : ∀ k ∈ T, k ∉ S) : Mirrors o (S ∪ T) (c >>= f) (p >>= q) := by
  intro m hm hn
  obtain ⟨memo, hk, hcm⟩ := hc m hm fun k hk => hn k (.inl hk)
  rw [bind_apply, bind_apply, hcm]
  cases hp : p m.interp.vars with
  | error e v => exact ⟨memo, fun k hk' => hk k fun hs => hk' (.inl hs), rfl⟩
  | ok a v =>
    have hn' : ∀ k ∈ T, (m.dress memo v).top.memo.lookup k = none := fun k hkt =>
      (hk k (hst k hkt)).trans (hn k (.inr hkt))
    obtain ⟨memo', hk', hfm⟩ := hf a (m.dress memo v) (hm.dress memo v) hn'
    refine ⟨memo', fun k hkn => ?_, hfm.trans ?_⟩
    · exact (hk' k fun h => hkn (.inr h)).trans (hk k fun h => hkn (.inl h))
    · show (m.dress memo v).reflect memo' (q a v) = m.reflect memo' (q a v)
      cases q a v <;> rfl

theorem andThen (hc : Mirrors o S c p) (hf : ∀ a, Mirrors o ∅ (f a) (q a)) : Mirrors o S (c >>= f) (p >>= q) := by
  have h := hc.bind hf (by simp)
  rwa [Set.union_empty] at h

theorem after (hc : Mirrors o ∅ c p) (hf : ∀ a, Mirrors o S (f a) (q a)) : Mirrors o S (c >>= f) (p >>= q) := by
  have h := hc.bind hf (by simp)
  rwa [Set.empty_union] at h

theorem andOnward {i : Nat}
    (hc : Mirrors o (tree [i]) c p) (hf : ∀ a, Mirrors o (onward (i + 1)) (f a) (q a)) :
    Mirrors o (onward i) (c >>= f) (p >>= q) := by
  refine mono (hc.bind hf ?_) ?_
  · rintro k ⟨j, hij, hk⟩
    exact not_mem_tree_of_ne (by omega) hk
  · rintro k (hk | ⟨j, hij, hk⟩)
    · exact ⟨i, le_refl i, hk⟩
    · exact ⟨j, by omega, hk⟩

theorem remember {c : Engine σ Text} {p : Plain Text} (hs : site ∈ S) (hc : Mirrors o ∅ c p) :
    Mirrors o S (remember site c) p := by
  intro m hm hn
  obtain ⟨memo, hk, hcm⟩ := hc m hm (by simp)
  have hsame : ∀ k, memo.lookup k = m.top.memo.lookup k := fun k => hk k (by simp)
  rw [Engine.remember, orNoted_of_none (hn site hs), bind_apply, hcm]
  cases p m.interp.vars with
  | error e v => exact ⟨memo, fun k _ => hsame k, rfl⟩
  | ok a v =>
    refine ⟨(site, a) :: memo, fun k hks => ?_, rfl⟩
    have hne : k ≠ site := fun h => hks (h ▸ hs)
    rw [List.lookup_cons, beq_eq_false_iff_ne.2 hne]
    exact hsame k

end Mirrors

/-! ## Variables and expressions -/

theorem fetch_mirrors (name : Text) : Mirrors (σ := σ) o S (fetch name) (Plain.fetch o name) := by
  refine .of_eq fun m hm => ?_
  rw [fetch, bind_of_ok (interp_apply m), Plain.fetch, bind_of_ok (get_apply m.interp.vars)]
  cases m.interp.vars.peek? name with
  | some value => rfl
  | none =>
    simp only [hm.not_traps, hm.options]
    split
    · rfl
    · rw [if_neg (by simp)]
      split <;> rfl

theorem assign_mirrors (name value : Text) : Mirrors (σ := σ) o S (assign name value) (Plain.assign name value) := by
  refine .of_eq fun m hm => ?_
  rw [assign, bind_of_ok (interp_apply m), Plain.assign, bind_of_ok (get_apply m.interp.vars)]
  cases m.interp.vars.assign? name value <;> rfl

theorem numeric_mirrors {f : Number.Settings → Engine σ α} {p : Plain α} (hf : Mirrors o S (f o.numeric) p) :
    Mirrors o S (numeric >>= f) p := by
  intro m hm hn
  rw [bind_of_ok (numeric_apply m), hm.options]
  exact hf m hm hn

theorem formatNumber_mirrors {x : Float} {f : Text → Engine σ α} {p : Plain α}
    (hf : Mirrors o S (f (o.numeric.format x)) p) : Mirrors o S (formatNumber x >>= f) p := by
  intro m hm hn
  have hx : formatNumber x m = .ok (o.numeric.format x) m := by
    rw [formatNumber, bind_of_ok (numeric_apply m), hm.options]
    rfl
  rw [bind_of_ok hx]
  exact hf m hm hn

theorem eval_mirrors : ∀ (x : Expr) (site : Site), x.isPlain = true →
    Mirrors (σ := σ) o site.tree (eval site x) (Plain.value o x)
  | .literal text quote, site, _ => by
    rw [eval, Plain.value]
    split
    · refine .remember site.self_mem_tree (.of_eq fun m hm => ?_)
      rw [bind_of_ok (interp_apply m), bind_of_ok (get_apply m.interp.vars), Interpreter.expand, hm.options]
      rfl
    · exact .pure text
  | .symbol name, site, _ => by
    rw [eval, Plain.value]
    exact .remember site.self_mem_tree (fetch_mirrors name)
  | .binary op left right, site, h => by
    obtain ⟨hl, hr⟩ := Bool.and_eq_true_iff.1 (show (left.isPlain && right.isPlain) = true from h)
    rw [eval, Plain.value]
    have h01 : tree (0 :: site) ∪ tree (1 :: site) ⊆ site.tree :=
      Set.union_subset ((tree_child_subset 0 site).trans site.inner_subset_tree)
        ((tree_child_subset 1 site).trans site.inner_subset_tree)
    refine Mirrors.mono ((eval_mirrors left _ hl).bind (fun a => ?_) fun _ hk => not_mem_tree_of_ne (by decide) hk) h01
    exact (eval_mirrors right _ hr).andThen fun b => numeric_mirrors (.orFail _)
  | .unary op operand, site, h => by
    rw [eval, Plain.value]
    refine Mirrors.mono ?_ ((tree_child_subset 0 site).trans site.inner_subset_tree)
    exact (eval_mirrors operand _ h).andThen fun a => numeric_mirrors (.orFail _)

theorem evalOpt_mirrors (x : Option Expr) (site : Site) (h : x.all Expr.isPlain = true) :
    Mirrors (σ := σ) o site.tree (evalOpt site x) (valueOpt o x) := by
  cases x with
  | none => exact .pure []
  | some x => exact eval_mirrors x site h

theorem evalTruth_mirrors (x : Expr) (site : Site) (h : x.isPlain = true) :
    Mirrors (σ := σ) o site.tree (evalTruth site x) (Plain.truth o x) :=
  (eval_mirrors x site h).andThen fun _ => .orFail _

theorem evalNumber_mirrors (x : Expr) (site : Site) (h : x.isPlain = true) :
    Mirrors (σ := σ) o site.tree (evalNumber site x) (number o x) :=
  (eval_mirrors x site h).andThen fun _ => .orFail _

theorem evalCount_mirrors (x : Expr) (site : Site) (h : x.isPlain = true) :
    Mirrors (σ := σ) o site.tree (evalCount site x) (count o x) :=
  (eval_mirrors x site h).andThen fun _ => .orFail _

theorem evalIfAny_mirrors {f : Expr → Engine σ α} {p : Expr → Plain α} (x : Option Expr)
    (hf : ∀ y, y.isPlain = true → Mirrors o S (f y) (p y)) (h : x.all Expr.isPlain = true) :
    Mirrors o S (evalIfAny f x) (ifAny p x) := by
  cases x with
  | none => exact .pure none
  | some x => exact (hf x h).andThen fun a => .pure (some a)

/-! ## Loops -/

theorem loopStart_mirrors (control : Control) (guard : Option Guard) (h : control.isPlain = true) :
    Mirrors (σ := σ) o Set.univ (loopStart control guard) (head o control guard) := by
  cases control with
  | conditional => exact .pure _
  | forever => exact .pure _
  | times n => exact ((evalCount_mirrors n [0] h).andThen fun _ => .pure _).mono (Set.subset_univ _)
  | tails var stem => exact .of_eq fun m _ => rfl
  | counted var first limit by_ n =>
    obtain ⟨hfirst, hlimit, hby, hn⟩ : first.isPlain = true ∧ limit.all Expr.isPlain = true ∧
        by_.all Expr.isPlain = true ∧ n.all Expr.isPlain = true := by
      simpa [Control.isPlain, and_assoc] using h
    refine Mirrors.mono ?_ (Set.subset_univ (onward 0))
    refine (evalNumber_mirrors first [0] hfirst).andOnward fun x => ?_
    refine (evalIfAny_mirrors limit (fun y => evalNumber_mirrors y [1]) hlimit).andOnward fun limit => ?_
    refine (evalIfAny_mirrors by_ (fun y => evalNumber_mirrors y [2]) hby).andOnward fun step => ?_
    exact (evalIfAny_mirrors n (fun y => evalCount_mirrors y [3]) hn).andOnward fun left => .pure _

theorem controlValue_mirrors (var : Text) : Mirrors (σ := σ) o S (controlValue var) (Plain.controlValue o var) := by
  refine (fetch_mirrors var).andThen fun s => ?_
  cases Number.ofText? s with
  | none => exact .fail _
  | some x => exact .pure x

theorem countOn_mirrors (l : LoopState) :
    Mirrors (σ := σ) o S (countOn l >>= fun _ => pure l.next) (Plain.advance o l) := by
  unfold countOn Plain.advance
  cases l.control with
  | counted var first limit by_ n =>
    simp only [bind_assoc]
    refine (controlValue_mirrors var).after fun x => formatNumber_mirrors ?_
    exact (assign_mirrors var _).andThen fun _ => .pure _
  | _ => exact .pure _

theorem controlAdmits_mirrors (l : LoopState) : Mirrors (σ := σ) o S (controlAdmits l) (Plain.controlAdmits o l) := by
  unfold controlAdmits Plain.controlAdmits
  split
  · exact .pure false
  · cases l.control with
    | tails var stem =>
      cases l.tails with
      | nil => exact .pure false
      | cons t ts => exact (assign_mirrors var t).andThen fun _ => .pure true
    | counted var first limit by_ n =>
      cases l.limit with
      | none => exact .pure true
      | some limit => exact (controlValue_mirrors var).andThen fun x => .pure _
    | _ => exact .pure true

end Engine

end Rexx
