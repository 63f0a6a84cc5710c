import Rexx.Proofs.Evaluation.Calls

/-!
# `Evaluation.Expressions` — what evaluating an expression may change

Evaluating the expression at a site changes no more than `Machine.Evolves` says for the sites at and below that one.
-/

namespace Rexx

open Engine Rexx.Expr List

namespace Engine

variable {σ α β : Type} {S : Set Site} {site : Site} {m m' : Machine σ} {c : Engine σ Text}

/-! ## Values that are kept -/

theorem remember_of_some {v : Text} (h : m.top.memo.lookup site = some v) : remember site c m = .ok v m :=
  orNoted_of_some h

theorem remember_of_ok {v : Text} (hn : m.top.memo.lookup site = none)
    (hc : c m = .ok v m') : remember site c m = .ok v (m'.note site v) :=
  (orNoted_of_none hn).trans (bind_of_ok hc)

theorem remember_of_error {e : Interrupt} (hn : m.top.memo.lookup site = none)
    (hc : c m = .error e m') : remember site c m = .error e m' :=
  (orNoted_of_none hn).trans (bind_of_error hc)

theorem remember_evaluates (hs : site ∈ S)
    (hc : m.top.memo.lookup site = none → Evaluates S c m) : Evaluates S (remember site c) m := by
  cases hn : m.top.memo.lookup site with
  | some v => exact .of_same (remember_of_some hn)
  | none =>
    cases he : c m with
    | ok v m' => exact .of_ok (remember_of_ok hn he) (((hc hn).ok he).note hs hn v)
    | error e m' =>
      cases e with
      | suspended => exact .of_suspended (remember_of_error hn he) ((hc hn).suspended he)
      | raised e => exact .of_raised (remember_of_error hn he) ((hc hn).raised he)

theorem remember_bind_evaluates {a : Engine σ α} {f : α → Engine σ Text} (ha : Evaluates site.inner a m)
    (hrest : ∀ v m', m'.top.memo.lookup site = none → Evaluates site.tree (f v) m') :
    Evaluates site.tree (remember site (a >>= f)) m := by
  refine remember_evaluates site.self_mem_tree fun hn => .bind ha.tree fun v m' h => ?_
  exact hrest v m' (((ha.ok h).top.memo_eq site.self_not_mem_inner).trans hn)

/-! ## Expressions -/

def evalFill (site : Site) (v : Text) (x : Expr) : Engine σ Text := if x.isHole then pure v else eval site x

theorem evalFilled_cons (site : Site) (v : Text) (i : Nat) (x : Expr) (xs : List Expr) :
    (evalFilled site v i (x :: xs) : Engine σ (List Text)) =
      evalFill (i :: site) v x >>= fun a => evalFilled site v (i + 1) xs >>= fun as => pure (a :: as) := by
  rw [evalFilled, evalFill]
  split <;> rfl

def evalPiped (site : Site) (value : Expr) (args : List Expr) : Engine σ (List Text) := do
  let v ← eval (0 :: site) value
  let a ← evalFilled site v 1 args
  return if args.any Expr.isHole then a else v :: a

theorem eval_pipeCall (site : Site) (value : Expr) (name : Text) (args : List Expr) :
    (eval site (.pipeCall value name args) : Engine σ Text) =
      remember site (evalPiped site value args >>= fun a => call site name a true false) := by
  rw [eval]
  simp only [evalPiped, bind_assoc, pure_bind]

mutual

theorem eval_evaluates (site : Site) (x : Expr) (m : Machine σ) : Evaluates site.tree (eval site x) m := by
  cases x with
  | literal text quote =>
    rw [eval]
    split
    · exact remember_evaluates site.self_mem_tree fun _ => .of_same rfl
    · exact .pure text m
  | symbol name =>
    rw [eval]
    exact remember_evaluates site.self_mem_tree fun _ => fetch_evaluates name m
  | call name quoted args =>
    rw [eval]
    exact remember_bind_evaluates (evalArgs_evaluates site 0 args m) fun a m' hn =>
      call_evaluates site.self_mem_tree name a true quoted m' hn
  | binary op left right =>
    rw [eval]
    refine .bind (eval_evaluates (0 :: site) left m).inner.tree ?_
    intro a m1 _
    refine .bind (eval_evaluates (1 :: site) right m1).inner.tree ?_
    intro b m2 _
    exact .bind (.of_same (numeric_apply m2)) fun _ m3 _ => .orFail _ m3
  | unary op operand =>
    rw [eval]
    refine .bind (eval_evaluates (0 :: site) operand m).inner.tree ?_
    intro a m1 _
    exact .bind (.of_same (numeric_apply m1)) fun _ m2 _ => .orFail _ m2
  | pipe value name =>
    rw [eval]
    exact remember_bind_evaluates (eval_evaluates (0 :: site) value m).inner fun v m' hn =>
      call_evaluates site.self_mem_tree name [v] true false m' hn
  | pipeCall value name args =>
    rw [eval_pipeCall]
    refine remember_bind_evaluates ?_ fun a m' hn => call_evaluates site.self_mem_tree name a true false m' hn
    refine .bind (eval_evaluates (0 :: site) value m).inner ?_
    intro v m1 _
    exact .bind (evalFilled_evaluates site v 1 args m1) fun a m2 _ => .pure _ m2
termination_by sizeOf x

theorem evalArgs_evaluates (site : Site) (i : Nat) (xs : List Expr) (m : Machine σ) :
    Evaluates site.inner (evalArgs site i xs) m := by
  cases xs with
  | nil =>
    rw [evalArgs]
    exact .pure [] m
  | cons x xs =>
    rw [evalArgs]
    refine .bind (eval_evaluates (i :: site) x m).inner ?_
    intro a m1 _
    exact .bind (evalArgs_evaluates site (i + 1) xs m1) fun as m2 _ => .pure (a :: as) m2
termination_by sizeOf xs

theorem evalFilled_evaluates (site : Site) (v : Text) (i : Nat) (xs : List Expr) (m : Machine σ) :
    Evaluates site.inner (evalFilled site v i xs) m := by
  cases xs with
  | nil =>
    rw [evalFilled]
    exact .pure [] m
  | cons x xs =>
    rw [evalFilled_cons]
    have hx : Evaluates site.inner (evalFill (i :: site) v x) m := by
      unfold evalFill
      split
      · exact .pure v m
      · exact (eval_evaluates (i :: site) x m).inner
    refine .bind hx ?_
    intro a m1 _
    exact .bind (evalFilled_evaluates site v (i + 1) xs m1) fun as m2 _ => .pure (a :: as) m2
termination_by sizeOf xs

end

theorem evalPiped_evaluates (site : Site) (value : Expr) (args : List Expr) (m : Machine σ) :
    Evaluates site.inner (evalPiped site value args) m := by
  refine .bind (eval_evaluates (0 :: site) value m).inner fun v m1 _ => ?_
  exact .bind (evalFilled_evaluates site v 1 args m1) fun a m2 _ => .pure _ m2

end Engine

/-! ## Properties of evaluation -/

namespace Expr

mutual

def calls : Expr → List (Text × Bool)
  | .literal _ _ => []
  | .symbol _ => []
  | .call name quoted args => (name, quoted) :: callsAll args
  | .binary _ left right => left.calls ++ right.calls
  | .unary _ operand => operand.calls
  | .pipe value name => (name, false) :: value.calls
  | .pipeCall value name args => (name, false) :: (value.calls ++ callsAll args)

def callsAll : List Expr → List (Text × Bool)
  | [] => []
  | x :: xs => x.calls ++ callsAll xs

end

end Expr

namespace Engine

variable {σ : Type} {K : Set Site} {names : List (Text × Bool)} {P : (α : Type) → Engine σ α → Prop}

/-- Sequencing keeps the property, and what expressions are made of has it at the sites in `K`: values that are read and
kept, operators, and calls of the names that are given. -/
structure Expressive (K : Set Site) (names : List (Text × Bool)) (P : (α : Type) → Engine σ α → Prop) : Prop where
  below : ∀ (i : Nat) (site : Site), i :: site ∈ K
  pure : ∀ {α : Type} (v : α), P α (Pure.pure v)
  bind : ∀ {α β : Type} {a : Engine σ α} {f : α → Engine σ β}, P α a → (∀ v, P β (f v)) → P β (a >>= f)
  expand : ∀ {site : Site}, site ∈ K → ∀ text, P _ (remember site do return (← Engine.interp).expand text)
  fetch : ∀ {site : Site}, site ∈ K → ∀ name, P _ (remember site (Engine.fetch name))
  operator : ∀ {g : Number.Settings → Except Fault Text}, (∀ s, SyntaxOnly (g s)) →
    P _ (Engine.numeric >>= fun s => Engine.orFail (g s))
  call : ∀ {site : Site}, site ∈ K → ∀ {α : Type} {a : Engine σ α} (args : α → Args) {name : Text} {quoted : Bool},
    (name, quoted) ∈ names → P α a → (∀ m, Evaluates site.inner a m) →
    P _ (remember site (a >>= fun v => Engine.call site name (args v) true quoted))

namespace Expressive

mutual

theorem eval (hP : Expressive K names P) {site : Site} (hs : site ∈ K) (x : Expr) (hx : x.calls ⊆ names) :
    P _ (eval site x) := by
  cases x with
  | literal text quote =>
    rw [Engine.eval]
    split
    · exact hP.expand hs text
    · exact hP.pure text
  | symbol name =>
    rw [Engine.eval]
    exact hP.fetch hs name
  | call name quoted args =>
    rw [calls, cons_subset] at hx
    rw [Engine.eval]
    exact hP.call hs id hx.1 (evalArgs hP site 0 args hx.2) (evalArgs_evaluates site 0 args)
  | binary op left right =>
    rw [calls, append_subset] at hx
    rw [Engine.eval]
    refine hP.bind (eval hP (hP.below 0 site) left hx.1) fun a => ?_
    exact hP.bind (eval hP (hP.below 1 site) right hx.2) fun b => hP.operator fun s => op.apply_syntaxOnly s a b
  | unary op operand =>
    rw [calls] at hx
    rw [Engine.eval]
    exact hP.bind (eval hP (hP.below 0 site) operand hx) fun a => hP.operator fun s => op.apply_syntaxOnly s a
  | pipe value name =>
    rw [calls, cons_subset] at hx
    rw [Engine.eval]
    exact hP.call hs (fun v => [v]) hx.1 (eval hP (hP.below 0 site) value hx.2) fun m =>
      (eval_evaluates (0 :: site) value m).inner
  | pipeCall value name args =>
    rw [calls, cons_subset, append_subset] at hx
    rw [eval_pipeCall]
    refine hP.call hs id hx.1 ?_ (evalPiped_evaluates site value args)
    refine hP.bind (eval hP (hP.below 0 site) value hx.2.1) fun v => ?_
    exact hP.bind (evalFilled hP site v 1 args hx.2.2) fun a => hP.pure _
termination_by sizeOf x

theorem evalArgs (hP : Expressive K names P) (site : Site) (i : Nat) (xs : List Expr) (hxs : callsAll xs ⊆ names) :
    P _ (evalArgs site i xs) := by
  cases xs with
  | nil =>
    rw [Engine.evalArgs]
    exact hP.pure []
  | cons x xs =>
    rw [callsAll, append_subset] at hxs
    rw [Engine.evalArgs]
    refine hP.bind (eval hP (hP.below i site) x hxs.1) fun a => ?_
    exact hP.bind (evalArgs hP site (i + 1) xs hxs.2) fun as => hP.pure _
termination_by sizeOf xs

theorem evalFilled (hP : Expressive K names P) (site : Site) (v : Text) (i : Nat) (xs : List Expr)
    (hxs : callsAll xs ⊆ names) : P _ (evalFilled site v i xs) := by
  cases xs with
  | nil =>
    rw [Engine.evalFilled]
    exact hP.pure []
  | cons x xs =>
    rw [callsAll, append_subset] at hxs
    rw [evalFilled_cons, evalFill]
    refine hP.bind ?_ fun a => hP.bind (evalFilled hP site v (i + 1) xs hxs.2) fun as => hP.pure _
    split
    · exact hP.pure v
    · exact eval hP (hP.below i site) x hxs.1
termination_by sizeOf xs

end

end Expressive

theorem evaluates_evaluative : Evaluative fun _ (c : Engine σ _) => ∀ m, Evaluates Set.univ c m where
  toSequential := evaluates_computing.toSequential
  eval i x m := (eval_evaluates [i] x m).weaken

end Engine

end Rexx
