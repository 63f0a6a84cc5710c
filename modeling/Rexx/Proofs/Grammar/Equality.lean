import Mathlib
import Rexx.Stmt

/-!
# `Grammar.Equality` — expressions and statements can be compared

Expressions hold lists of expressions, and statements lists of statements, so the comparison of each goes along with that of
its lists.
-/

namespace Rexx

/-! ## Expressions -/

namespace Expr

mutual

def same : Expr → Expr → Bool
  | .literal t q, .literal t' q' => t = t' && q = q'
  | .symbol name, .symbol name' => name = name'
  | .call name quoted args, .call name' quoted' args' => name = name' && quoted = quoted' && sameList args args'
  | .binary op l r, .binary op' l' r' => op = op' && same l l' && same r r'
  | .unary op x, .unary op' x' => op = op' && same x x'
  | .pipe x name, .pipe x' name' => same x x' && name = name'
  | .pipeCall x name args, .pipeCall x' name' args' => same x x' && name = name' && sameList args args'
  | _, _ => false

def sameList : List Expr → List Expr → Bool
  | [], [] => true
  | x :: xs, y :: ys => same x y && sameList xs ys
  | _, _ => false

end

mutual

theorem same_iff : ∀ x y : Expr, same x y = true ↔ x = y
  | .literal _ _, y => by cases y <;> simp [same]
  | .symbol _, y => by cases y <;> simp [same]
  | .call _ _ args, y => by cases y <;> simp [same, sameList_iff args, and_assoc]
  | .binary _ l r, y => by cases y <;> simp [same, same_iff l, same_iff r, and_assoc]
  | .unary _ x, y => by cases y <;> simp [same, same_iff x]
  | .pipe x _, y => by cases y <;> simp [same, same_iff x]
  | .pipeCall x _ args, y => by cases y <;> simp [same, same_iff x, sameList_iff args, and_assoc]

theorem sameList_iff : ∀ xs ys : List Expr, sameList xs ys = true ↔ xs = ys
  | [], ys => by cases ys <;> simp [sameList]
  | x :: xs, ys => by cases ys <;> simp [sameList, same_iff x, sameList_iff xs]

end

instance : DecidableEq Expr := fun x y => decidable_of_iff (same x y = true) (same_iff x y)

end Expr

deriving instance DecidableEq for ParseSource, Clause, Control, Guard

/-! ## Statements -/

namespace Stmt

mutual

def same : Stmt → Stmt → Bool
  | .clause p c, .clause p' c' => p = p' && c = c'
  | .ifThen p x thens elses, .ifThen p' x' thens' elses' =>
    p = p' && x = x' && sameList thens thens' && sameList elses elses'
  | .group p body, .group p' body' => p = p' && sameList body body'
  | .loop p control guard body, .loop p' control' guard' body' =>
    p = p' && control = control' && guard = guard' && sameList body body'
  | .select p whens none, .select p' whens' none => p = p' && sameWhens whens whens'
  | .select p whens (some body), .select p' whens' (some body') => p = p' && sameWhens whens whens' && sameList body body'
  | _, _ => false

def sameList : List Stmt → List Stmt → Bool
  | [], [] => true
  | s :: ss, t :: ts => same s t && sameList ss ts
  | _, _ => false

def sameWhens : List (Expr × List Stmt) → List (Expr × List Stmt) → Bool
  | [], [] => true
  | (x, body) :: ws, (x', body') :: ws' => x = x' && sameList body body' && sameWhens ws ws'
  | _, _ => false

end

mutual

theorem same_iff : ∀ s t : Stmt, same s t = true ↔ s = t
  | .clause _ _, t => by cases t <;> simp [same]
  | .ifThen _ _ thens elses, t => by cases t <;> simp [same, sameList_iff thens, sameList_iff elses, and_assoc]
  | .group _ body, t => by cases t <;> simp [same, sameList_iff body]
  | .loop _ _ _ body, t => by cases t <;> simp [same, sameList_iff body, and_assoc]
  | .select _ whens none, t => by
    cases t with
    | select _ _ otherwise => cases otherwise <;> simp [same, sameWhens_iff whens]
    | _ => simp [same]
  | .select _ whens (some body), t => by
    cases t with
    | select _ _ otherwise => cases otherwise <;> simp [same, sameWhens_iff whens, sameList_iff body, and_assoc]
    | _ => simp [same]

theorem sameList_iff : ∀ ss ts : List Stmt, sameList ss ts = true ↔ ss = ts
  | [], ts => by cases ts <;> simp [sameList]
  | s :: ss, ts => by cases ts <;> simp [sameList, same_iff s, sameList_iff ss]

theorem sameWhens_iff : ∀ ws ws' : List (Expr × List Stmt), sameWhens ws ws' = true ↔ ws = ws'
  | [], ws' => by cases ws' <;> simp [sameWhens]
  | (x, body) :: ws, ws' => by
    cases ws' with
    | nil => simp [sameWhens]
    | cons w' ws' =>
      obtain ⟨x', body'⟩ := w'
      simp [sameWhens, sameList_iff body, sameWhens_iff ws]

end

instance : DecidableEq Stmt := fun s t => decidable_of_iff (same s t = true) (same_iff s t)

end Stmt

end Rexx
