import Mathlib
import Rexx.Text.Order

/-!
# `Text.Order` — the padded comparison is a total preorder

Every two texts are compared at a length of their own. Filling both up further changes nothing
(`paddedCompare_eq_compare`), so any three texts are compared at one length.
-/

namespace Rexx.Text

open List

variable {a b c x y : Text} {n : Nat}

theorem fit_of_le (h : x.length ≤ n) (pad : Char) : fit n pad x = x ++ replicate (n - x.length) pad := by
  rw [fit, take_of_length_le h]

theorem length_fit (n : Nat) (pad : Char) (x : Text) : (fit n pad x).length = n := by
  rw [fit, length_append, length_take, length_replicate]
  omega

theorem fit_fit {k : Nat} (hx : x.length ≤ n) (hn : n ≤ k) (pad : Char) :
    fit k pad x = fit n pad x ++ replicate (k - n) pad := by
  rw [fit_of_le hx, fit_of_le (hx.trans hn), append_assoc, replicate_append_replicate]
  congr 2
  omega

theorem compare_append_right (h : x.length = y.length) (z : Text) : compare (x ++ z) (y ++ z) = compare x y := by
  induction x generalizing y with
  | nil =>
    obtain rfl := length_eq_zero_iff.1 h.symm
    exact Std.ReflOrd.compare_self.trans Std.ReflOrd.compare_self.symm
  | cons d x ih =>
    cases y with
    | nil => cases h
    | cons e y =>
      rw [cons_append, cons_append, List.compare_cons_cons, List.compare_cons_cons, ih (Nat.succ.inj h)]

/-- **The length does not matter** at which two texts are compared. -/
theorem paddedCompare_eq_compare (ha : (strip ' ' a).length ≤ n) (hb : (strip ' ' b).length ≤ n) :
    paddedCompare a b = compare (fit n ' ' (strip ' ' a)) (fit n ' ' (strip ' ' b)) := by
  have hn := max_le ha hb
  rw [fit_fit (le_max_left _ _) hn, fit_fit (le_max_right _ _) hn,
    compare_append_right (by rw [length_fit, length_fit])]
  rfl

theorem stripRight_fit (h : x.length ≤ n) (pad : Char) : stripRight pad (fit n pad x) = stripRight pad x := by
  rw [fit_of_le h, stripRight, reverse_append, reverse_replicate, dropWhile_append_of_pos (by simp)]
  rfl

theorem stripRight_strip (pad : Char) (x : Text) : stripRight pad (strip pad x) = strip pad x := by
  rw [strip, stripRight, stripRight, reverse_reverse, dropWhile_idempotent]

theorem fit_strip_inj (ha : (strip ' ' a).length ≤ n) (hb : (strip ' ' b).length ≤ n)
    (h : fit n ' ' (strip ' ' a) = fit n ' ' (strip ' ' b)) : strip ' ' a = strip ' ' b := by
  rw [← stripRight_strip, ← stripRight_fit ha, h, stripRight_fit hb, stripRight_strip]

/-- **The padded comparison is a total preorder**: exchanging the texts reverses it, it is transitive, and it takes for
equal exactly the texts that are equal after stripping. -/
theorem paddedCompare_preorder :
    (∀ a b, paddedCompare a b = (paddedCompare b a).swap) ∧
    (∀ a b c, (paddedCompare a b).isLE → (paddedCompare b c).isLE → (paddedCompare a c).isLE) ∧
    ∀ a b, paddedCompare a b = .eq ↔ strip ' ' a = strip ' ' b := by
  refine ⟨fun a b => ?_, fun a b c hab hbc => ?_, fun a b => ⟨fun h => ?_, fun h => ?_⟩⟩
  · have ha := le_max_left (strip ' ' a).length (strip ' ' b).length
    have hb := le_max_right (strip ' ' a).length (strip ' ' b).length
    rw [paddedCompare_eq_compare ha hb, paddedCompare_eq_compare hb ha]
    exact Std.OrientedOrd.eq_swap
  · -- Two of the comparisons were made at other lengths than this one.
    obtain ⟨n, ha, hb, hc⟩ : ∃ n, (strip ' ' a).length ≤ n ∧ (strip ' ' b).length ≤ n ∧ (strip ' ' c).length ≤ n :=
      ⟨(strip ' ' a).length + (strip ' ' b).length + (strip ' ' c).length, by omega, by omega, by omega⟩
    rw [paddedCompare_eq_compare ha hb] at hab
    rw [paddedCompare_eq_compare hb hc] at hbc
    rw [paddedCompare_eq_compare ha hc]
    exact Std.TransOrd.isLE_trans hab hbc
  · have ha := le_max_left (strip ' ' a).length (strip ' ' b).length
    have hb := le_max_right (strip ' ' a).length (strip ' ' b).length
    rw [paddedCompare_eq_compare ha hb] at h
    exact fit_strip_inj ha hb (Std.LawfulEqOrd.eq_of_compare h)
  · rw [paddedCompare, h]
    exact Std.ReflOrd.compare_self

theorem paddedCompare_preorder_tab :
    (paddedCompare "a\t" " a ").isLE ∧ (paddedCompare " a " "a b").isLE ∧ (paddedCompare "a\t" "a b").isLE ∧
      paddedCompare " a " "a" = .eq := by
  obtain ⟨_, htrans, heq⟩ := paddedCompare_preorder
  have htab : (paddedCompare "a\t" " a ").isLE := by decide
  have hlonger : (paddedCompare " a " "a b").isLE := by decide
  exact ⟨htab, hlonger, htrans _ _ _ htab hlonger, (heq _ _).2 (by decide)⟩

end Rexx.Text
