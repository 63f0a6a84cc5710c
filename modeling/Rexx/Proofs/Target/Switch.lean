import Mathlib
import Rexx.Target

/-!
# `Target.Switch` — switching to a name, once and twice

ADDRESS with a command switches to its name each time it is made; switching to it again changes nothing.
-/

namespace Rexx

open Text

open Std.DTreeMap.Internal

theorem Table.insert_impl {α δ : Type} [Ord α] [Std.LawfulEqOrd α] {k : α} {v : δ} (t : Impl α fun _ => δ) (hb : t.Balanced)
    (h : Impl.Const.get? t k = some v) : (Impl.insert k v t hb).impl = t := by
  induction t with
  | leaf => cases h
  | inner sz k' v' l r ihl ihr =>
    rw [Impl.Const.get?] at h
    rw [Impl.insert]
    cases hc : compare k k' with
    | lt =>
      rw [hc] at h
      simp only [Impl.balanceL_eq_balance]
      have hl := ihl hb.left h
      simp only [hl]
      exact Impl.balance_eq_inner hb
    | gt =>
      rw [hc] at h
      simp only [Impl.balanceR_eq_balance]
      have hr := ihr hb.right h
      simp only [hr]
      exact Impl.balance_eq_inner hb
    | eq =>
      rw [hc] at h
      cases h
      cases Std.LawfulEqOrd.eq_of_compare hc
      rfl

theorem Table.insert_of_getElem? {α : Type} {t : Table α} {k : Text} {v : α} (h : t[k]? = some v) : t.insert k v = t := by
  obtain ⟨⟨impl, wf⟩⟩ := t
  simp only [Std.TreeMap.insert, Std.DTreeMap.insert, Table.insert_impl impl wf.balanced h]

namespace Registry

variable {σ : Type} {r r' : Registry σ} {name auth asName : Text} {target : Option Text}

/-- **Switching to a name** binds the alias, or without one the name itself, if anything: to the same target with another
token, and only if it names that target or nothing. -/
theorem switch_spec (h : r.switch name auth asName = .ok (r', target)) : r' = r ∨ ∃ b, r[upper name]? = some b ∧
      r' = r.insert (upper (if asName.isEmpty then name else asName)) { b with auth } ∧
      ∀ e, r[upper (if asName.isEmpty then name else asName)]? = some e → e.target.id = b.target.id := by
  unfold switch at h
  dsimp only at h
  split at h
  · cases h
    exact .inl rfl
  · cases hb : r[upper name]? with
    | none =>
      rw [hb] at h
      cases h
    | some b =>
      rw [hb] at h
      dsimp only at h
      split at h
      · rename_i has
        rw [if_pos has]
        split at h
        · cases h
          exact .inl rfl
        · cases h
          refine .inr ⟨b, rfl, rfl, fun e he => ?_⟩
          cases hb.symm.trans he
          rfl
      · rename_i has
        rw [if_neg has]
        split at h
        · cases h
        · rename_i hfree
          cases h
          refine .inr ⟨b, rfl, rfl, fun e he => ?_⟩
          rw [he] at hfree
          simpa using hfree

theorem switch_again (h : r.switch name auth asName = .ok (r', target)) :
    r'.switch name auth asName = .ok (r', target) := by
  unfold switch at h ⊢
  dsimp only at h ⊢
  split at h
  · rename_i hk
    cases h
    rw [if_pos hk]
  · rename_i hk
    rw [if_neg hk]
    cases hb : r[upper name]? with
    | none =>
      rw [hb] at h
      cases h
    | some b =>
      rw [hb] at h
      dsimp only at h
      split at h
      · rename_i has
        split at h
        · rename_i hauth
          cases h
          simp only [hb, has, hauth, if_true]
        · rename_i hauth
          cases h
          have hself : (r.insert (upper name) { b with auth })[upper name]? = some { b with auth } := by simp
          simp only [hself, has, hauth, if_true, Bool.false_eq_true, if_false, Table.insert_of_getElem? hself]
      · rename_i has
        split at h
        · cases h
        · rename_i hid
          cases h
          have hself : (r.insert (upper asName) { b with auth })[upper asName]? = some { b with auth } := by simp
          -- The name is still bound to the same target, be it the alias itself or not.
          obtain ⟨b', hb', ht⟩ : ∃ b', (r.insert (upper asName) { b with auth })[upper name]? = some b' ∧
              b'.target = b.target ∧ b'.owner = b.owner := by
            rw [Std.TreeMap.getElem?_insert]
            split
            · exact ⟨_, rfl, rfl, rfl⟩
            · exact ⟨b, hb, rfl, rfl⟩
          simp only [hb', hself, has, Bool.false_eq_true, if_false, Table.insert_of_getElem? hself, ht.1, ht.2,
            Option.any_some, bne_self_eq_false]

end Registry

end Rexx

