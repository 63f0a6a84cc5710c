import Mathlib
import Rexx.Channel

/-!
# `Channel.Outstanding` — which requests are outstanding, and whose they are

What matters about a channel is who waits for which number (`Channel.owner?`).
-/

namespace Rexx.Channel

open List Option Std.TreeMap

variable {ch : Channel} {id k : UInt32} {waiting : Std.TreeMap UInt32 Waiting}

theorem owner?_empty (k : UInt32) : empty.owner? k = none := by
  simp [owner?, empty]

theorem owner?_ne_none_iff : ch.owner? k ≠ none ↔ ∃ w, ch.waiting[k]? = some w := by
  rw [owner?, Ne, map_eq_none_iff, ← Ne, ne_none_iff_exists']

theorem contains_iff_owner? : ch.waiting.contains k = true ↔ ch.owner? k ≠ none := by
  rw [contains_eq_isSome_getElem?, owner?_ne_none_iff, isSome_iff_exists]

theorem contains_eq_false_iff : ch.waiting.contains k = false ↔ ch.owner? k = none := by
  rw [← not_iff_not, Bool.not_eq_false, contains_iff_owner?]

/-! ## Posting -/

theorem owner?_issue (ch : Channel) (id : UInt32) (owner now general : Nat) (c : Checkpoint) (k : UInt32) :
    (ch.issue id owner now general c).owner? k = if id = k then some owner else ch.owner? k := by
  simp only [owner?, issue, Std.TreeMap.getElem?_insert, Std.LawfulEqCmp.compare_eq_iff_eq]
  split <;> rfl

theorem freeId?_spec {n : Nat} {start : UInt32}
    (h : freeId? waiting n start = some id) : id ≠ 0 ∧ waiting.contains id = false := by
  induction n generalizing start with
  | zero => cases h
  | succ n ih =>
    unfold freeId? at h
    split at h
    · exact ih h
    · rename_i hfree
      cases h
      simpa only [Bool.or_eq_true, decide_eq_true_eq, not_or, Bool.not_eq_true] using hfree

theorem post?_spec {ch' : Channel} {owner now general : Nat} {c : Checkpoint}
    (h : ch.post? owner now general c = some (id, ch')) :
    ch.owner? id = none ∧ ch' = ch.issue id owner now general c := by
  obtain ⟨k, hk, hp⟩ := map_eq_some_iff.1 h
  cases hp
  exact ⟨contains_eq_false_iff.1 (freeId?_spec hk).2, rfl⟩

theorem freeId?_eq_none {n : Nat} {start : UInt32} (h : freeId? waiting n start = none) :
    ∀ i < n, start + UInt32.ofNat i = 0 ∨ waiting.contains (start + UInt32.ofNat i) = true := by
  induction n generalizing start with
  | zero => exact fun i hi => absurd hi (Nat.not_lt_zero i)
  | succ n ih =>
    unfold freeId? at h
    split at h
    · rename_i htaken
      rintro (_ | i) hi
      · have hzero : start + UInt32.ofNat 0 = start := UInt32.add_zero start
        rw [hzero]
        simpa only [Bool.or_eq_true, decide_eq_true_eq] using htaken
      · have hstep : start + UInt32.ofNat (i + 1) = start + 1 + UInt32.ofNat i := by
          rw [UInt32.ofNat_add, UInt32.add_comm (UInt32.ofNat i), UInt32.add_assoc]
          rfl
        rw [hstep]
        exact ih h i (Nat.lt_of_succ_lt_succ hi)
    · cases h

/-- **A number is free** as long as not all of them are outstanding: of one more than there are outstanding requests, and
one more for zero, one must be free. -/
theorem post?_isSome (ch : Channel) (owner now general : Nat) (c : Checkpoint)
    (hroom : ch.outstanding < 2 ^ 32 - 1) : ∃ id ch', ch.post? owner now general c = some (id, ch') := by
  cases hk : freeId? ch.waiting (ch.waiting.size + 2) ch.nextId with
  | some id => exact ⟨id, _, by rw [post?, hk]; rfl⟩
  | none =>
    exfalso
    have htaken := freeId?_eq_none hk
    let tried := (Finset.range (ch.waiting.size + 2)).image fun i => ch.nextId + UInt32.ofNat i
    have htried : tried ⊆ insert 0 ch.waiting.keys.toFinset := by
      intro x hx
      obtain ⟨i, hi, rfl⟩ := Finset.mem_image.1 hx
      obtain h0 | hc := htaken i (Finset.mem_range.1 hi)
      · exact Finset.mem_insert.2 (.inl h0)
      · exact Finset.mem_insert.2 (.inr (by simpa using hc))
    have hinj : tried.card = ch.waiting.size + 2 := by
      rw [Finset.card_image_of_injOn, Finset.card_range]
      intro i hi j hj hij
      have hij' : UInt32.ofNat i = UInt32.ofNat j := (UInt32.add_right_inj ch.nextId).1 hij
      have hword : ∀ k ∈ Finset.range (ch.waiting.size + 2), (UInt32.ofNat k).toNat = k := by
        intro k hk
        have hk' := Finset.mem_range.1 hk
        unfold outstanding at hroom
        exact UInt32.toNat_ofNat_of_lt' (show k < 2 ^ 32 by omega)
      rw [← hword i hi, ← hword j hj, hij']
    have hkeys : (insert 0 ch.waiting.keys.toFinset).card ≤ ch.waiting.size + 1 := by
      refine (Finset.card_insert_le _ _).trans (Nat.succ_le_succ ((toFinset_card_le _).trans ?_))
      rw [length_keys]
    have := Finset.card_le_card htried
    omega

/-! ## Taking requests off -/

theorem withdraw_of_free (h : ch.owner? id = none) : ch.withdraw id = (false, ch) := by
  rw [withdraw, contains_eq_false_iff.2 h]
  rfl

theorem waiting_withdraw (ch : Channel) (id k : UInt32) :
    (ch.withdraw id).2.waiting[k]? = if id = k then none else ch.waiting[k]? := by
  unfold withdraw
  split
  · simp only [getElem?_erase, Std.LawfulEqCmp.compare_eq_iff_eq]
  · rename_i hc
    split
    · rename_i hk
      simpa [← hk] using hc
    · rfl

theorem owner?_withdraw (ch : Channel) (id k : UInt32) :
    (ch.withdraw id).2.owner? k = if id = k then none else ch.owner? k := by
  rw [owner?, waiting_withdraw]
  split <;> rfl

theorem withdraw_withdraw (ch : Channel) (id : UInt32) : ((ch.withdraw id).2.withdraw id).2 = (ch.withdraw id).2 := by
  rw [withdraw_of_free ((owner?_withdraw ch id id).trans (if_pos rfl))]

theorem outstanding_withdraw_issue (owner now general : Nat) (c : Checkpoint) (hfree : ch.owner? id = none) :
    ((ch.issue id owner now general c).withdraw id).2.outstanding = ch.outstanding := by
  have hin : (ch.issue id owner now general c).waiting.contains id = true := by simp [issue]
  unfold withdraw
  rw [hin]
  show ((ch.waiting.insert id _).erase id).size = ch.waiting.size
  rw [size_erase, size_insert]
  simp [contains_eq_false_iff.2 hfree]

theorem owner?_take (ch : Channel) (k : UInt32) : ch.take.2.owner? k = ch.owner? k := by
  unfold take
  split <;> rfl

theorem owner?_withdrawAll (l : List (UInt32 × Waiting)) (ch : Channel) (k : UInt32) :
    (l.foldl (fun ch (p : UInt32 × Waiting) => (ch.withdraw p.1).2) ch).owner? k =
      if k ∈ l.map Prod.fst then none else ch.owner? k := by
  induction l generalizing ch with
  | nil => simp
  | cons p l ih =>
    rw [foldl_cons, ih, owner?_withdraw]
    by_cases hk : p.1 = k
    · simp [hk]
    · have hk' : ¬ k = p.1 := fun h => hk h.symm
      simp only [map_cons, mem_cons, hk, hk', false_or, if_false]

theorem owner?_forget (ch : Channel) (owner : Nat) (k : UInt32) :
    (ch.forget owner).owner? k = if ch.owner? k = some owner then none else ch.owner? k := by
  have hmem : k ∈ (ch.waiting.toList.filter fun p => p.2.owner == owner).map Prod.fst ↔ ch.owner? k = some owner := by
    simp only [List.mem_map, List.mem_filter, Prod.exists, exists_and_right, exists_eq_right, owner?,
      map_eq_some_iff, mem_toList_iff_getElem?_eq_some, beq_iff_eq]
  have hall := owner?_withdrawAll (ch.waiting.toList.filter fun p => p.2.owner == owner) ch k
  simp only [hmem] at hall
  exact hall

end Rexx.Channel
