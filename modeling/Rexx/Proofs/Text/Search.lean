import Rexx.Proofs.Number.Whole
import Rexx.Proofs.Template.Walk

/-!
# `Text.Search` — where one text stands in another

`Text.OccursAt` says at which columns a text stands in another. POS gives the least of these columns from a start on.
-/

namespace Rexx

namespace Text

variable {p s : Text}

/-! ## Columns -/

/-- A text stands in another from a column on. -/
def OccursAt (p s : Text) (k : Nat) : Prop := ∃ l r, s = l ++ p ++ r ∧ k = l.length + 1

/-- The least number of a set, or zero if there is none. -/
def LeastOrZero (S : Set Nat) (k : Nat) : Prop := IsLeast S k ∨ S = ∅ ∧ k = 0

/-- The greatest number of a set, or zero if there is none. -/
def GreatestOrZero (S : Set Nat) (k : Nat) : Prop := IsGreatest S k ∨ S = ∅ ∧ k = 0

theorem occursAt_succ_iff (hp : p ≠ []) {i : Nat} : OccursAt p s (i + 1) ↔ p <+: s.drop i := by
  constructor
  · rintro ⟨l, r, rfl, hi⟩
    rw [Nat.succ.inj hi, List.append_assoc, List.drop_left]
    exact List.prefix_append p r
  · rintro ⟨r, hr⟩
    have hlt : i < s.length := by
      by_contra hle
      rw [List.drop_eq_nil_of_le (Nat.le_of_not_lt hle)] at hr
      exact hp (List.append_eq_nil_iff.1 hr).1
    refine ⟨s.take i, r, ?_, by rw [List.length_take_of_le hlt.le]⟩
    rw [List.append_assoc, hr, List.take_append_drop]

theorem OccursAt.bounds {k : Nat} (h : OccursAt p s k) : 0 < k ∧ k + p.length ≤ s.length + 1 := by
  obtain ⟨l, r, rfl, rfl⟩ := h
  simp only [List.length_append]
  omega

theorem position_leastOrZero (hp : p ≠ []) (s : Text) {start : Nat} (hstart : 1 ≤ start) :
    LeastOrZero {k | start ≤ k ∧ OccursAt p s k} (position p s start) := by
  have hempty : p.isEmpty = false := List.isEmpty_eq_false_iff.2 hp
  -- an occurrence from the start on is one in what is left of the text there
  have hrest : ∀ l r, s = l ++ p ++ r → start ≤ l.length + 1 → s.drop (start - 1) = l.drop (start - 1) ++ p ++ r := by
    rintro l r rfl hle
    rw [List.append_assoc, List.drop_append_of_le_length (by omega), List.append_assoc]
  unfold position
  rw [hempty]
  simp only [Bool.false_eq_true, if_false]
  cases hcut : cut? p (s.drop (start - 1)) with
  | none =>
    refine .inr ⟨Set.eq_empty_of_forall_notMem ?_, rfl⟩
    rintro k ⟨hk, l, r, hs, rfl⟩
    exact cut?_eq_none hcut ⟨_, r, (hrest l r hs hk).symm⟩
  | some halves =>
    obtain ⟨left, right⟩ := halves
    obtain ⟨hs, hleast⟩ := cut?_eq_some hcut
    show LeastOrZero _ (start + left.length)
    refine .inl ⟨⟨Nat.le_add_right _ _, ?_⟩, ?_⟩
    · rw [show start + left.length = start - 1 + left.length + 1 by omega, occursAt_succ_iff hp, ← List.drop_drop, hs,
        List.append_assoc, List.drop_left]
      exact List.prefix_append p right
    · rintro k ⟨hk, l, r, hs', rfl⟩
      have := hleast _ r (hrest l r hs' hk)
      rw [List.length_drop] at this
      omega

theorem lastPositionUpTo_greatestOrZero (hp : p ≠ []) (s : Text) (last : Nat) :
    GreatestOrZero {k | OccursAt p s k ∧ k ≤ last + 1} (lastPositionUpTo p s last) := by
  induction last with
  | zero =>
    have hfirst := occursAt_succ_iff (s := s) hp (i := 0)
    rw [List.drop_zero] at hfirst
    have hone : ∀ k, OccursAt p s k → k ≤ 0 + 1 → k = 1 := fun k hk hle => le_antisymm hle hk.bounds.1
    rw [lastPositionUpTo]
    split
    · rename_i h
      exact .inl ⟨⟨hfirst.2 (List.isPrefixOf_iff_prefix.1 h), le_rfl⟩, fun k hk => hk.2⟩
    · rename_i h
      refine .inr ⟨Set.eq_empty_of_forall_notMem fun k hk => h ?_, rfl⟩
      rw [hone k hk.1 hk.2] at hk
      exact List.isPrefixOf_iff_prefix.2 (hfirst.1 hk.1)
  | succ last ih =>
    rw [lastPositionUpTo]
    split
    · rename_i h
      exact .inl ⟨⟨(occursAt_succ_iff hp).2 (List.isPrefixOf_iff_prefix.1 h), le_rfl⟩, fun k hk => hk.2⟩
    · rename_i h
      have hset : {k | OccursAt p s k ∧ k ≤ last + 1 + 1} = {k | OccursAt p s k ∧ k ≤ last + 1} := by
        ext k
        refine and_congr_right fun hk => ⟨fun hle => ?_, fun hle => Nat.le_succ_of_le hle⟩
        refine Nat.lt_succ_iff.1 (lt_of_le_of_ne hle fun heq => h ?_)
        rw [heq] at hk
        exact List.isPrefixOf_iff_prefix.2 ((occursAt_succ_iff hp).1 hk)
      rw [hset]
      exact ih

theorem GreatestOrZero.unique {S : Set Nat} {j k : Nat} (hj : GreatestOrZero S j) (hk : GreatestOrZero S k) : j = k := by
  obtain hj | ⟨hS, rfl⟩ := hj <;> obtain hk | ⟨hS', rfl⟩ := hk
  · exact hj.unique hk
  · exact absurd hj.1 (by simp [hS'])
  · exact absurd hk.1 (by simp [hS])
  · rfl

/-- The columns at which a text stands that ends by column `start`. -/
def endingBy (p s : Text) (start : Nat) : Set Nat := {k | OccursAt p s k ∧ k + p.length ≤ start + 1}

theorem lastPosition_greatestOrZero (hp : p ≠ []) {start : Nat} (h : p.length ≤ start) :
    GreatestOrZero (endingBy p s start) (lastPosition p s start) := by
  have hempty : p.isEmpty = false := List.isEmpty_eq_false_iff.2 hp
  unfold lastPosition
  by_cases hlen : s.length < p.length
  · simp only [hlen, decide_true, Bool.or_true, if_true]
    refine .inr ⟨Set.eq_empty_of_forall_notMem fun k hk => ?_, rfl⟩
    have := hk.1.bounds
    omega
  · simp only [hempty, hlen, decide_false, Bool.or_self, Bool.false_eq_true, if_false]
    have hset : endingBy p s start = {k | OccursAt p s k ∧ k ≤ min start s.length - p.length + 1} := by
      ext k
      refine and_congr_right fun hk => ?_
      have := hk.bounds
      omega
    rw [hset]
    exact lastPositionUpTo_greatestOrZero hp s _

theorem lastPosition_short (hp : p ≠ []) {start : Nat} (h : start < p.length) :
    endingBy p s start = ∅ ∧ lastPosition p s start = if p <+: s then 1 else 0 := by
  have hempty : p.isEmpty = false := List.isEmpty_eq_false_iff.2 hp
  constructor
  · refine Set.eq_empty_of_forall_notMem fun k hk => ?_
    have := hk.1.bounds
    have := hk.2
    omega
  · unfold lastPosition
    by_cases hlen : s.length < p.length
    · have hnot : ¬ p <+: s := fun hps => absurd hps.length_le (Nat.not_le.2 hlen)
      simp [hlen, hnot]
    · simp only [hempty, hlen, decide_false, Bool.or_self, Bool.false_eq_true, if_false]
      rw [show min start s.length - p.length = 0 by omega, lastPositionUpTo]
      simp only [List.isPrefixOf_iff_prefix]

theorem endingBy_take (p s : Text) (start : Nat) :
    endingBy p (s.take start) (s.take start).length = endingBy p s start := by
  ext k
  constructor
  · rintro ⟨⟨l, r, hs, rfl⟩, hle⟩
    rw [List.length_take] at hle
    refine ⟨⟨l, r ++ s.drop start, ?_, rfl⟩, by omega⟩
    rw [← List.append_assoc, ← hs, List.take_append_drop]
  · rintro ⟨⟨l, r, rfl, rfl⟩, hle⟩
    refine ⟨⟨l, r.take (start - (l ++ p).length), ?_, rfl⟩, ?_⟩
    · rw [List.take_append, List.take_of_length_le (by rw [List.length_append]; omega)]
    · simp only [List.length_take, List.length_append]
      omega

/-! ## All leftmost occurrences -/

/-- The parts of a text between the leftmost occurrences of another that do not overlap. -/
inductive Cuts (o : Text) : Text → List Text → Prop
  | last {s : Text} (h : ¬ o <:+: s) : Cuts o s [s]
  | cut {q r : Text} {qs : List Text} (hleast : ∀ l r', q ++ o ++ r = l ++ o ++ r' → q.length ≤ l.length) (h : Cuts o r qs) :
    Cuts o (q ++ o ++ r) (q :: qs)

variable {o : Text}

theorem between_skip (o : Text) (n : Nat) (s : Text) : between o n s = between o 0 (s.drop n) := by
  induction n generalizing s with
  | zero => rfl
  | succ n ih =>
    cases s with
    | nil => rfl
    | cons c s =>
      rw [between, ih]
      rfl

theorem between_eq (ho : o ≠ []) (s : Text) : between o 0 s =
    ((cut? o s).map fun halves => halves.1 :: between o 0 halves.2).getD [s] := by
  have hempty : o.isEmpty = false := List.isEmpty_eq_false_iff.2 ho
  induction s with
  | nil => simp [between, cut?, hempty]
  | cons c s ih =>
    rw [between, cut?]
    split
    · obtain ⟨d, o, rfl⟩ := List.exists_cons_of_ne_nil ho
      rw [between_skip]
      rfl
    · rw [ih]
      cases cut? o s <;> rfl

theorem cuts_between (ho : o ≠ []) (s : Text) : Cuts o s (between o 0 s) := by
  induction hlen : s.length using Nat.strong_induction_on generalizing s with
  | _ n ih =>
    rw [between_eq ho]
    cases hcut : cut? o s with
    | none => exact .last (cut?_eq_none hcut)
    | some halves =>
      obtain ⟨q, r⟩ := halves
      obtain ⟨rfl, hleast⟩ := cut?_eq_some hcut
      refine .cut hleast (ih r.length ?_ r rfl)
      have := List.length_pos_iff.2 ho
      simp only [List.length_append] at hlen
      omega

theorem Cuts.eq_between (ho : o ≠ []) {qs : List Text} (h : Cuts o s qs) : qs = between o 0 s := by
  induction h with
  | last h =>
    rename_i s
    rw [between_eq ho]
    cases hcut : cut? o s with
    | none => rfl
    | some halves => exact absurd ⟨_, _, (cut?_eq_some hcut).1.symm⟩ h
  | cut hleast _ ih =>
    rename_i q r qs _
    rw [between_eq ho]
    cases hcut : cut? o (q ++ o ++ r) with
    | none => exact absurd ⟨q, r, rfl⟩ (cut?_eq_none hcut)
    | some halves =>
      obtain ⟨hs, hleast'⟩ := cut?_eq_some hcut
      have hlen := le_antisymm (hleast _ _ hs) (hleast' _ _ rfl)
      rw [List.append_assoc, List.append_assoc] at hs
      obtain ⟨hq, hr⟩ := List.append_inj hs hlen
      rw [ih, hq, List.append_cancel_left hr]
      rfl

theorem intercalate_cons (n q : Text) {qs : List Text} (h : qs ≠ []) : n.intercalate (q :: qs) = q ++ n ++ n.intercalate qs := by
  obtain ⟨q', qs, rfl⟩ := List.exists_cons_of_ne_nil h
  simp [List.intercalate]

theorem Cuts.ne_nil {qs : List Text} (h : Cuts o s qs) : qs ≠ [] := by
  cases h <;> exact List.cons_ne_nil _ _

theorem Cuts.join {qs : List Text} (h : Cuts o s qs) : o.intercalate qs = s := by
  induction h with
  | last h => simp [List.intercalate]
  | cut _ h ih => rw [intercalate_cons o _ h.ne_nil, ih]

theorem Cuts.length_join {qs : List Text} (h : Cuts o s qs) (n : Text) :
    ((n.intercalate qs).length : ℤ) = s.length + ((qs.length : ℤ) - 1) * (n.length - o.length) := by
  induction h with
  | last h => simp [List.intercalate]
  | cut _ h ih =>
    rw [intercalate_cons n _ h.ne_nil]
    simp only [List.length_append, List.length_cons]
    push_cast
    rw [ih]
    ring

end Text

namespace Builtin

open Number Text

variable {p s x : Text} {start : Nat}

theorem posOf_eq (hx : Denotes x start) (hstart : 1 ≤ start) : posOf [p, s, x] = .ok (Text.ofNat (position p s start)) := by
  simp only [posOf, Args.positive_of_denotes (a := [p, s, x]) (i := 2) rfl hx hstart, bind, Except.bind]
  rfl

theorem lastposOf_eq (hx : Denotes x start) (hstart : 1 ≤ start) :
    lastposOf [p, s, x] = .ok (Text.ofNat (lastPosition p s start)) := by
  simp only [lastposOf, Args.positive_of_denotes (a := [p, s, x]) (i := 2) rfl hx hstart, bind, Except.bind]
  rfl

/-- **POS and LASTPOS find the extreme occurrence.** POS gives the least column from the start on. LASTPOS gives the greatest
column of an occurrence that ends by the start, which is the last one in the text up to there, exactly if the text that is looked
for is not longer than that or does not stand at the first column. -/
theorem positions_extreme (hp : p ≠ []) (s : Text) (hx : Denotes x start) (hstart : 1 ≤ start) :
    (∃ k, posOf [p, s, x] = .ok (Text.ofNat k) ∧ LeastOrZero {k | start ≤ k ∧ OccursAt p s k} k) ∧
      (∃ k, posOf [p, s] = .ok (Text.ofNat k) ∧ LeastOrZero {k | OccursAt p s k} k) ∧
      ∃ j k, lastposOf [p, s, x] = .ok (Text.ofNat j) ∧ lastposOf [p, s.take start] = .ok (Text.ofNat k) ∧
        GreatestOrZero (endingBy p s start) k ∧ (j = k ↔ p.length ≤ start ∨ ¬ p <+: s) := by
  have hfirst := position_leastOrZero hp s le_rfl
  have hset : {k | 1 ≤ k ∧ OccursAt p s k} = {k | OccursAt p s k} := by
    ext k
    exact and_iff_right_of_imp fun hk => hk.bounds.1
  rw [hset] at hfirst
  have htake : GreatestOrZero (endingBy p s start) (lastPosition p (s.take start) (s.take start).length) := by
    rw [← endingBy_take]
    by_cases h : p.length ≤ (s.take start).length
    · exact lastPosition_greatestOrZero hp h
    · refine .inr ⟨(lastPosition_short hp (Nat.lt_of_not_le h)).1, ?_⟩
      exact if_pos (by rw [Bool.or_eq_true]; exact .inr (decide_eq_true (Nat.lt_of_not_le h)))
  refine ⟨⟨_, posOf_eq hx hstart, position_leastOrZero hp s hstart⟩, ⟨_, rfl, hfirst⟩, lastPosition p s start,
    lastPosition p (s.take start) (s.take start).length, lastposOf_eq hx hstart, rfl, htake, ?_⟩
  by_cases h : p.length ≤ start
  · exact iff_of_true ((lastPosition_greatestOrZero hp h).unique htake) (.inl h)
  · obtain ⟨hnone, hshort⟩ := lastPosition_short (s := s) hp (Nat.lt_of_not_le h)
    have hzero : lastPosition p (s.take start) (s.take start).length = 0 := htake.unique (.inr ⟨hnone, rfl⟩)
    rw [hshort, hzero]
    by_cases hps : p <+: s <;> simp [hps, h]

theorem positions_extreme_overlapping : Denotes "4".toList 4 ∧
    ∃ k, posOf ["aa".toList, "aaaaa".toList, "4".toList] = .ok (Text.ofNat k) ∧
      LeastOrZero {k | 4 ≤ k ∧ OccursAt "aa".toList "aaaaa".toList k} k := by
  have hx : Denotes "4".toList 4 := by
    unfold Denotes
    decide +kernel
  exact ⟨hx, (positions_extreme (by decide) _ hx (by decide)).1⟩

theorem lastpos_beyond_start : lastposOf ["abc".toList, "abcdef".toList, "2".toList] = .ok "1".toList ∧
    endingBy "abc".toList "abcdef".toList 2 = ∅ ∧ lastposOf ["abc".toList, "abcdef".toList.take 2] = .ok "0".toList :=
  ⟨by decide +kernel, (lastPosition_short (by decide) (by decide)).1, by decide +kernel⟩

/-- **Replacing and counting agree.** A text is cut in one way at the leftmost occurrences of another that do not overlap.
COUNTSTR gives their number, and CHANGESTR puts the new text in their place. -/
theorem replaced_as_counted {o : Text} (ho : o ≠ []) (s n : Text) :
    ∃ q qs, (∀ parts, Cuts o s parts ↔ parts = q :: qs) ∧ o.intercalate (q :: qs) = s ∧
      countstrOf [o, s] = .ok (Text.ofNat qs.length) ∧ changestrOf [o, s, n] = .ok (n.intercalate (q :: qs)) ∧
      changestrOf [o, s, o] = .ok s ∧
      ((n.intercalate (q :: qs)).length : ℤ) = s.length + qs.length * (n.length - o.length) ∧
      ∃ k, posOf [o, s] = .ok (Text.ofNat k) ∧ (qs.length = 0 ↔ k = 0) := by
  have hempty : o.isEmpty = false := List.isEmpty_eq_false_iff.2 ho
  have hcuts := cuts_between ho s
  obtain ⟨q, qs, hqs⟩ := List.exists_cons_of_ne_nil hcuts.ne_nil
  have hreplace : ∀ n, changestrOf [o, s, n] = .ok (n.intercalate (q :: qs)) := by
    intro n
    show Except.ok (replaceAll o n s) = _
    rw [replaceAll, hempty, hqs]
    rfl
  have hcount : countstrOf [o, s] = .ok (Text.ofNat qs.length) := by
    show Except.ok (Text.ofNat (count o s)) = _
    rw [count, hempty, hqs]
    rfl
  have hone : ∀ parts, Cuts o s parts ↔ parts = q :: qs := fun parts =>
    ⟨fun h => (h.eq_between ho).trans hqs, fun h => by rw [h, ← hqs]; exact hcuts⟩
  rw [hqs] at hcuts
  refine ⟨q, qs, hone, hcuts.join, hcount, hreplace n, by rw [hreplace, hcuts.join], ?_, _, rfl, ?_⟩
  · rw [hcuts.length_join n, List.length_cons]
    push_cast
    ring
  · show qs.length = 0 ↔ position o s 1 = 0
    have hcut := between_eq ho s
    rw [hqs] at hcut
    rw [position, hempty]
    simp only [Bool.false_eq_true, if_false, Nat.sub_self, List.drop_zero]
    cases h : cut? o s with
    | none =>
      rw [h] at hcut
      simp [(List.cons.inj hcut).2]
    | some halves =>
      rw [h] at hcut
      have := (cuts_between ho halves.2).ne_nil
      simp [(List.cons.inj hcut).2, this]

theorem replaced_as_counted_overlapping : ∃ q qs, (∀ parts, Cuts "aba".toList "ababa".toList parts ↔ parts = q :: qs) ∧
    countstrOf ["aba".toList, "ababa".toList] = .ok (Text.ofNat qs.length) ∧
    changestrOf ["aba".toList, "ababa".toList, "xaba".toList] = .ok ("xaba".toList.intercalate (q :: qs)) := by
  obtain ⟨q, qs, hcuts, -, hcount, hchange, -⟩ := replaced_as_counted (o := "aba".toList) (by decide) "ababa".toList "xaba".toList
  exact ⟨q, qs, hcuts, hcount, hchange⟩

end Builtin

end Rexx
