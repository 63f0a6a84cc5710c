import Rexx.Proofs.Template.Walk

/-!
# `Variable.Interpolation` — expanding a text one position at a time

`Interpolation.expand` goes from one opening delimiter to the next and gives up where no closing delimiter is left.
-/

namespace Rexx.Interpolation

open List Text

variable {p : MarkerPattern} {lookup : Text → Option Text} {s t u value rest left right name : Text}

/-- The value of the marker that a text begins with, and what follows that marker. -/
def markerAt? (p : MarkerPattern) (lookup : Text → Option Text) (s : Text) : Option (Text × Text) :=
  if p.opening.isPrefixOf s then
    (Text.cut? p.closing (s.drop p.opening.length)).bind fun m => (value? lookup m.1).map fun value => (value, m.2)
  else none

/-- **Expanding one position at a time.** -/
inductive Expands (p : MarkerPattern) (lookup : Text → Option Text) : Text → Text → Prop where
  | nil : Expands p lookup [] []
  | marker {s value rest t : Text} (h : markerAt? p lookup s = some (value, rest)) (ht : Expands p lookup rest t) :
      Expands p lookup s (value ++ t)
  | char {c : Char} {s t : Text} (h : markerAt? p lookup (c :: s) = none) (ht : Expands p lookup s t) :
      Expands p lookup (c :: s) (c :: t)

theorem markerAt?_of_not_prefix (h : ¬ p.opening <+: s) : markerAt? p lookup s = none :=
  if_neg fun hp => h (List.isPrefixOf_iff_prefix.1 hp)

theorem markerAt?_opening (right : Text) : markerAt? p lookup (p.opening ++ right) =
    (cut? p.closing right).bind fun m => (value? lookup m.1).map fun value => (value, m.2) := by
  simp [markerAt?]

theorem Expands.unique (hp : p.opening ≠ []) (h : Expands p lookup s t) (h' : Expands p lookup s u) : t = u := by
  have hnil : markerAt? p lookup [] = none := markerAt?_of_not_prefix fun h => hp (prefix_nil.1 h)
  induction h generalizing u with
  | nil =>
    cases h' with
    | nil => rfl
    | marker hm _ => cases hnil.symm.trans hm
  | marker hm _ ih =>
    cases h' with
    | nil => cases hnil.symm.trans hm
    | marker hm' ht' =>
      cases hm.symm.trans hm'
      rw [ih ht']
    | char hm' _ => cases hm'.symm.trans hm
  | char hm _ ih =>
    cases h' with
    | marker hm' _ => cases hm.symm.trans hm'
    | char _ ht' => rw [ih ht']

/-! ## Characters that are kept -/

theorem Expands.after (h : ∀ l m, left = l ++ m → m ≠ [] → markerAt? p lookup (m ++ s) = none)
    (hs : Expands p lookup s t) : Expands p lookup (left ++ s) (left ++ t) := by
  induction left with
  | nil => exact hs
  | cons c left ih =>
    refine .char (h [] (c :: left) rfl (by simp)) (ih fun l m hm hne => h (c :: l) m ?_ hne)
    rw [hm, cons_append]

theorem expands_self (h : ∀ u, u <:+ s → markerAt? p lookup u = none) : Expands p lookup s s := by
  have hkept : Expands p lookup (s ++ []) (s ++ []) := .after (fun l m hm _ => h _ ⟨l, by simp [hm]⟩) .nil
  rwa [append_nil] at hkept

theorem suffix_opening (h : u <:+ s) (hu : p.opening <+: u) : ∃ l r, s = l ++ p.opening ++ r ∧ u = p.opening ++ r := by
  obtain ⟨l, rfl⟩ := h
  obtain ⟨r, rfl⟩ := hu
  exact ⟨l, r, by simp, rfl⟩

theorem Expands.before_opening (h : cut? p.opening s = some (left, right))
    (ht : Expands p lookup (p.opening ++ right) t) : Expands p lookup s (left ++ t) := by
  obtain ⟨rfl, hleast⟩ := cut?_eq_some h
  rw [append_assoc]
  refine .after (fun l m hm hne => markerAt?_of_not_prefix fun hpre => ?_) ht
  obtain ⟨l', r, hs, hu⟩ := suffix_opening (suffix_append l _) hpre
  have hlen := hleast l' r (by rw [← hs, hm]; simp)
  have hl : l' = l := by
    have hs' : l ++ (m ++ (p.opening ++ right)) = l' ++ (m ++ (p.opening ++ right)) := by rw [hs, hu, append_assoc]
    exact (append_cancel_right hs').symm
  have hm' := length_pos_iff.2 hne
  rw [hm, hl, length_append] at hlen
  omega

theorem markerAt?_unclosed (h : cut? p.opening s = some (left, right)) (hc : cut? p.closing right = none)
    (hu : u <:+ s) : markerAt? p lookup u = none := by
  obtain ⟨hs, hleast⟩ := cut?_eq_some h
  by_cases hpre : p.opening <+: u
  · obtain ⟨l, r, hl, rfl⟩ := suffix_opening hu hpre
    have hr : r <:+ right := by
      refine suffix_of_suffix_length_le ⟨_, hl.symm⟩ ⟨_, hs.symm⟩ ?_
      have hlen := hleast l r hl
      have htotal := congrArg length (hs.symm.trans hl)
      simp only [length_append] at htotal
      omega
    rw [markerAt?_opening]
    cases hcut : cut? p.closing r with
    | none => rfl
    | some m =>
      have hclosing : p.closing <:+: r := ⟨m.1, m.2, (cut?_eq_some hcut).1.symm⟩
      exact absurd (hclosing.trans hr.isInfix) (cut?_eq_none hc)
  · exact markerAt?_of_not_prefix hpre

/-! ## The rounds of the search -/

theorem expandUpTo_expands (hp : p.opening ≠ []) {n : Nat} (hn : s.length ≤ n) :
    Expands p lookup s (expandUpTo p lookup n s) := by
  induction n generalizing s with
  | zero =>
    obtain rfl := length_eq_zero_iff.1 (Nat.le_zero.1 hn)
    exact .nil
  | succ n ih =>
    have hpos := length_pos_iff.2 hp
    rw [expandUpTo]
    cases hopen : cut? p.opening s with
    | none => exact expands_self fun u hu => markerAt?_of_not_prefix fun hpre =>
        cut?_eq_none hopen (hpre.isInfix.trans hu.isInfix)
    | some cut =>
      obtain ⟨left, right⟩ := cut
      dsimp only
      have hlen := congrArg length (cut?_eq_some hopen).1
      simp only [length_append] at hlen
      cases hclose : cut? p.closing right with
      | none => exact expands_self fun u => markerAt?_unclosed hopen hclose
      | some cut' =>
        obtain ⟨name, rest⟩ := cut'
        dsimp only
        have hlen' := congrArg length (cut?_eq_some hclose).1
        simp only [length_append] at hlen'
        cases hvalue : value? lookup name with
        | some value =>
          dsimp only
          rw [append_assoc]
          refine .before_opening hopen (.marker ?_ (ih (by omega)))
          rw [markerAt?_opening, hclose]
          exact congrArg (Option.map _) hvalue
        | none =>
          -- The first character of the delimiter is kept, and a marker may begin at the next one.
          obtain ⟨c, o, ho⟩ := exists_cons_of_ne_nil hp
          have hs : s = (left ++ [c]) ++ (o ++ right) := by
            rw [(cut?_eq_some hopen).1, ho]
            simp
          have hk : left.length + 1 = (left ++ [c]).length := by simp
          have htake : s.take (left.length + 1) = left ++ [c] := by rw [hs, hk, take_left]
          have hdrop : s.drop (left.length + 1) = o ++ right := by rw [hs, hk, drop_left]
          rw [htake, hdrop, append_assoc]
          refine .before_opening hopen ?_
          have hnone : markerAt? p lookup (p.opening ++ right) = none := by
            rw [markerAt?_opening, hclose]
            exact congrArg (Option.map _) hvalue
          rw [ho] at hnone ⊢
          refine .char hnone (ih ?_)
          show (o ++ right).length ≤ n
          rw [← hdrop, length_drop]
          omega

theorem expands_iff (hp : p.opening ≠ []) : Expands p lookup s t ↔ t = expand p lookup s :=
  ⟨fun h => h.unique hp (expandUpTo_expands hp le_rfl), fun h => h ▸ expandUpTo_expands hp le_rfl⟩

/-! ## The five patterns -/

def isMarkerChar (c : Char) : Bool := c == '\x7b' || c == '%' || c == '$'

theorem opening_of_mem (hp : p ∈ MarkerPattern.all) : ∃ c o, p.opening = c :: o ∧ isMarkerChar c = true := by
  have hall : ∀ p ∈ MarkerPattern.all, (p.opening.head?.any isMarkerChar) = true := by decide
  have h := hall p hp
  cases ho : p.opening with
  | nil => simp [ho] at h
  | cons c o => exact ⟨c, o, rfl, by simpa [ho] using h⟩

/-- **Expanding a text goes one position at a time**, whatever the pattern of markers and the variables. So values that were put
in are not looked at again, a text whose markers all name variables without values stays as it is, and so does a text without
any character that begins a marker; for a quoted literal that is what it means not to be marked. -/
theorem expands_one_position_at_a_time (hp : p ∈ MarkerPattern.all) (v : Variables) (s : Text) :
    (∀ t, Expands p v.peek? s t ↔ t = expand p v.peek? s) ∧
      (∀ value rest, markerAt? p v.peek? s = some (value, rest) →
        expand p v.peek? s = value ++ expand p v.peek? rest) ∧
      ((∀ left right name rest, s = left ++ p.opening ++ right → Text.cut? p.closing right = some (name, rest) →
        isMarkerName name = true → v.peek? (Text.upper name) = none) → expand p v.peek? s = s) ∧
      (∀ quote, Expr.isMarked s (some quote) = false ↔ ∀ c ∈ s, c ≠ '\x7b' ∧ c ≠ '%' ∧ c ≠ '$') ∧
      ((∀ c ∈ s, c ≠ '\x7b' ∧ c ≠ '%' ∧ c ≠ '$') → expand p v.peek? s = s) := by
  obtain ⟨c, o, ho, hc⟩ := opening_of_mem hp
  have hne : p.opening ≠ [] := by simp [ho]
  have hself : (∀ u, u <:+ s → markerAt? p v.peek? u = none) → expand p v.peek? s = s := fun h =>
    ((expands_iff hne).1 (expands_self h)).symm
  refine ⟨fun t => expands_iff hne, fun value rest hm => ?_, fun hunset => hself fun u hu => ?_, fun quote => ?_,
    fun hplain => hself fun u hu => ?_⟩
  · exact ((expands_iff hne).1 (.marker hm ((expands_iff hne).2 rfl))).symm
  · by_cases hpre : p.opening <+: u
    · obtain ⟨l, r, hs, rfl⟩ := suffix_opening hu hpre
      rw [markerAt?_opening]
      cases hcut : Text.cut? p.closing r with
      | none => rfl
      | some m =>
        have hvalue : value? v.peek? m.1 = none := by
          unfold value?
          split
          · exact hunset l r m.1 m.2 hs hcut ‹_›
          · rfl
        exact congrArg (Option.map _) hvalue
    · exact markerAt?_of_not_prefix hpre
  · simp [Expr.isMarked, and_assoc]
  · refine markerAt?_of_not_prefix fun hpre => ?_
    have hmem : c ∈ s := hu.subset (hpre.subset (by simp [ho]))
    simp [isMarkerChar, hplain c hmem] at hc

theorem expands_one_position_at_a_time_nested :
    let v := Variables.set ⟨.empty, .empty⟩ "X" "$$x$$"
    let p := MarkerPattern.ofName "doubledollar"
    p ∈ MarkerPattern.all ∧ markerAt? p v.peek? "$$x$$$" = some ("$$x$$".toList, "$".toList) ∧
      expand p v.peek? "$$x$$$" = "$$x$$".toList ++ expand p v.peek? "$" := by
  have hp : MarkerPattern.ofName "doubledollar" ∈ MarkerPattern.all := by decide
  have hm : markerAt? (.ofName "doubledollar") (Variables.set ⟨.empty, .empty⟩ "X" "$$x$$").peek? "$$x$$$" =
      some ("$$x$$".toList, "$".toList) := by decide +kernel
  exact ⟨hp, hm, (expands_one_position_at_a_time hp _ _).2.1 _ _ hm⟩

end Rexx.Interpolation
