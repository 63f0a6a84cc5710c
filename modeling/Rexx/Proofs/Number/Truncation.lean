import Rexx.Proofs.Number.Layout
import Rexx.Builtin.Numbers

/-!
# `Number.Truncation` — when a number cut off is truncated

A number is cut off in its text with six places more, to which it is rounded, and of that text 63 characters are kept.
-/

namespace Rexx.Number

open List Spelling Text

variable {ds : Text} {v : Exact} {n : ℕ}

/-- A spelling of `d` truncated to `n` places. -/
structure Truncates (n : ℕ) (d : ℚ) (w : Spelling) : Prop where
  blanks : w.leading = 0 ∧ w.gap = 0 ∧ w.trailing = 0
  power : w.power = none
  fraction : w.fraction.map List.length = if n = 0 then none else some n
  sign : w.value = 0 ∨ SignType.sign w.value = SignType.sign d
  le : |w.value| ≤ |d|
  lt : |d| - |w.value| < 10 ^ (-n : ℤ)

/-! ## The text that is cut -/

theorem rowValue_take (h : ∀ c ∈ ds, c.isDigit = true) {j : ℕ} (hj : j ≤ ds.length) :
    rowValue (ds.take (ds.length - j)) = rowValue ds / 10 ^ j := by
  have hlt := @rowValue_lt (ds.drop (ds.length - j)) fun c hc => h c (mem_of_mem_drop hc)
  have hsplit := rowValue_append (ds.take (ds.length - j)) (ds.drop (ds.length - j))
  rw [length_drop, Nat.sub_sub_self hj] at hlt hsplit
  rw [take_append_drop] at hsplit
  rw [hsplit, Nat.mul_add_div (by positivity), Nat.div_eq_of_lt hlt, add_zero]

def units (n : ℕ) (v : Exact) : ℕ := (v.magnitude.scale 10 (n + 6 : ℕ)).round

theorem units_nearest (n : ℕ) (v : Exact) : Nearest (|v.value| * 10 ^ n * 10 ^ 6) (units n v) := by
  have h := Quotient.round_scale (q := v.magnitude) (b := 10) (by norm_num) (Quotient.scale_den (by norm_num) one_ne_zero _)
    (-((n + 6 : ℕ) : ℤ))
  rwa [neg_neg, zpow_neg, div_inv_eq_mul, zpow_natCast, Nat.cast_ofNat, pow_add, ← mul_assoc, ← v.abs_value] at h

def row (n : ℕ) (v : Exact) : Text := Text.zeroPadded (n + 6 + 1) (units n v)

def whole (n : ℕ) (v : Exact) : Text := (row n v).take ((row n v).length - (n + 6))

def point (n : ℕ) (v : Exact) : ℕ := (v.sign.text ++ whole n v).length

theorem row_digit (n : ℕ) (v : Exact) : ∀ c ∈ row n v, c.isDigit = true := by
  intro c hc
  obtain hc | hc := mem_append.1 hc
  · rw [eq_of_mem_replicate hc]
    rfl
  · exact isDigit_ofNat hc

theorem rowValue_row (n : ℕ) (v : Exact) : rowValue (row n v) = units n v := by
  have h := rowValue_zeros (n + 6 + 1 - (ofNat (units n v)).length) 0 (ofNat (units n v))
  rw [replicate_zero, append_nil, pow_zero, one_mul] at h
  exact h.trans (rowValue_ofNat _)

theorem length_row (n : ℕ) (v : Exact) : (row n v).length = max (n + 6 + 1) (ofNat (units n v)).length := by
  rw [row, zeroPadded, length_append, length_replicate]
  omega

theorem fixed_eq (n : ℕ) (v : Exact) :
    fixed (n + 6) v = v.sign.text ++ (whole n v ++ '.' :: (row n v).drop ((row n v).length - (n + 6))) := by
  unfold fixed Exact.sign
  cases v.negative <;> rfl

def unsigned (t : Text) : Text :=
  if t.all (fun c => c == '-' || c == '0' || c == '.') ∧ t.head? = some '-' then t.tail else t

theorem findIdx?_point {a : Text} (ha : '.' ∉ a) (r : Text) {k : ℕ} (hk : a.length < k) :
    ((a ++ '.' :: r).take k).findIdx? (· == '.') = some a.length := by
  have hnone : a.findIdx? (· == '.') = none := by
    rw [findIdx?_eq_none_iff]
    exact fun c hc => beq_false_of_ne fun he => ha (he ▸ hc)
  obtain ⟨j, hj⟩ : ∃ j, k - a.length = j + 1 := ⟨k - a.length - 1, by omega⟩
  rw [take_append, take_of_length_le hk.le, findIdx?_append, hnone, hj]
  simp [findIdx?_cons]

theorem whole_digit (n : ℕ) (v : Exact) : ∀ c ∈ whole n v, c.isDigit = true := fun c hc =>
  row_digit n v c (mem_of_mem_take hc)

theorem not_mem_sign_append (g : Sign) {r : Text} (hr : ∀ c ∈ r, c.isDigit = true) : '.' ∉ g.text ++ r := by
  intro h
  obtain h | h := mem_append.1 h
  · revert h
    cases g <;> decide
  · exact absurd (hr _ h) (by decide)

theorem truncated_eq (hfits : point n v + 1 + n ≤ fixedWidth) :
    truncated n v = unsigned ((fixed (n + 6) v).take (if n = 0 then point n v else point n v + 1 + n)) := by
  have hpoint : ((fixed (n + 6) v).take fixedWidth).findIdx? (· == '.') = some (point n v) := by
    rw [fixed_eq, ← append_assoc]
    exact findIdx?_point (not_mem_sign_append _ (whole_digit n v)) _ (lt_of_lt_of_le (by rw [point]; omega) hfits)
  have hplaces : (if (n : ℤ) + 6 < 0 then 6 else ((n : ℤ) + 6).toNat) = n + 6 := by
    rw [if_neg (by omega)]
    omega
  unfold truncated
  extract_lets places s cutTo t
  have hs : s = (fixed (n + 6) v).take fixedWidth := by rw [← hplaces]
  have ht : t = (fixed (n + 6) v).take (if n = 0 then point n v else point n v + 1 + n) := by
    simp only [t, cutTo, hs, hpoint, Int.natCast_eq_zero]
    split
    · rw [take_take, Nat.min_eq_left (by omega)]
    · rw [if_neg (by omega), take_take, Nat.min_eq_left (by omega)]
      congr 1
  rw [← ht]
  clear_value t
  unfold unsigned
  cases t with
  | nil => rfl
  | cons c t =>
    by_cases hc : c = '-'
    · subst hc
      simp
    · simp [hc]

theorem unsigned_text {g : Sign} (hg : g ≠ .plus) {r : Text} (hr : '-' ∉ r) :
    ∃ g' : Sign, unsigned (g.text ++ r) = g'.text ++ r ∧ (g' = g ∨ ∀ c ∈ r, c = '0' ∨ c = '.') := by
  unfold unsigned
  split
  · rename_i h
    obtain ⟨hall, hhead⟩ := h
    cases g with
    | plus => exact absurd rfl hg
    | none => exact absurd (mem_of_mem_head? hhead) hr
    | minus =>
      refine ⟨.none, rfl, .inr fun c hc => ?_⟩
      have hzero := all_eq_true.1 hall c (mem_append_right _ hc)
      simp only [Bool.or_eq_true, beq_iff_eq] at hzero
      obtain (rfl | h) | h := hzero
      · exact absurd hc hr
      · exact .inl h
      · exact .inr h
  · exact ⟨g, rfl, .inl rfl⟩

theorem unsigned_spelled {g : Sign} (hg : g ≠ .plus) {i : Text} {f : Option Text} (hdigit : ∀ c ∈ i ++ f.getD [], c.isDigit = true)
    (hne : i ++ f.getD [] ≠ []) : ∃ g' : Sign, (tight g' i f none hdigit hne).text = unsigned (g.text ++ (i ++ fractionText f)) ∧
      (g' = g ∨ rowValue (i ++ f.getD []) = 0) := by
  have hchar : ∀ c ∈ i ++ fractionText f, c.isDigit = true ∨ c = '.' := by
    intro c hc
    cases f with
    | none => exact .inl (hdigit c hc)
    | some f =>
      rw [fractionText, Option.elim_some, mem_append, mem_cons] at hc
      obtain hc | hc | hc := hc
      · exact .inl (hdigit c (mem_append_left _ hc))
      · exact .inr hc
      · exact .inl (hdigit c (mem_append_right _ hc))
  have hsub : ∀ c ∈ i ++ f.getD [], c ∈ i ++ fractionText f := by
    intro c hc
    cases f with
    | none => exact hc
    | some f => exact mem_append.2 ((mem_append.1 hc).imp id (mem_cons_of_mem _))
  obtain ⟨g', htext, hzero⟩ := unsigned_text hg fun h => absurd (hchar _ h) (by decide)
  refine ⟨g', ?_, hzero.imp id fun h => ?_⟩
  · rw [tight_text, htext]
    exact congrArg _ (congrArg _ (append_nil _))
  · have hzeros : i ++ f.getD [] = replicate (i ++ f.getD []).length '0' := by
      refine eq_replicate_of_mem fun c hc => (h c (hsub c hc)).resolve_right ?_
      exact Numeral.ne_of_isDigit (hdigit c hc) rfl
    rw [hzeros, ← append_nil (replicate _ _)]
    exact rowValue_zeros _ 0 []

theorem Sign.sign_apply (g : Sign) {q r : ℚ} (hq : 0 < q) (hr : 0 < r) : SignType.sign (g.apply q) = SignType.sign (g.apply r) := by
  cases g with
  | minus => exact (sign_neg (neg_neg_of_pos hq)).trans (sign_neg (neg_neg_of_pos hr)).symm
  | _ => exact (sign_pos hq).trans (sign_pos hr).symm

theorem sign_ne_plus (v : Exact) : v.sign ≠ .plus := by
  unfold Exact.sign
  split <;> decide

/-! ## The value that is cut -/

theorem rowValue_cut (n : ℕ) (v : Exact) : rowValue ((row n v).take ((row n v).length - 6)) = units n v / 10 ^ 6 := by
  rw [rowValue_take (row_digit n v) (by rw [length_row]; omega), rowValue_row]

theorem truncated_spelled (hfits : point n v + 1 + n ≤ fixedWidth) : ∃ w : Spelling, w.text = truncated n v ∧
    (w.leading = 0 ∧ w.gap = 0 ∧ w.trailing = 0) ∧ w.power = none ∧
    w.fraction.map length = (if n = 0 then none else some n) ∧
    (w.value = 0 ∨ w.sign = v.sign) ∧ |w.value| = (units n v / 10 ^ 6 : ℕ) / 10 ^ n := by
  have hlen := length_row n v
  set places := (row n v).drop ((row n v).length - (n + 6)) with hplaces
  have hlength : places.length = n + 6 := by
    rw [length_drop]
    omega
  set f : Option Text := if n = 0 then none else some (places.take n) with hf
  have hrow : whole n v ++ f.getD [] = (row n v).take ((row n v).length - 6) := by
    rw [show (row n v).length - 6 = (row n v).length - (n + 6) + n by omega, take_add, hf]
    by_cases hn : n = 0
    · simp [hn, whole]
    · simp [hn, whole, hplaces]
  have hcut : (fixed (n + 6) v).take (if n = 0 then point n v else point n v + 1 + n) =
      v.sign.text ++ (whole n v ++ fractionText f) := by
    rw [fixed_eq, ← append_assoc, ← append_assoc, hf]
    by_cases hn : n = 0
    · rw [if_pos hn, if_pos hn]
      exact (take_left' rfl).trans (append_nil _).symm
    · rw [if_neg hn, if_neg hn, Nat.add_assoc, point, take_length_add_append, Nat.add_comm 1]
      rfl
  have hdigit : ∀ c ∈ whole n v ++ f.getD [], c.isDigit = true := by
    rw [hrow]
    exact fun c hc => row_digit n v c (mem_of_mem_take hc)
  have hne : whole n v ++ f.getD [] ≠ [] := by
    rw [hrow]
    refine ne_nil_of_length_pos ?_
    rw [length_take]
    omega
  obtain ⟨g, htext, hsign⟩ := unsigned_spelled (sign_ne_plus v) hdigit hne
  have hcount : (f.getD []).length = n ∧ f.map length = if n = 0 then none else some n := by
    rw [hf]
    by_cases hn : n = 0
    · simp [hn]
    · simp [hn, hlength]
  have hvalue := (tight g _ f none hdigit hne).value_row
  change _ = g.apply (rowValue (whole n v ++ f.getD []) * 10 ^ (0 - ((f.getD []).length : ℤ)) : ℚ) at hvalue
  rw [hrow, rowValue_cut, hcount.1, zero_sub, zpow_neg, zpow_natCast, ← div_eq_mul_inv] at hvalue
  refine ⟨_, htext.trans (by rw [truncated_eq hfits, hcut]), ⟨rfl, rfl, rfl⟩, rfl, hcount.2, ?_, ?_⟩
  · obtain rfl | hzero := hsign
    · exact .inr rfl
    · rw [hrow, rowValue_cut] at hzero
      refine .inl (abs_eq_zero.1 ?_)
      rw [hvalue, Sign.abs_apply, hzero, Nat.cast_zero, zero_div, abs_zero]
  · rw [hvalue, Sign.abs_apply, abs_of_nonneg (by positivity)]

theorem units_div_eq_floor_iff (n : ℕ) (v : Exact) : units n v / 10 ^ 6 = ⌊|v.value| * 10 ^ n⌋₊ ↔
    Int.fract (|v.value| * 10 ^ n) < 1 - 1 / 2000000 := by
  have h := units_nearest n v
  set y := |v.value| * 10 ^ n with hy
  have hle : (⌊y⌋₊ : ℚ) ≤ y := Nat.floor_le (by positivity)
  have hlo : ⌊y⌋₊ * 10 ^ 6 ≤ units n v := by
    have := h.le (a := ⌊y⌋₊ * 10 ^ 6) (by push_cast; linarith)
    exact_mod_cast this
  have hhi := h.lt_iff (a := (⌊y⌋₊ + 1) * 10 ^ 6) ⟨(⌊y⌋₊ + 1) * 500000, by ring⟩
  have hfract : Int.fract y = y - ⌊y⌋₊ := by
    rw [Int.fract, ← natCast_floor_eq_intCast_floor (by positivity)]
  have hdiv : units n v / 10 ^ 6 = ⌊y⌋₊ ↔ (units n v : ℤ) < (⌊y⌋₊ + 1) * 10 ^ 6 := by omega
  rw [hdiv, hhi]
  push_cast
  constructor
  · intro hlt
    linarith
  · intro hlt
    linarith

theorem point_le (hv : |v.value| < 10 ^ 45) : point n v ≤ 47 := by
  have hunits : units n v ≤ 10 ^ (51 + n) := by
    have hle : |v.value| * 10 ^ n * 10 ^ 6 ≤ ((10 ^ (51 + n) : ℤ) : ℚ) := by
      push_cast
      rw [show (10 : ℚ) ^ (51 + n) = 10 ^ 45 * 10 ^ n * 10 ^ 6 by ring]
      gcongr
    exact_mod_cast (units_nearest n v).ge hle
  have hlen : (ofNat (units n v)).length ≤ 52 + n :=
    (Nat.length_toDigits_le_iff (by norm_num) (by omega)).2 (hunits.trans_lt (Nat.pow_lt_pow_right (by norm_num) (by omega)))
  have hsign : v.sign.text.length ≤ 1 := by cases v.sign <;> decide
  rw [point, whole, length_append, length_take, length_row]
  omega

theorem truncated_truncates_iff (hn : n ≤ 15) (hv : |v.value| < 10 ^ 45) :
    (∃ w : Spelling, w.text = truncated n v ∧ Truncates n v.value w) ↔ units n v / 10 ^ 6 = ⌊|v.value| * 10 ^ n⌋₊ := by
  have hpoint := point_le (n := n) hv
  obtain ⟨w, hw, hblanks, hpower, hfraction, hsign, hvalue⟩ := truncated_spelled (n := n) (v := v) (by rw [fixedWidth]; omega)
  have hfloor : |w.value| ≤ |v.value| ∧ |v.value| - |w.value| < 10 ^ (-n : ℤ) ↔ units n v / 10 ^ 6 = ⌊|v.value| * 10 ^ n⌋₊ := by
    rw [hvalue, eq_comm, Nat.floor_eq_iff (by positivity), div_le_iff₀ (by positivity), sub_lt_iff_lt_add, zpow_neg,
      zpow_natCast, inv_eq_one_div, ← add_div, lt_div_iff₀ (by positivity), add_comm]
  constructor
  · rintro ⟨w', hw', h⟩
    have hle := h.le
    have hlt := h.lt
    rw [value_eq_of_text (hw'.trans hw.symm)] at hle hlt
    exact hfloor.1 ⟨hle, hlt⟩
  · intro hunits
    obtain ⟨hle, hlt⟩ := hfloor.2 hunits
    refine ⟨w, hw, hblanks, hpower, hfraction, or_iff_not_imp_left.2 fun hne => ?_, hle, hlt⟩
    have hv : 0 < |v.value| := (abs_pos.2 hne).trans_le hle
    rw [v.abs_value] at hv
    have hrow : (0 : ℚ) ≤ rowValue (w.integral ++ w.fraction.getD []) * 10 ^ (powerValue w.power - (w.fraction.getD []).length) := by
      positivity
    have hw := w.value_row
    rw [v.value_eq, hw, hsign.resolve_left hne]
    rw [hw] at hne
    refine Sign.sign_apply _ (lt_of_le_of_ne hrow fun hzero => hne ?_) hv
    rw [← hzero]
    cases w.sign <;> simp [Sign.apply]

end Rexx.Number

namespace Rexx.Builtin

open Number

theorem number_eq_ok_iff {a : Args} {i : ℕ} {x : Float} : a.number i = .ok x ↔ ofText? (a.text i) = some x := by
  unfold Args.number
  cases ofText? (a.text i) <;> simp

theorem truncOf_eq {a : Args} {x : Float} {n : ℕ} {v : Exact} (hx : a.number 0 = .ok x) (hn : a.length 1 0 = .ok n) (hle : n ≤ 15)
    (hv : Exact.ofFloat? x = some v) : truncOf a = .ok (truncated n v) := by
  have hword : Text.toWord n = n := by
    unfold Text.toWord Int.bmod
    dsimp only
    split <;> omega
  have hdigits : ¬ maxDigits < (n : ℤ) := by
    rw [maxDigits]
    omega
  simp only [truncOf, hx, hn, bind, Except.bind, hword, if_neg hdigits, hv]

/-- **TRUNC truncates** a number below 10^45 exactly if it is not within half a unit of the sixth place more below the next multiple
of the last place that stays. -/
theorem truncOf_truncates_iff {a : Args} {x : Float} {n : ℕ} (hx : a.number 0 = .ok x) (hn : a.length 1 0 = .ok n) (hle : n ≤ 15) :
    ∃ v t, Exact.ofFloat? x = some v ∧ truncOf a = .ok t ∧ (|v.value| < 10 ^ 45 →
      ((∃ w : Spelling, w.text = t ∧ Truncates n v.value w) ↔ Int.fract (|v.value| * 10 ^ n) < 1 - 1 / 2000000)) := by
  obtain ⟨-, v, -, hv, -⟩ := ofFloat?_of_ofText? (number_eq_ok_iff.1 hx)
  refine ⟨v, truncated n v, hv, truncOf_eq hx hn hle hv, fun hsmall => ?_⟩
  rw [truncated_truncates_iff hle hsmall, units_div_eq_floor_iff]

theorem truncOf_truncates_negative : ∃ w : Spelling, truncOf ["-12.34567".toList, "3".toList] = .ok w.text ∧
    Truncates 3 (Exact.value ⟨true, 6949994351454889, -49⟩) w := by
  have hx : Args.number ["-12.34567".toList, "3".toList] 0 = .ok (Exact.toFloat ⟨true, 6949994351454889, -49⟩) :=
    number_eq_ok_iff.2 (ofText?_eq (n := ⟨true, "12".toList, "34567".toList, 0⟩) (by decide +kernel) (by decide +kernel))
  have hn : Args.length ["-12.34567".toList, "3".toList] 1 0 = .ok 3 := by decide +kernel
  obtain ⟨v, t, hv, ht, h⟩ := truncOf_truncates_iff hx hn (by decide)
  obtain rfl : v = ⟨true, 6949994351454889, -49⟩ := Option.some.inj (hv.symm.trans (by decide +kernel))
  have habs : |Exact.value ⟨true, 6949994351454889, -49⟩| = 6949994351454889 / 2 ^ 49 := by
    rw [Exact.abs_value, Exact.magnitude_value]
    norm_num
  have hfloor : ⌊(6949994351454889 / 2 ^ 49 * 10 ^ 3 : ℚ)⌋ = 12345 := Int.floor_eq_iff.2 ⟨by norm_num, by norm_num⟩
  rw [habs] at h
  obtain ⟨w, rfl, hw⟩ := (h (by norm_num)).2 (by rw [Int.fract, hfloor]; norm_num)
  exact ⟨w, ht, hw⟩

theorem truncOf_carry : truncOf ["0.9999999999".toList] = .ok ['1'] ∧
    ∃ x v, Args.number ["0.9999999999".toList] 0 = .ok x ∧ Exact.ofFloat? x = some v ∧
      ¬ ∃ w : Spelling, w.text = ['1'] ∧ Truncates 0 v.value w := by
  have hx : Args.number ["0.9999999999".toList] 0 = .ok (Exact.toFloat ⟨false, 9007199253840272, -53⟩) :=
    number_eq_ok_iff.2 (ofText?_eq (n := ⟨false, "0".toList, "9999999999".toList, 0⟩) (by decide +kernel) (by decide +kernel))
  have hv : Exact.ofFloat? (Exact.toFloat ⟨false, 9007199253840272, -53⟩) = some ⟨false, 9007199253840272, -53⟩ := by decide +kernel
  refine ⟨(truncOf_eq hx rfl (Nat.zero_le _) hv).trans (by decide +kernel), _, _, hx, hv, ?_⟩
  rintro ⟨w, hw, h⟩
  have hone : w.value = 1 := by
    have hread := w.read?_text
    rw [hw, show Numeral.read? ['1'] = some ⟨false, ['1'], [], 0⟩ by decide +kernel] at hread
    rw [← w.numeral_value, ← Option.some.inj hread, Numeral.value, Numeral.magnitude_value,
      show Numeral.significand ⟨false, ['1'], [], 0⟩ = 1 from rfl]
    norm_num [Numeral.scale]
  have hle := h.le
  rw [hone, Exact.abs_value, Exact.magnitude_value] at hle
  norm_num at hle

end Rexx.Builtin
