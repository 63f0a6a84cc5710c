import Rexx.Builtin.Numbers
import Rexx.Proofs.Number.Spelling

/-!
# `Number.Whole` — whole numbers go through the number format

A function that writes a whole number writes all of its digits, and a function that reads it back rounds it to the
number format.
-/

namespace Rexx

open Args List Option Text

namespace Number

/-! ## Whole numbers that are kept -/

/-- A whole number with at most 53 binary digits, zeros at the end aside. -/
def Fits (n : ℕ) : Prop := ∃ m e, m < 2 ^ 53 ∧ n = m * 2 ^ e

theorem Fits.of_le {n : ℕ} (h : n ≤ 2 ^ 53) : Fits n := by
  obtain h | rfl := h.lt_or_eq
  · exact ⟨n, 0, h, (mul_one n).symm⟩
  · exact ⟨1, 53, by norm_num, by norm_num⟩

theorem Nearest.eq {a k : ℤ} (h : Nearest a k) : k = a := le_antisymm (h.ge le_rfl) (h.le le_rfl)

/-- The place at which a whole number is rounded. -/
def unitOf (n : ℕ) : ℤ := max (-1074) (Int.log 2 (n : ℚ) - 52)

variable {n : ℕ}

theorem unitOf_eq (n : ℕ) : unitOf n = (Nat.log 2 n : ℤ) - 52 := by
  rw [unitOf, Int.log_natCast]
  omega

theorem Fits.multiple (h : Fits n) : ∃ a : ℤ, (n : ℚ) = a * 2 ^ unitOf n := by
  obtain ⟨m, e, hle, hn⟩ : ∃ m e : ℕ, unitOf n ≤ e ∧ n = m * 2 ^ e := by
    by_cases hunit : unitOf n ≤ 0
    · exact ⟨n, 0, hunit, (mul_one n).symm⟩
    · obtain ⟨m, e, hm, hn⟩ := h
      refine ⟨m, e, ?_, hn⟩
      have hne : n ≠ 0 := by
        rintro rfl
        exact hunit (by decide +kernel)
      have hlt : Nat.log 2 n < 53 + e := by
        refine Nat.log_lt_of_lt_pow hne ?_
        rw [hn, pow_add]
        exact Nat.mul_lt_mul_of_pos_right hm (by positivity)
      have hlog := unitOf_eq n
      omega
  refine ⟨m * 2 ^ (e - unitOf n).toNat, ?_⟩
  have hpow : (2 : ℚ) ^ (e - unitOf n).toNat = 2 ^ (e - unitOf n) := by
    rw [← zpow_natCast, Int.toNat_of_nonneg (by omega)]
  push_cast
  rw [hpow, mul_assoc, ← zpow_add₀ (by norm_num), sub_add_cancel, zpow_natCast]
  exact_mod_cast hn

theorem RoundsTo.of_fits {r : ℚ} (h : RoundsTo 2 (unitOf n) n r) (hfits : Fits n) : r = n := by
  obtain ⟨k, hk, rfl⟩ := h
  obtain ⟨a, ha⟩ := hfits.multiple
  rw [ha, Nat.cast_two, mul_div_cancel_right₀ _ (by positivity)] at hk
  rw [hk.eq, ha, Nat.cast_two]

theorem RoundsTo.whole {r : ℚ} (h : RoundsTo 2 (unitOf n) n r) (hn : n ≤ 2 ^ 60) :
    ∃ k : ℕ, r = k ∧ k ≤ 2 ^ 60 ∧ RoundsTo 2 (max 0 (unitOf n)) n k := by
  have hlog := unitOf_eq n
  by_cases hunit : unitOf n ≤ 0
  · have hfits : Fits n := .of_le (Nat.lt_pow_of_log_lt (by norm_num) (by omega)).le
    rw [h.of_fits hfits, max_eq_left hunit]
    exact ⟨n, rfl, hn, n, .of_abs_lt (by simp), by simp⟩
  · have hhi : Nat.log 2 n ≤ 60 := (Nat.log_mono_right hn).trans (by rw [Nat.log_pow (by norm_num)])
    obtain ⟨j, hj⟩ : ∃ j : ℕ, unitOf n = j := ⟨_, (Int.toNat_of_nonneg (by omega)).symm⟩
    have hround := h
    obtain ⟨k, hk, rfl⟩ := h
    rw [hj, zpow_natCast] at hk
    have hpos : 0 ≤ k := hk.le (by positivity)
    have hle : k ≤ ((2 ^ (60 - j) : ℕ) : ℤ) := by
      refine hk.ge ?_
      rw [div_le_iff₀ (by positivity)]
      have hn' : (n : ℚ) ≤ 2 ^ (60 - j) * 2 ^ j := by
        rw [← pow_add, show 60 - j + j = 60 by omega]
        exact_mod_cast hn
      exact_mod_cast hn'
    lift k to ℕ using hpos
    have hvalue : ((k : ℤ) : ℚ) * (2 : ℕ) ^ unitOf n = (k * 2 ^ j : ℕ) := by
      rw [hj, zpow_natCast]
      push_cast
      rfl
    refine ⟨k * 2 ^ j, hvalue, ?_, ?_⟩
    · calc k * 2 ^ j ≤ 2 ^ (60 - j) * 2 ^ j := Nat.mul_le_mul_right _ (by exact_mod_cast hle)
        _ = 2 ^ 60 := by rw [← pow_add, show 60 - j + j = 60 by omega]
    · rwa [max_eq_right (by omega), ← hvalue]

/-! ## Writing and reading -/

theorem whole?_eq {x : Float} {v : Exact} {k : ℕ} (hv : Exact.ofFloat? x = some v) (hnegative : v.negative = false)
    (hk : v.magnitude.value = k) (hle : k ≤ wholeLimit) : whole? x = some (k : ℤ) := by
  have hden : v.magnitude.den ≠ 0 := Quotient.scale_den (by norm_num) (by norm_num) _
  have hnum : v.magnitude.num = k * v.magnitude.den := by
    rw [Quotient.value, div_eq_iff (by exact_mod_cast hden)] at hk
    exact_mod_cast hk
  have hdiv : v.magnitude.num / v.magnitude.den = k := by rw [hnum, Nat.mul_div_cancel _ (Nat.pos_of_ne_zero hden)]
  have hmod : v.magnitude.num % v.magnitude.den = 0 := by rw [hnum, Nat.mul_mod_left]
  simp only [whole?, hv, bind_eq_bind, bind_some, hdiv, hmod, hle, hnegative, true_and, if_true]
  rfl

theorem ofNat_read? (n : ℕ) : ∃ m : Numeral, Numeral.read? (ofNat n) = some m ∧ m.negative = false ∧
    m.magnitude.value = n := by
  let w : Spelling := .tight .none (ofNat n) none none
    (fun c hc => isDigit_ofNat (n := n) (by rwa [getD_none, append_nil] at hc))
    (by rw [getD_none, append_nil]; exact Nat.toDigits_ne_nil)
  have htext : w.text = ofNat n := by
    rw [Spelling.tight_text]
    simp [Sign.text, fractionText, powerText]
  refine ⟨w.numeral, htext ▸ w.read?_text, rfl, ?_⟩
  have hvalue : w.value = n := by
    rw [Spelling.value_row]
    show (rowValue (ofNat n ++ []) : ℚ) * 10 ^ ((0 : ℤ) - (0 : ℕ)) = n
    rw [append_nil, rowValue_ofNat]
    norm_num
  rw [← w.abs_value, hvalue, Nat.abs_cast]

theorem wholeOfText?_ofNat (hn : n ≤ 2 ^ 60) : ∃ k : ℕ, wholeOfText? (ofNat n) = some (k : ℤ) ∧ k ≤ 2 ^ 60 ∧
    RoundsTo 2 (max 0 (unitOf n)) n k ∧ (k = n ↔ Fits n) := by
  obtain ⟨m, hread, hnegative, hvalue⟩ := ofNat_read? n
  obtain ⟨hfinite, hrounds⟩ := nearest?_rounds m.magnitude_den m.negative
  rw [hvalue] at hfinite hrounds
  have hsmall : (n : ℚ) < overflow := by
    have hle : (n : ℚ) ≤ 2 ^ 60 := by exact_mod_cast hn
    refine hle.trans_lt ?_
    rw [overflow_eq]
    exact lt_mul_of_one_lt_left (by positivity) (by norm_num) |>.trans_le' (pow_le_pow_right₀ (by norm_num) (by norm_num))
  obtain ⟨v, hv⟩ := isSome_iff_exists.1 (hfinite.2 hsmall)
  obtain ⟨hcanonical, hsign, hround⟩ := hrounds v hv
  obtain ⟨k, hk, hle, hround'⟩ := RoundsTo.whole hround hn
  refine ⟨k, ?_, hle, hround', fun h => ?_, fun h => ?_⟩
  · rw [wholeOfText?, ofText?_eq hread hv, bind_some]
    exact whole?_eq hcanonical.ofFloat?_toFloat (hsign.trans hnegative) hk (hle.trans (by decide))
  · subst h
    rw [Exact.magnitude_value] at hk
    -- the mantissa is below `2 ^ 53`, and with a negative exponent the number is
    by_cases he : 0 ≤ v.exponent
    · refine ⟨v.mantissa, v.exponent.toNat, hcanonical.mantissa, ?_⟩
      rw [← Int.toNat_of_nonneg he, zpow_natCast] at hk
      exact_mod_cast hk.symm
    · refine .of_le (Nat.le_of_lt (lt_of_le_of_lt ?_ hcanonical.mantissa))
      have hone : (2 : ℚ) ^ v.exponent ≤ 1 := zpow_le_one_of_nonpos₀ (by norm_num) (by omega)
      have hcast : (k : ℚ) ≤ v.mantissa := by
        rw [← hk]
        exact mul_le_of_le_one_right (by positivity) hone
      exact_mod_cast hcast
  · have := RoundsTo.of_fits hround h
    exact_mod_cast hk.symm.trans this

/-- A text denotes a number that an argument may be. -/
def Denotes (x : Text) (n : ℕ) : Prop := wholeOfText? x = some (n : ℤ)

theorem denotes_ofNat (hn : n ≤ 2 ^ 53) : Denotes (ofNat n) n := by
  obtain ⟨k, hk, -, -, hfits⟩ := wholeOfText?_ofNat (hn.trans (by norm_num))
  rw [Denotes, hk, hfits.2 (.of_le hn)]

end Number

namespace Args

open Number

variable {a : Args} {x : Text} {i n : ℕ}

theorem whole_of_denotes (hx : a[i]? = some x) (h : Denotes x n) (d : ℤ) : a.whole i d = .ok (n : ℤ) := by
  unfold whole
  rw [hx]
  dsimp only
  rw [h]

theorem length_of_denotes (hx : a[i]? = some x) (h : Denotes x n) (d : ℕ) : a.length i d = .ok n := by
  simp only [length, whole_of_denotes hx h, bind, Except.bind]
  exact if_neg (by omega)

theorem positive_of_denotes (hx : a[i]? = some x) (h : Denotes x n) (hn : 1 ≤ n) : a.positive i = .ok n := by
  simp only [positive, whole_of_denotes hx h, bind, Except.bind]
  exact if_neg (by omega)

end Args

/-! ## Hexadecimal numbers -/

namespace Text

variable {s : Text} {c : Char}

theorem hexValue_concat (s : Text) (c : Char) : hexValue (s ++ [c]) = 16 * hexValue s + hexDigitValue c := by
  simp [hexValue, foldl_append]

theorem digitChar_hexDigitValue (hc : isHexDigit c = true) : hexDigitValue c < 16 ∧
    (Nat.digitChar (hexDigitValue c)).toUpper = c.toUpper ∧ (c.toUpper = '0' ↔ hexDigitValue c = 0) := by
  simp only [isHexDigit, Char.isDigit, Bool.or_eq_true, Bool.and_eq_true, decide_eq_true_eq, Char.le_def, ge_iff_le,
    UInt32.le_iff_toNat_le] at hc
  have hback : c = Char.ofNat c.val.toNat := (Char.ofNat_toNat c).symm
  generalize c.val.toNat = k at hc hback
  subst hback
  obtain (⟨hlo, hhi⟩ | ⟨hlo, hhi⟩) | ⟨hlo, hhi⟩ := hc
  all_goals
    simp at hlo hhi
    interval_cases k <;> decide

theorem hexDigits_step {n d : ℕ} (hn : 0 < n) (hd : d < 16) : hexDigits (16 * n + d) = hexDigits n ++ [d.digitChar.toUpper] := by
  rw [hexDigits, ← Nat.toDigits_append_toDigits (by norm_num) hn hd, Nat.toDigits_of_lt_base hd, upper, map_append]
  rfl

theorem hexValue_lt (hs : ∀ c ∈ s, isHexDigit c = true) : hexValue s < 16 ^ s.length := by
  induction s using reverseRecOn with
  | nil => exact Nat.one_pos
  | append_singleton t c ih =>
    have hc := (digitChar_hexDigitValue (hs c (by simp))).1
    have ht := ih fun d hd => hs d (by simp [hd])
    rw [hexValue_concat, length_append, length_singleton, pow_succ]
    omega

theorem hexValue_hexDigits (n : ℕ) : hexValue (hexDigits n) = n := by
  induction n using Nat.strong_induction_on with
  | _ n ih =>
    obtain hlt | hle := Nat.lt_or_ge n 16
    · interval_cases n <;> decide
    · have hd : n % 16 < 16 := Nat.mod_lt _ (by norm_num)
      have hvalue : hexDigitValue ((n % 16).digitChar.toUpper) = n % 16 := by
        generalize n % 16 = d at hd
        interval_cases d <;> decide
      conv_lhs => rw [← Nat.div_add_mod n 16]
      rw [hexDigits_step (Nat.div_pos hle (by norm_num)) hd, hexValue_concat, ih _ (by omega), hvalue, Nat.div_add_mod]

/-- The text in upper case without the zeros that it begins with, of which one is left if there is nothing else. -/
def shortened (s : Text) : Text := if stripLeft '0' (upper s) = [] then ['0'] else stripLeft '0' (upper s)

theorem stripLeft_upper (hs : ∀ c ∈ s, isHexDigit c = true) :
    stripLeft '0' (upper s) = if hexValue s = 0 then [] else hexDigits (hexValue s) := by
  induction s using reverseRecOn with
  | nil => rfl
  | append_singleton t c ih =>
    obtain ⟨hlt, hupper, hzero⟩ := digitChar_hexDigitValue (hs c (by simp))
    have ht := ih fun d hd => hs d (by simp [hd])
    unfold stripLeft at ht ⊢
    rw [upper, map_append, map_singleton, ← upper, dropWhile_append, ht, hexValue_concat]
    by_cases hvalue : hexValue t = 0
    · simp only [hvalue, if_true, isEmpty_nil, mul_zero, zero_add]
      by_cases hc : hexDigitValue c = 0
      · simp [hc, hzero.2 hc]
      · simp [hc, mt hzero.1 hc, hexDigits, Nat.toDigits_of_lt_base hlt, upper, hupper]
    · have hne : hexDigits (hexValue t) ≠ [] := by simp [hexDigits, upper, Nat.toDigits_ne_nil]
      simp only [hvalue, if_false, List.isEmpty_iff, hne]
      rw [if_neg (by omega), hexDigits_step (Nat.pos_of_ne_zero hvalue) hlt, hupper]

theorem hexDigits_hexValue (hs : ∀ c ∈ s, isHexDigit c = true) : hexDigits (hexValue s) = shortened s := by
  unfold shortened
  rw [stripLeft_upper hs]
  by_cases hvalue : hexValue s = 0
  · simp only [hvalue, if_true]
    decide
  · have hne : hexDigits (hexValue s) ≠ [] := by simp [hexDigits, upper, Nat.toDigits_ne_nil]
    simp only [hvalue, if_false, hne]

theorem right_shortened (hne : s ≠ []) : right s.length '0' (shortened s) = upper s := by
  have hlen : (upper s).length = s.length := length_map ..
  have hsplit := takeWhile_append_dropWhile (p := (· == '0')) (l := upper s)
  have hzeros : (upper s).takeWhile (· == '0') = replicate ((upper s).takeWhile (· == '0')).length '0' :=
    eq_replicate_of_mem fun c hc => by simpa using mem_takeWhile_imp hc
  have hpos := length_pos_iff.2 hne
  unfold shortened
  by_cases hrest : stripLeft '0' (upper s) = []
  · rw [stripLeft] at hrest
    rw [hrest, append_nil] at hsplit
    rw [stripLeft, hrest, if_pos rfl, ← hsplit, hzeros, hsplit, hlen, right]
    split
    · rw [length_singleton, show s.length = 1 by simp at *; omega]
      rfl
    · show replicate (s.length - 1) '0' ++ replicate 1 '0' = _
      rw [replicate_append_replicate, show s.length - 1 + 1 = s.length by omega]
  · rw [if_neg hrest]
    have hcount := congrArg List.length hsplit
    rw [length_append, hlen] at hcount
    conv_rhs => rw [← hsplit, hzeros]
    unfold right stripLeft
    split
    · rw [show ((upper s).takeWhile (· == '0')).length = 0 by omega]
      simp [show ((upper s).dropWhile (· == '0')).length - s.length = 0 by omega]
    · rw [show s.length - ((upper s).dropWhile (· == '0')).length = ((upper s).takeWhile (· == '0')).length by omega]

end Text

namespace Builtin

open Number Text

theorem x2dOf_eq_ok {h x : Text} (hx : x2dOf [h] = .ok x) :
    h.length ≤ 15 ∧ (∀ c ∈ h, isHexDigit c = true) ∧ x = Text.ofNat (hexValue h) := by
  have htext : text [h] 0 = h := rfl
  simp only [x2dOf, htext] at hx
  split at hx
  · cases hx
  · rename_i hok
    cases hx
    simp only [Bool.or_eq_true, decide_eq_true_eq, Bool.not_eq_true', not_or, Bool.not_eq_false, List.all_eq_true] at hok
    exact ⟨by omega, hok.2, rfl⟩

theorem d2xOf_eq {x : Text} {k : ℕ} (hx : Denotes x k) (hk : k ≤ 2 ^ 60) : d2xOf [x] = .ok (hexDigits k) ∧
    ∀ y l, Denotes y l → l ≤ maxLength → d2xOf [x, y] = .ok (Text.right l '0' (hexDigits k)) := by
  have hmod : ((k : ℤ) % 18446744073709551616).toNat = k := by omega
  have hpos : ¬ (k : ℤ) < 0 := by omega
  refine ⟨?_, fun y l hy hl => ?_⟩
  · simp [d2xOf, whole_of_denotes (a := [x]) (i := 0) rfl hx, bind, Except.bind, size, hmod]
  · simp [d2xOf, whole_of_denotes (a := [x, y]) (i := 0) rfl hx, bind, Except.bind, size, hmod,
      length_of_denotes (a := [x, y]) (i := 1) rfl hy, checkLength, hl, hpos]

/-- **Hexadecimal numbers come back from decimal** in upper case and without zeros in front, or with as many digits as they had
if that is asked for, exactly if they have at most 53 binary digits, zeros at the end aside. What comes back otherwise is the
number rounded to the number format. -/
theorem d2x_of_x2d {h x : Text} (hne : h ≠ []) (hx : x2dOf [h] = .ok x) :
    (Fits (hexValue h) → d2xOf [x] = .ok (shortened h) ∧ d2xOf [x, Text.ofNat h.length] = .ok (Text.upper h)) ∧
      ∃ k : ℕ, d2xOf [x] = .ok (hexDigits k) ∧ RoundsTo 2 (Max.max 0 (unitOf (hexValue h))) (hexValue h) k ∧
        (d2xOf [x] = .ok (shortened h) ↔ Fits (hexValue h)) := by
  obtain ⟨hlen, hhex, rfl⟩ := x2dOf_eq_ok hx
  have hlt : hexValue h ≤ 2 ^ 60 := by
    have hpow : 16 ^ h.length ≤ 16 ^ 15 := Nat.pow_le_pow_right (by norm_num) hlen
    have := hexValue_lt hhex
    omega
  obtain ⟨k, hk, hle, hround, hfits⟩ := wholeOfText?_ofNat hlt
  obtain ⟨hshort, hlong⟩ := d2xOf_eq hk hle
  have hback := hexDigits_hexValue hhex
  refine ⟨fun h' => ?_, k, hshort, hround, ?_⟩
  · have hlength : Denotes (Text.ofNat h.length) h.length := denotes_ofNat (by omega)
    rw [hshort, hlong _ _ hlength (by unfold Args.maxLength; omega), hfits.2 h', hback, right_shortened hne]
    exact ⟨rfl, rfl⟩
  · rw [hshort, ← hback, Except.ok.injEq, ← hfits]
    refine ⟨fun heq => ?_, fun heq => by rw [heq]⟩
    rw [← hexValue_hexDigits k, heq, hexValue_hexDigits]

theorem d2x_of_x2d_mixed : x2dOf ["0aF".toList] = .ok "175".toList ∧ d2xOf ["175".toList] = .ok "AF".toList ∧
    d2xOf ["175".toList, "3".toList] = .ok "0AF".toList := by
  have hx : x2dOf ["0aF".toList] = .ok "175".toList := by decide +kernel
  have hfits : Fits (hexValue "0aF".toList) := .of_le (by decide +kernel)
  exact ⟨hx, (d2x_of_x2d (by decide) hx).1 hfits⟩

theorem d2x_of_x2d_rounded : x2dOf ["20000000000001".toList] = .ok "9007199254740993".toList ∧
    d2xOf ["9007199254740993".toList] = .ok "20000000000000".toList ∧
    "20000000000000".toList ≠ shortened "20000000000001".toList := by
  decide +kernel

end Builtin

end Rexx
