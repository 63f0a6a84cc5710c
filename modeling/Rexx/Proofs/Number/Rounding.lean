import Mathlib
import Rexx.Number.Format

/-!
# `Number.Rounding` — rounding in whole numbers is rounding

The library rounds quotients of natural numbers, and finds the place to round at by counting digits.
-/

namespace Rexx.Number

open Exact

/-! ## The nearest whole number -/

/-- A whole number is nearest to a rational one; of two that are equally near it is the even one. -/
structure Nearest (q : ℚ) (k : ℤ) : Prop where
  near : |q - k| ≤ 1 / 2
  even : |q - k| = 1 / 2 → Even k

/-- Rounding `q` to a multiple of `b ^ e` gives `r`. -/
def RoundsTo (b : ℕ) (e : ℤ) (q r : ℚ) : Prop := ∃ k : ℤ, Nearest (q / b ^ e) k ∧ r = k * b ^ e

namespace Nearest

variable {q : ℚ} {k a : ℤ}

theorem neg (h : Nearest q k) : Nearest (-q) (-k) := by
  have habs : |-q - ((-k : ℤ) : ℚ)| = |q - k| := by
    rw [Int.cast_neg, ← neg_sub', abs_neg]
  exact ⟨habs ▸ h.near, fun he => (h.even (habs ▸ he)).neg⟩

theorem of_abs_lt (h : |q - k| < 1 / 2) : Nearest q k := ⟨h.le, fun he => absurd he h.ne⟩

theorem le (h : Nearest q k) (ha : (a : ℚ) ≤ q) : a ≤ k := by
  have hlt : (a : ℚ) < k + 1 := by linarith [(abs_le.1 h.near).2]
  exact Int.lt_add_one_iff.1 (by exact_mod_cast hlt)

theorem ge (h : Nearest q k) (ha : q ≤ a) : k ≤ a := by
  have hlt : (k : ℚ) < a + 1 := by linarith [(abs_le.1 h.near).1]
  exact Int.lt_add_one_iff.1 (by exact_mod_cast hlt)

theorem lt_iff (h : Nearest q k) (ha : Even a) : k < a ↔ q < a - 1 / 2 := by
  have hnear := abs_le.1 h.near
  constructor
  · intro hk
    have hka : (k : ℚ) ≤ a - 1 := by exact_mod_cast Int.le_sub_one_of_lt hk
    by_contra hq
    have htie : q - k = 1 / 2 := le_antisymm hnear.2 (by linarith)
    have heven := h.even (by rw [htie]; norm_num)
    have hk' : k = a - 1 := by
      have hk' : (k : ℚ) = a - 1 := by linarith
      exact_mod_cast hk'
    rw [hk', Int.even_sub_one] at heven
    exact heven ha
  · intro hq
    have hlt : (k : ℚ) < a := by linarith [hnear.1]
    exact_mod_cast hlt

end Nearest

namespace RoundsTo

variable {b : ℕ} {e : ℤ} {q r : ℚ}

theorem neg (h : RoundsTo b e q r) : RoundsTo b e (-q) (-r) := by
  obtain ⟨k, hk, rfl⟩ := h
  exact ⟨-k, by rw [neg_div]; exact hk.neg, by push_cast; ring⟩

theorem zero (b : ℕ) (e : ℤ) : RoundsTo b e 0 0 := ⟨0, ⟨by norm_num, by norm_num⟩, by norm_num⟩

end RoundsTo

/-! ## Quotients -/

namespace Quotient

variable {q : Quotient}

def value (q : Quotient) : ℚ := q.num / q.den

theorem scale_den {b : ℕ} (hb : b ≠ 0) (hd : q.den ≠ 0) (e : ℤ) : (q.scale b e).den ≠ 0 := by
  cases e with
  | ofNat k => exact hd
  | negSucc k => exact Nat.mul_ne_zero hd (pow_ne_zero _ hb)

theorem scale_num {b : ℕ} (hb : b ≠ 0) (e : ℤ) : (q.scale b e).num = 0 ↔ q.num = 0 := by
  cases e with
  | ofNat k => exact (Nat.mul_eq_zero).trans (or_iff_left (pow_ne_zero _ hb))
  | negSucc k => rfl

theorem value_scale {b : ℕ} (hb : b ≠ 0) (q : Quotient) (e : ℤ) : (q.scale b e).value = q.value * (b : ℚ) ^ e := by
  cases e with
  | ofNat k =>
    simp only [scale, value, Nat.pow_eq, Int.ofNat_eq_natCast, zpow_natCast]
    push_cast
    ring
  | negSucc k =>
    simp only [scale, value, Nat.pow_eq, zpow_negSucc]
    push_cast
    field_simp

theorem round_nearest (hd : q.den ≠ 0) : Nearest q.value q.round := by
  have hden : (0 : ℚ) < q.den := Nat.cast_pos.2 (Nat.pos_of_ne_zero hd)
  have hdiv := Nat.div_add_mod q.num q.den
  have hlt : ((q.num % q.den : ℕ) : ℚ) / q.den < 1 := by
    rw [div_lt_one hden, Nat.cast_lt]
    exact Nat.mod_lt _ (Nat.pos_of_ne_zero hd)
  unfold round roundDiv value
  dsimp only
  generalize q.num / q.den = k at *
  generalize q.num % q.den = r at *
  have hoff : (q.num : ℚ) / q.den - k = r / q.den := by
    rw [← hdiv]
    push_cast
    field_simp
    ring
  have hless : 2 * r < q.den ↔ (r : ℚ) / q.den < 1 / 2 := by
    rw [div_lt_div_iff₀ hden two_pos, one_mul, mul_comm]
    norm_cast
  have hmore : q.den < 2 * r ↔ (1 : ℚ) / 2 < r / q.den := by
    rw [div_lt_div_iff₀ two_pos hden, one_mul, mul_comm]
    norm_cast
  have hpos : (0 : ℚ) ≤ r / q.den := by positivity
  split
  · refine .of_abs_lt ?_
    rw [Int.cast_natCast, hoff, abs_of_nonneg hpos]
    exact hless.1 ‹_›
  · split
    · refine .of_abs_lt (abs_lt.2 ?_)
      have := hmore.1 ‹_›
      push_cast
      constructor <;> linarith
    · have htie : (r : ℚ) / q.den = 1 / 2 := le_antisymm (not_lt.1 (mt hmore.2 ‹_›)) (not_lt.1 (mt hless.2 ‹_›))
      rcases Nat.even_or_odd k with h | h
      · rw [Nat.even_iff.1 h, add_zero]
        exact ⟨by rw [Int.cast_natCast, hoff, htie]; norm_num, fun _ => by exact_mod_cast h⟩
      · rw [Nat.odd_iff.1 h]
        refine ⟨?_, fun _ => by exact_mod_cast h.add_one⟩
        push_cast
        rw [← sub_sub, hoff, htie]
        norm_num

theorem round_scale {b : ℕ} (hb : b ≠ 0) (hd : q.den ≠ 0) (e : ℤ) :
    Nearest (q.value / b ^ e) (q.scale b (-e)).round := by
  have h := round_nearest (scale_den hb hd (-e))
  rwa [value_scale hb, zpow_neg, ← div_eq_mul_inv] at h

end Quotient

/-! ## The place of the first digit -/

theorem log_eq {b : ℕ} (hb : 1 < b) {r : ℚ} {e : ℤ} (hle : (b : ℚ) ^ e ≤ r) (hlt : r < (b : ℚ) ^ (e + 1)) :
    Int.log b r = e := by
  have hr : 0 < r := lt_of_lt_of_le (zpow_pos (by positivity) e) hle
  exact le_antisymm (Int.lt_add_one_iff.1 ((Int.lt_zpow_iff_log_lt hb hr).1 hlt)) ((Int.zpow_le_iff_le_log hb hr).1 hle)

theorem decimalLength_le_iff (n j : ℕ) : decimalLength n ≤ j ↔ n < 10 ^ j := by
  induction n using Nat.strong_induction_on generalizing j with
  | _ n ih =>
    rw [decimalLength]
    split
    · simp [*]
    · cases j with
      | zero => simp [*]
      | succ j =>
        rw [Nat.add_le_add_iff_right, ih (n / 10) (by omega) j, Nat.div_lt_iff_lt_mul (by omega), Nat.pow_succ]

theorem decimalLength_bounds {n : ℕ} (hn : n ≠ 0) : ∃ j, decimalLength n = j + 1 ∧ 10 ^ j ≤ n ∧ n < 10 ^ (j + 1) := by
  obtain ⟨j, hj⟩ : ∃ j, decimalLength n = j + 1 := by
    rw [decimalLength, if_neg hn]
    exact ⟨_, rfl⟩
  refine ⟨j, hj, ?_, (decimalLength_le_iff n _).1 hj.le⟩
  by_contra hlt
  have := (decimalLength_le_iff n j).2 (not_le.1 hlt)
  omega

namespace Quotient

variable {q : Quotient}

theorem decimalExponent_eq (hn : q.num ≠ 0) (hd : q.den ≠ 0) : q.decimalExponent = Int.log 10 q.value := by
  have hden : (0 : ℚ) < q.den := Nat.cast_pos.2 (Nat.pos_of_ne_zero hd)
  unfold decimalExponent value
  split
  · rename_i hle
    obtain ⟨j, hj, hlo, hhi⟩ := decimalLength_bounds (Nat.div_pos hle (Nat.pos_of_ne_zero hd)).ne'
    rw [Nat.le_div_iff_mul_le (Nat.pos_of_ne_zero hd)] at hlo
    rw [Nat.div_lt_iff_lt_mul (Nat.pos_of_ne_zero hd)] at hhi
    rw [hj, Nat.cast_add_one, add_sub_cancel_right]
    refine (log_eq (by norm_num) ?_ ?_).symm
    · rw [le_div_iff₀ hden]
      exact_mod_cast hlo
    · rw [div_lt_iff₀ hden]
      exact_mod_cast hhi
  · rename_i hlt
    have hk : (q.den - 1) / q.num ≠ 0 := (Nat.div_pos (by omega) (Nat.pos_of_ne_zero hn)).ne'
    obtain ⟨j, hj, hlo, hhi⟩ := decimalLength_bounds hk
    rw [Nat.le_div_iff_mul_le (Nat.pos_of_ne_zero hn)] at hlo
    rw [Nat.div_lt_iff_lt_mul (Nat.pos_of_ne_zero hn)] at hhi
    have hlo' : (10 : ℚ) ^ j * q.num < q.den := by exact_mod_cast (show 10 ^ j * q.num < q.den by omega)
    have hhi' : (q.den : ℚ) ≤ 10 ^ (j + 1) * q.num := by exact_mod_cast (show q.den ≤ 10 ^ (j + 1) * q.num by omega)
    rw [hj]
    refine (log_eq (by norm_num) ?_ ?_).symm
    · rw [zpow_neg, le_div_iff₀ hden, inv_mul_le_iff₀ (by positivity)]
      exact_mod_cast hhi'
    · rw [show -((j + 1 : ℕ) : ℤ) + 1 = -(j : ℤ) by omega, zpow_neg, div_lt_iff₀ hden, lt_inv_mul_iff₀ (by positivity)]
      exact_mod_cast hlo'

theorem value_pos (hn : q.num ≠ 0) (hd : q.den ≠ 0) : 0 < q.value :=
  div_pos (Nat.cast_pos.2 (Nat.pos_of_ne_zero hn)) (Nat.cast_pos.2 (Nat.pos_of_ne_zero hd))

theorem pow_le_round {b : ℕ} (hb : 1 < b) (hn : q.num ≠ 0) (hd : q.den ≠ 0) {e : ℤ} {p : ℕ} (h : e + p ≤ Int.log b q.value) :
    b ^ p ≤ (q.scale b (-e)).round := by
  have hle : (((b ^ p : ℕ) : ℤ) : ℚ) ≤ q.value / (b : ℚ) ^ e := by
    have hb' : (b : ℚ) ≠ 0 := by positivity
    rw [le_div_iff₀ (by positivity), Int.cast_natCast, Nat.cast_pow, ← zpow_natCast, ← zpow_add₀ hb', add_comm]
    exact (Int.zpow_le_iff_le_log hb (value_pos hn hd)).2 h
  exact_mod_cast (round_scale (by omega) hd e).le hle

theorem round_le_pow {b : ℕ} (hb : 1 < b) (hn : q.num ≠ 0) (hd : q.den ≠ 0) {e : ℤ} {p : ℕ} (h : Int.log b q.value ≤ e + p) :
    (q.scale b (-e)).round ≤ b ^ (p + 1) := by
  have hle : q.value / (b : ℚ) ^ e ≤ (((b ^ (p + 1) : ℕ) : ℤ) : ℚ) := by
    have hb' : (b : ℚ) ≠ 0 := by positivity
    rw [div_le_iff₀ (by positivity), Int.cast_natCast, Nat.cast_pow, ← zpow_natCast, ← zpow_add₀ hb']
    refine ((Int.lt_zpow_iff_log_lt hb (value_pos hn hd)).2 ?_).le
    omega
  exact_mod_cast (round_scale (by omega) hd e).ge hle

/-- **Rounding to decimal digits**: the digits are as many as asked for, and stand for the quotient rounded at the place of the
last of them. -/
theorem toDecimal_rounds (hn : q.num ≠ 0) (hd : q.den ≠ 0) (places : ℕ) :
    10 ^ places ≤ (q.toDecimal places).digits ∧ (q.toDecimal places).digits < 10 ^ (places + 1) ∧
      RoundsTo 10 (Int.log 10 q.value - places) q.value
        ((q.toDecimal places).digits * 10 ^ ((q.toDecimal places).exponent - places)) := by
  have hround := round_scale (b := 10) (by norm_num) hd (Int.log 10 q.value - places)
  have hlo := pow_le_round (b := 10) (by norm_num) hn hd (e := Int.log 10 q.value - places) (p := places) (by omega)
  have hhi := round_le_pow (b := 10) (by norm_num) hn hd (e := Int.log 10 q.value - places) (p := places) (by omega)
  rw [neg_sub] at hround hlo hhi
  unfold toDecimal
  rw [decimalExponent_eq hn hd]
  dsimp only [Nat.pow_eq]
  split
  · rename_i hcarry
    rw [hcarry] at hround
    refine ⟨le_rfl, Nat.pow_lt_pow_right (by norm_num) (by omega), _, hround, ?_⟩
    push_cast
    rw [← zpow_natCast, ← zpow_natCast, ← zpow_add₀ (by norm_num), ← zpow_add₀ (by norm_num)]
    congr 1
    push_cast
    ring
  · rename_i hcarry
    exact ⟨hlo, lt_of_le_of_ne hhi hcarry, _, hround, by push_cast; rfl⟩

end Quotient

/-! ## The number format -/

namespace Exact

structure Canonical (v : Exact) : Prop where
  mantissa : v.mantissa < 2 ^ 53
  least : -1074 ≤ v.exponent
  greatest : v.exponent ≤ 971
  normal : v.mantissa < 2 ^ 52 → v.exponent = -1074

def value (v : Exact) : ℚ := if v.negative then -v.magnitude.value else v.magnitude.value

theorem magnitude_value (v : Exact) : v.magnitude.value = v.mantissa * 2 ^ v.exponent := by
  rw [magnitude, Quotient.value_scale (by norm_num), Quotient.value]
  simp

end Exact

def overflow : ℚ := 2 ^ 1024 - 2 ^ 970

theorem overflow_eq : overflow = (2 ^ 54 - 1) * 2 ^ 970 := by
  rw [overflow, sub_mul, one_mul, ← pow_add]

section

variable {q : Quotient}

theorem mantissaExponent_eq (hn : q.num ≠ 0) (hd : q.den ≠ 0) :
    mantissaExponent q = max (-1074) (Int.log 2 q.value - 52) := by
  have hden : (0 : ℚ) < q.den := Nat.cast_pos.2 (Nat.pos_of_ne_zero hd)
  have hlo : ((2 : ℕ) : ℚ) ^ (q.num.log2 - q.den.log2 - 1 : ℤ) < q.value := by
    have hnum : (2 : ℚ) ^ q.num.log2 ≤ q.num := by exact_mod_cast Nat.log2_self_le hn
    have hden' : (q.den : ℚ) < 2 ^ (q.den.log2 + 1) := by exact_mod_cast Nat.lt_log2_self
    rw [Quotient.value, lt_div_iff₀ hden, sub_sub, zpow_sub₀ (by norm_num)]
    refine lt_of_lt_of_le ?_ hnum
    rw [div_mul_eq_mul_div, div_lt_iff₀ (by positivity)]
    exact mul_lt_mul_of_pos_left (by exact_mod_cast hden') (by positivity)
  have hhi : q.value < ((2 : ℕ) : ℚ) ^ (q.num.log2 - q.den.log2 + 1 : ℤ) := by
    have hnum : (q.num : ℚ) < 2 ^ (q.num.log2 + 1) := by exact_mod_cast Nat.lt_log2_self
    have hden' : (2 : ℚ) ^ q.den.log2 ≤ q.den := by exact_mod_cast Nat.log2_self_le hd
    rw [Quotient.value, div_lt_iff₀ hden, sub_add_eq_add_sub, zpow_sub₀ (by norm_num), div_mul_eq_mul_div, lt_div_iff₀ (by positivity)]
    refine mul_lt_mul_of_nonneg_of_pos (by exact_mod_cast hnum) ?_ (by positivity) (by positivity)
    exact_mod_cast hden'
  have hbelow : (q.scale 2 (-(q.num.log2 - q.den.log2 : ℤ))).num < (q.scale 2 (-(q.num.log2 - q.den.log2 : ℤ))).den ↔
      q.value < ((2 : ℕ) : ℚ) ^ (q.num.log2 - q.den.log2 : ℤ) := by
    have hscaled := Nat.cast_pos (α := ℚ).2 (Nat.pos_of_ne_zero (Quotient.scale_den (b := 2) (by norm_num) hd
      (-(q.num.log2 - q.den.log2 : ℤ))))
    rw [← @Nat.cast_lt ℚ, ← div_lt_one hscaled, ← Quotient.value, Quotient.value_scale (by norm_num), zpow_neg,
      ← div_eq_mul_inv, div_lt_one (by positivity)]
  unfold mantissaExponent
  dsimp only
  split
  · rw [log_eq (by norm_num) hlo.le (by rw [sub_add_cancel]; exact hbelow.1 ‹_›), sub_sub _ 1]
    rfl
  · rw [log_eq (by norm_num) (not_lt.1 (mt hbelow.2 ‹_›)) hhi]

/-- **Rounding to the number format**: it fails from the overflow on, and below it gives a number of the format, which is the
quotient rounded at the place of its 53rd binary digit, or of the least unit. -/
theorem nearest?_rounds (hd : q.den ≠ 0) (negative : Bool) :
    ((nearest? negative q).isSome ↔ q.value < overflow) ∧
      ∀ v, nearest? negative q = some v → v.Canonical ∧ v.negative = negative ∧
        RoundsTo 2 (max (-1074) (Int.log 2 q.value - 52)) q.value v.magnitude.value := by
  have hover := overflow_eq
  by_cases hn : q.num = 0
  · have hvalue : q.value = 0 := by simp [Quotient.value, hn]
    rw [nearest?, if_pos hn, hvalue, hover]
    refine ⟨⟨fun _ => by positivity, fun _ => rfl⟩, ?_⟩
    rintro v ⟨⟩
    refine ⟨⟨by norm_num, le_rfl, by norm_num, fun _ => rfl⟩, rfl, ?_⟩
    rw [magnitude_value]
    simpa using RoundsTo.zero 2 _
  have hpos := Quotient.value_pos hn hd
  have hexp := mantissaExponent_eq hn hd
  have hround := Quotient.round_scale (b := 2) (by norm_num) hd (mantissaExponent q)
  have hhi : (q.scale 2 (-mantissaExponent q)).round ≤ 2 ^ 53 := Quotient.round_le_pow (by norm_num) hn hd (by omega)
  have hlo : mantissaExponent q ≠ -1074 → 2 ^ 52 ≤ (q.scale 2 (-mantissaExponent q)).round := fun _ =>
    Quotient.pow_le_round (by norm_num) hn hd (by omega)
  -- Overflow is decided by the unit, and in the greatest unit by the carry.
  have hsmall : q.value < overflow ↔ mantissaExponent q < 971 ∨
      mantissaExponent q = 971 ∧ (q.scale 2 (-mantissaExponent q)).round < 2 ^ 53 := by
    rcases lt_trichotomy (mantissaExponent q) 971 with h | h | h
    · refine ⟨fun _ => .inl h, fun _ => ?_⟩
      have hlt := (Int.lt_zpow_iff_log_lt (b := 2) (by norm_num) hpos).2 (show Int.log 2 q.value < (1023 : ℕ) by omega)
      rw [zpow_natCast, show (1023 : ℕ) = 53 + 970 from rfl, pow_add] at hlt
      rw [hover]
      exact hlt.trans (mul_lt_mul_of_pos_right (by norm_num) (by positivity))
    · have hcarry := hround.lt_iff (a := 2 ^ 53) (by decide)
      have hmiddle : (((2 ^ 53 : ℤ) : ℚ) - 1 / 2) * ((2 : ℕ) : ℚ) ^ (971 : ℤ) = overflow := by
        rw [hover, show (971 : ℤ) = (970 + 1 : ℕ) from rfl, zpow_natCast, pow_succ' _ 970, Nat.cast_two, ← mul_assoc]
        norm_num
      rw [h, div_lt_iff₀ (by positivity), hmiddle] at hcarry
      rw [h, ← hcarry]
      norm_cast
      simp
    · refine ⟨fun hlt => ?_, fun hor => by omega⟩
      have hle := (Int.zpow_le_iff_le_log (b := 2) (by norm_num) hpos).2 (show ((1024 : ℕ) : ℤ) ≤ Int.log 2 q.value by omega)
      rw [zpow_natCast, show (1024 : ℕ) = 54 + 970 from rfl, pow_add] at hle
      rw [hover] at hlt
      exact absurd (hle.trans_lt hlt) (not_lt.2 (mul_le_mul_of_nonneg_right (by norm_num) (by positivity)))
  have hunit' : RoundsTo 2 (mantissaExponent q) q.value ((q.scale 2 (-mantissaExponent q)).round * 2 ^ mantissaExponent q) :=
    ⟨_, hround, by push_cast; rfl⟩
  rw [hsmall, ← hexp, nearest?, if_neg hn]
  dsimp only [Nat.pow_eq]
  split
  · rename_i htop
    rw [htop] at hunit' ⊢
    dsimp only
    split
    · exact ⟨⟨fun h => by simp at h, fun h => by omega⟩, fun v hv => by cases hv⟩
    · refine ⟨⟨fun _ => by omega, fun _ => rfl⟩, ?_⟩
      rintro v ⟨⟩
      refine ⟨⟨by norm_num, by dsimp only; omega, by dsimp only; omega, fun h => absurd h (lt_irrefl _)⟩, rfl, ?_⟩
      rw [magnitude_value]
      dsimp only
      rw [zpow_add_one₀ (by norm_num)]
      convert hunit' using 1
      push_cast
      ring
  · rename_i htop
    dsimp only
    split
    · exact ⟨⟨fun h => by simp at h, fun h => by omega⟩, fun v hv => by cases hv⟩
    · have hlt := lt_of_le_of_ne hhi htop
      refine ⟨⟨fun _ => by omega, fun _ => rfl⟩, ?_⟩
      rintro v ⟨⟩
      refine ⟨⟨hlt, by dsimp only; omega, by dsimp only; omega, fun h => ?_⟩, rfl, by rw [magnitude_value]; exact hunit'⟩
      by_contra hne
      exact absurd (hlo hne) (not_le.2 h)

theorem nearest?_tiny (hn : q.num ≠ 0) (hd : q.den ≠ 0) (negative : Bool) (hq : q.value < 2 ^ (-1075 : ℤ)) :
    nearest? negative q = some ⟨negative, 0, -1074⟩ := by
  obtain ⟨hfinite, hrounds⟩ := nearest?_rounds hd negative
  have hpos := Quotient.value_pos hn hd
  have hover : (2 : ℚ) ^ (-1075 : ℤ) < overflow := by
    rw [overflow_eq]
    refine (zpow_le_one_of_nonpos₀ (by norm_num) (by norm_num)).trans_lt ?_
    exact one_lt_mul_of_lt_of_le (by norm_num) (one_le_pow₀ (by norm_num))
  obtain ⟨v, hv⟩ := Option.isSome_iff_exists.1 (hfinite.2 (hq.trans hover))
  obtain ⟨hcanonical, hnegative, k, hk, hmagnitude⟩ := hrounds v hv
  have hlog : Int.log 2 q.value < -1075 := (Int.lt_zpow_iff_log_lt (by norm_num) hpos).1 (by exact_mod_cast hq)
  have hunit : (2 : ℚ) ^ (-1075 : ℤ) = 1 / 2 * 2 ^ (-1074 : ℤ) := by
    rw [show (-1075 : ℤ) = -1 + -1074 from rfl, zpow_add₀ (by norm_num)]
    norm_num
  rw [max_eq_left (by omega)] at hk hmagnitude
  have hhalf : q.value / 2 ^ (-1074 : ℤ) < 1 / 2 := by rwa [div_lt_iff₀ (by positivity), ← hunit]
  have hk0 : k = 0 := by
    have hnear := abs_le.1 hk.near
    have hnonneg : 0 ≤ q.value / 2 ^ (-1074 : ℤ) := by positivity
    have habs : |(k : ℚ)| < 1 := abs_lt.2 ⟨by linarith, by linarith⟩
    exact Int.abs_lt_one_iff.1 (by exact_mod_cast habs)
  rw [hk0, Int.cast_zero, zero_mul, magnitude_value] at hmagnitude
  have hmantissa : v.mantissa = 0 := by exact_mod_cast (mul_eq_zero.1 hmagnitude).resolve_right (by positivity)
  rw [hv, ← hnegative, ← hcanonical.normal (by omega), ← hmantissa]

end

/-! ## The bits of a number -/

open Float.Model Float.Model.UnpackedFloat in
theorem pack_unpack {b : BitVec Format.binary64.numBits} (h : unpackExponent b ≠ -1#11) :
    UnpackedFloat.pack .binary64 (UnpackedFloat.unpack .binary64 b) = b := by
  have hsign : ∀ v : BitVec 1, (Sign.ofBitVec v).toBitVec = v := by decide
  have hsplit : packComponents .binary64 (Sign.ofBitVec (unpackSign b)) (unpackExponent b) (unpackMantissa b) = b := by
    simp only [packComponents, hsign, unpackSign, unpackExponent, unpackMantissa, BitVec.extractLsb]
    ext i hi
    grind
  have hlt : (unpackMantissa b).toNat < 2 ^ 52 := (unpackMantissa b).isLt
  unfold UnpackedFloat.unpack
  simp only [if_neg h]
  split
  · rename_i hzero
    rw [hzero] at hsplit
    split
    · rename_i hmantissa
      rw [hmantissa] at hsplit
      exact hsplit
    · rename_i hmantissa
      have hlog : (unpackMantissa b).toNat.log2 < 52 :=
        (Nat.log2_lt (by simpa [← BitVec.toNat_inj] using hmantissa)).2 hlt
      rw [hzero]
      unfold UnpackedFloat.pack
      simp only [BitVec.ofNat_toNat, BitVec.setWidth_eq]
      rw [if_neg (by decide), if_neg (by simp only [Format.mantissaBits]; omega)]
      exact hsplit
  · have hm : (1#1 ++ unpackMantissa b).toNat = 2 ^ 52 + (unpackMantissa b).toNat := by
      rw [BitVec.toNat_append, ← Nat.shiftLeft_add_eq_or_of_lt hlt]
      rfl
    have hlog : (2 ^ 52 + (unpackMantissa b).toNat).log2 = 52 := by
      rw [Nat.log2_eq_iff (by omega)]
      omega
    have hexp : (unpackExponent b).toNat < 2 ^ 11 := (unpackExponent b).isLt
    have hne : (unpackExponent b).toNat ≠ 2047 := fun he => h (BitVec.eq_of_toNat_eq he)
    have hbias : ∀ x y : ℤ, x - (y + (52 : ℕ)) + y + (52 : ℕ) = x := by omega
    have hmantissa : BitVec.ofNat 52 (2 ^ 52 + (unpackMantissa b).toNat) = unpackMantissa b := by
      rw [BitVec.ofNat_add, BitVec.ofNat_toNat, BitVec.setWidth_eq]
      exact BitVec.zero_add _
    unfold UnpackedFloat.pack
    simp only [hm, hlog, hbias, Int.toNat_natCast, BitVec.ofNat_toNat, BitVec.setWidth_eq, hmantissa]
    rw [if_neg (by omega), if_pos (by rfl)]
    exact hsplit

theorem toBits_ofBits {b : UInt64} (h : b.toNat / 2 ^ 52 % 2 ^ 11 ≠ 2047) : (Float.ofBits b).toBits = b := by
  refine congrArg UInt64.ofBitVec (pack_unpack fun he => h ?_)
  have := congrArg BitVec.toNat he
  simp [Float.Model.UnpackedFloat.unpackExponent, Nat.shiftRight_eq_div_pow] at this
  exact this

theorem Exact.Canonical.ofFloat?_toFloat {v : Exact} (h : v.Canonical) : ofFloat? v.toFloat = some v := by
  obtain ⟨negative, m, e⟩ := v
  obtain ⟨hm, hleast, hgreatest, hnormal⟩ := h
  dsimp only at *
  unfold toFloat ofFloat?
  dsimp only [Nat.pow_eq]
  generalize hmag : (if m < 2 ^ 52 then m else (e + 1075).toNat * 2 ^ 52 + (m - 2 ^ 52)) = magnitude
  generalize hsign : (if negative then 2 ^ 63 else 0) = sign
  have hsmall : magnitude < 2047 * 2 ^ 52 := by
    rw [← hmag]
    split <;> omega
  have hsign' : sign = 2 ^ 63 ∧ negative = true ∨ sign = 0 ∧ negative = false := by
    cases negative <;> simp_all
  have hbits : (UInt64.ofNat (sign + magnitude)).toNat = sign + magnitude :=
    UInt64.toNat_ofNat_of_lt (by rw [UInt64.size]; omega)
  have hback : (Float.ofBits (UInt64.ofNat (sign + magnitude))).toBits.toNat = sign + magnitude := by
    rw [toBits_ofBits (by rw [hbits]; omega), hbits]
  have hnegative : decide (2 ^ 63 ≤ sign + magnitude) = negative := by
    obtain ⟨rfl, rfl⟩ | ⟨rfl, rfl⟩ := hsign'
    · exact decide_eq_true (by omega)
    · exact decide_eq_false (by omega)
  have hbiased : (sign + magnitude) / 2 ^ 52 % 2 ^ 11 = magnitude / 2 ^ 52 := by omega
  have hfraction : (sign + magnitude) % 2 ^ 52 = magnitude % 2 ^ 52 := by omega
  rw [hback, hnegative, hbiased, hfraction]
  by_cases h : m < 2 ^ 52
  · rw [if_pos h] at hmag
    rw [if_neg (by omega), if_pos (by omega), hnormal h, ← hmag, Nat.mod_eq_of_lt h]
  · rw [if_neg h] at hmag
    rw [if_neg (by omega), if_neg (by omega), show 2 ^ 52 + magnitude % 2 ^ 52 = m by omega,
      show ((magnitude / 2 ^ 52 : ℕ) : ℤ) - 1075 = e by omega]

end Rexx.Number
