import Rexx.Proofs.Number.Spelling

/-!
# `Number.Layout` — how a rounded number is laid out

A number is written from its significant digits and the place of the first of them.
-/

namespace Rexx.Number

open List Option Text

variable {ds : Text} {e : ℤ}

/-! ## Significant digits -/

structure Significant (ds : Text) : Prop where
  digit : ∀ c ∈ ds, c.isDigit = true
  head : ds.head? ≠ some '0'
  last : ds.getLast? ≠ some '0'
  ne_nil : ds ≠ []

theorem rowValue_cons (c : Char) (ds : Text) : rowValue (c :: ds) = 10 ^ ds.length * (c.toNat - '0'.toNat) + rowValue ds := by
  have h := rowValue_append [c] ds
  rwa [show rowValue [c] = c.toNat - '0'.toNat by simp [rowValue, Nat.ofDigitChars_cons]] at h

theorem digit_value {c : Char} (hc : c.isDigit = true) : c.toNat - '0'.toNat < 10 ∧ (c.toNat - '0'.toNat = 0 → c = '0') := by
  simp only [Char.isDigit, Bool.and_eq_true, decide_eq_true_eq] at hc
  have hlo : '0'.toNat ≤ c.toNat := hc.1
  have hhi : c.toNat ≤ '9'.toNat := hc.2
  refine ⟨by simp at *; omega, fun h => Char.ext (UInt32.toNat_inj.1 ?_)⟩
  show c.toNat = '0'.toNat
  omega

theorem rowValue_lt (h : ∀ c ∈ ds, c.isDigit = true) : rowValue ds < 10 ^ ds.length := by
  induction ds with
  | nil => exact Nat.one_pos
  | cons c ds ih =>
    obtain ⟨hc, -⟩ := digit_value (h c mem_cons_self)
    have hrest := ih fun d hd => h d (mem_cons_of_mem _ hd)
    rw [rowValue_cons, length_cons, Nat.pow_succ]
    nlinarith

theorem Significant.bounds (h : Significant ds) : 10 ^ (ds.length - 1) ≤ rowValue ds ∧ rowValue ds < 10 ^ ds.length := by
  refine ⟨?_, rowValue_lt h.digit⟩
  obtain ⟨c, r, rfl⟩ := exists_cons_of_ne_nil h.ne_nil
  have hc : c.toNat - '0'.toNat ≠ 0 := fun hz => h.head (congrArg some ((digit_value (h.digit c mem_cons_self)).2 hz))
  rw [rowValue_cons]
  exact le_add_right (Nat.le_mul_of_pos_right _ (Nat.pos_of_ne_zero hc))

theorem Significant.not_dvd (h : Significant ds) : ¬ 10 ∣ rowValue ds := by
  obtain ⟨r, c, rfl⟩ := (eq_nil_or_concat ds).resolve_left h.ne_nil
  obtain ⟨hlt, hzero⟩ := digit_value (h.digit c (by simp))
  have hc : rowValue [c] = c.toNat - '0'.toNat := by simp [rowValue, Nat.ofDigitChars_cons]
  intro hdvd
  rw [concat_eq_append, rowValue_append, length_singleton] at hdvd
  exact h.last (by simp [hzero (by omega)])

theorem stripRight_zeros (s : Text) : ∃ k, s = stripRight '0' s ++ replicate k '0' ∧
    (stripRight '0' s).getLast? ≠ some '0' := by
  have hzeros : (s.reverse.takeWhile (· == '0')).reverse = replicate (s.reverse.takeWhile (· == '0')).length '0' := by
    rw [eq_replicate_iff]
    exact ⟨by simp, fun c hc => by simpa using mem_takeWhile_imp (mem_reverse.1 hc)⟩
  refine ⟨(s.reverse.takeWhile (· == '0')).length, ?_, fun h => ?_⟩
  · rw [← hzeros, stripRight, ← reverse_append, takeWhile_append_dropWhile, reverse_reverse]
  · rw [stripRight, getLast?_reverse] at h
    simpa [h] using head?_dropWhile_not (· == '0') s.reverse

theorem ofNat_significant {n : ℕ} (hn : n ≠ 0) : (∀ c ∈ ofNat n, c.isDigit = true) ∧ (ofNat n).head? ≠ some '0' := by
  refine ⟨fun c hc => isDigit_ofNat hc, fun hzero => ?_⟩
  obtain ⟨r, hr⟩ : ∃ r, ofNat n = '0' :: r := ⟨_, (cons_head?_tail hzero).symm⟩
  have hlt : n < 10 ^ r.length := by
    rw [← rowValue_ofNat n, hr, rowValue_cons]
    simpa using rowValue_lt fun c hc => isDigit_ofNat (n := n) (by simp [hr, hc])
  cases r with
  | nil => exact hn (Nat.lt_one_iff.1 hlt)
  | cons c r =>
    have hlen := (Nat.length_toDigits_le_iff (by norm_num) (Nat.succ_pos r.length)).2 hlt
    rw [show Nat.toDigits 10 n = _ from hr] at hlen
    simp at hlen

theorem rowValue_zeros (a b : ℕ) (ds : Text) :
    rowValue (replicate a '0' ++ (ds ++ replicate b '0')) = 10 ^ b * rowValue ds := by
  have hzero : ∀ k, rowValue (replicate k '0') = 0 := fun k => by
    simp [rowValue]
  rw [rowValue_append, rowValue_append, hzero, hzero, mul_zero, zero_add, add_zero, length_replicate]

theorem significantDigits_significant {d : Decimal} {places : ℕ} (hlo : 10 ^ places ≤ d.digits)
    (hhi : d.digits < 10 ^ (places + 1)) : Significant (significantDigits d) ∧ (significantDigits d).length ≤ places + 1 ∧
      d.digits = 10 ^ (places + 1 - (significantDigits d).length) * rowValue (significantDigits d) := by
  have hpos : d.digits ≠ 0 := (lt_of_lt_of_le (by positivity) hlo).ne'
  obtain ⟨hdigit, hhead⟩ := ofNat_significant hpos
  have hlen : (ofNat d.digits).length = places + 1 := by
    refine le_antisymm ((Nat.length_toDigits_le_iff (by norm_num) (Nat.succ_pos _)).2 hhi) (Nat.succ_le_of_lt ?_)
    rcases Nat.eq_zero_or_pos places with rfl | hp
    · exact length_pos_of_ne_nil Nat.toDigits_ne_nil
    · exact not_le.1 fun h => not_lt.2 hlo ((Nat.length_toDigits_le_iff (by norm_num) hp).1 h)
  have hvalue := rowValue_ofNat d.digits
  unfold significantDigits
  generalize ofNat d.digits = s at hdigit hhead hlen hvalue
  cases s with
  | nil => cases hlen
  | cons c cs =>
    obtain ⟨k, hk, hlast⟩ := stripRight_zeros cs
    have hsplit : c :: cs = (c :: stripRight '0' cs) ++ replicate k '0' := congrArg (c :: ·) hk
    have hcount : (c :: stripRight '0' cs).length + k = places + 1 := by
      rw [← hlen, hsplit, length_append, length_replicate]
    dsimp only
    refine ⟨⟨fun x hx => hdigit x ?_, hhead, ?_, by simp⟩, by omega, ?_⟩
    · rw [hsplit]
      exact mem_append_left _ hx
    · rw [getLast?_cons]
      cases hl : (stripRight '0' cs).getLast? with
      | none => exact hhead
      | some x => exact hl ▸ hlast
    · rw [← hvalue, show places + 1 - (c :: stripRight '0' cs).length = k by omega, ← rowValue_zeros 0 k]
      exact congrArg rowValue hsplit

/-! ## Layouts -/

def laid (ds : Text) (e : ℤ) : Text × Option Text :=
  if 0 ≤ e then
    if ds.length ≤ e.toNat + 1 then (Text.fit (e.toNat + 1) '0' ds, none)
    else (ds.take (e.toNat + 1), some (ds.drop (e.toNat + 1)))
  else (['0'], some (List.replicate (-e - 1).toNat '0' ++ ds))

theorem laid_nonneg {k : ℕ} (he : 0 ≤ e) (hk : e.toNat + 1 = k) :
    laid ds e = if ds.length ≤ k then (fit k '0' ds, none) else (ds.take k, some (ds.drop k)) := by
  rw [laid, if_pos he, hk]

theorem plain_eq (ds : Text) (e : ℤ) : plain ds e = (laid ds e).1 ++ fractionText (laid ds e).2 := by
  unfold plain laid
  split
  · dsimp only
    split
    · exact (append_nil _).symm
    · rfl
  · rfl

def shift (form : Form) (e : ℤ) : ℕ := if form = .engineering then (e % 3).toNat else 0

theorem exponential_eq (form : Form) (ds : Text) (e : ℤ) : exponential form ds e = (laid ds (shift form e)).1 ++
    (fractionText (laid ds (shift form e)).2 ++
      'E' :: (if e - shift form e < 0 then '-' else '+') :: ofNat (e - shift form e).natAbs) := by
  have hlaid : ∀ k : ℕ, (laid ds k).1 = fit (k + 1) '0' (ds.take (k + 1)) ∧
      fractionText (laid ds k).2 = if (ds.drop (k + 1)).isEmpty then [] else '.' :: ds.drop (k + 1) := by
    intro k
    rw [laid_nonneg (k := k + 1) (Int.natCast_nonneg k) rfl]
    split
    · rename_i hlen
      rw [take_of_length_le hlen, drop_of_length_le hlen]
      exact ⟨rfl, rfl⟩
    · rename_i hlen
      rw [isEmpty_eq_false_iff.2 (by simpa using hlen)]
      refine ⟨?_, rfl⟩
      rw [fit, length_take, Nat.min_eq_left (by omega), Nat.sub_self, take_take, Nat.min_self]
      exact (append_nil _).symm
  obtain ⟨hintegral, hfraction⟩ := hlaid (shift form e)
  rw [hintegral, hfraction, ← append_assoc]
  cases form <;> rfl

theorem laid_row (ds : Text) (e : ℤ) : ∃ a b : ℕ,
    (laid ds e).1 ++ (laid ds e).2.getD [] = replicate a '0' ++ (ds ++ replicate b '0') ∧
      (b : ℤ) - ((laid ds e).2.getD []).length = e + 1 - ds.length := by
  unfold laid
  split
  · split
    · rename_i hlen
      refine ⟨0, e.toNat + 1 - ds.length, ?_, ?_⟩
      · simp [fit, take_of_length_le hlen]
      · simp only [getD_none, length_nil]
        omega
    · refine ⟨0, 0, by simp, ?_⟩
      simp only [getD_some, length_drop]
      omega
  · refine ⟨(-e - 1).toNat + 1, 0, ?_, ?_⟩
    · simp [replicate_succ]
    · simp only [getD_some, length_append, length_replicate]
      omega

theorem laid_fraction (h : Significant ds) {f : Text} (hf : f ∈ (laid ds e).2) : f ≠ [] ∧ f.getLast? ≠ some '0' := by
  unfold laid at hf
  split at hf
  · split at hf
    · cases hf
    · rename_i hlen
      cases hf
      refine ⟨by simpa using hlen, ?_⟩
      rw [getLast?_drop, if_neg hlen]
      exact h.last
  · cases hf
    refine ⟨by simp [h.ne_nil], ?_⟩
    rw [getLast?_append_of_ne_nil _ h.ne_nil]
    exact h.last

theorem laid_length (he : 0 ≤ e) : (laid ds e).1.length = e.toNat + 1 := by
  rw [laid_nonneg he rfl]
  split <;> simp [fit] <;> omega

theorem strip_row (h : Significant ds) (a b : ℕ) : strip '0' (replicate a '0' ++ (ds ++ replicate b '0')) = ds := by
  have hzeros : ∀ k, ∀ c ∈ replicate k '0', (c == '0') = true := fun k c hc => by simp [eq_of_mem_replicate hc]
  have hleft : stripLeft '0' (replicate a '0' ++ (ds ++ replicate b '0')) = ds ++ replicate b '0' := by
    refine (Numeral.span_row (hzeros a) fun c hc => ?_).2
    rw [head?_append_of_ne_nil _ h.ne_nil] at hc
    exact beq_false_of_ne fun he => h.head (he ▸ hc)
  rw [strip, hleft, stripRight, reverse_append, reverse_replicate,
    (Numeral.span_row (hzeros b) fun c hc => ?_).2, reverse_reverse]
  rw [head?_reverse] at hc
  exact beq_false_of_ne fun he => h.last (he ▸ hc)

/-! ## What is spelled -/

theorem Sign.abs_apply (g : Sign) (q : ℚ) : |g.apply q| = |q| := by
  cases g with
  | minus => exact abs_neg q
  | _ => rfl

theorem Significant.size (h : Significant ds) (e : ℤ) : (10 : ℚ) ^ e ≤ rowValue ds * 10 ^ (e + 1 - ds.length) ∧
    (rowValue ds : ℚ) * 10 ^ (e + 1 - ds.length) < 10 ^ (e + 1) := by
  obtain ⟨hlo, hhi⟩ := h.bounds
  have hlen := length_pos_of_ne_nil h.ne_nil
  have hscale : ∀ k : ℕ, (10 : ℚ) ^ (k + (e + 1 - ds.length) : ℤ) = (10 ^ k : ℕ) * 10 ^ (e + 1 - ds.length) := fun k => by
    rw [zpow_add₀ (by norm_num), zpow_natCast, Nat.cast_pow, Nat.cast_ofNat]
  constructor
  · calc (10 : ℚ) ^ e = 10 ^ ((ds.length - 1 : ℕ) + (e + 1 - ds.length) : ℤ) := by congr 1; omega
      _ = (10 ^ (ds.length - 1) : ℕ) * 10 ^ (e + 1 - ds.length) := hscale _
      _ ≤ rowValue ds * 10 ^ (e + 1 - ds.length) := mul_le_mul_of_nonneg_right (Nat.cast_le.2 hlo) (by positivity)
  · calc (rowValue ds : ℚ) * 10 ^ (e + 1 - ds.length) < (10 ^ ds.length : ℕ) * 10 ^ (e + 1 - ds.length) :=
          mul_lt_mul_of_pos_right (Nat.cast_lt.2 hhi) (by positivity)
      _ = 10 ^ (ds.length + (e + 1 - ds.length) : ℤ) := (hscale _).symm
      _ = 10 ^ (e + 1) := by congr 1; omega

theorem Significant.integer (h : Significant ds) {n : ℤ} (hn : (rowValue ds : ℚ) * 10 ^ (e + 1 - ds.length) = n) :
    0 ≤ e ∧ ds.length ≤ e.toNat + 1 := by
  obtain ⟨hlo, hhi⟩ := h.size e
  rw [hn] at hlo hhi
  have hone : (1 : ℚ) ≤ n := by exact_mod_cast Int.cast_pos.1 (lt_of_lt_of_le (by positivity) hlo)
  have he : 0 ≤ e := by
    by_contra hneg
    exact absurd (hone.trans_lt hhi) (not_lt.2 (zpow_le_one_of_nonpos₀ (by norm_num) (by omega)))
  refine ⟨he, not_lt.1 fun hlen => h.not_dvd ?_⟩
  -- a digit after the point would be a zero
  obtain ⟨j, hj⟩ := Nat.exists_eq_add_of_lt hlen
  rw [show e + 1 - ds.length = -((j + 1 : ℕ) : ℤ) by omega, zpow_neg, mul_inv_eq_iff_eq_mul₀ (by positivity)] at hn
  have hrow : (rowValue ds : ℤ) = n * 10 ^ (j + 1) := by exact_mod_cast hn
  exact Int.natCast_dvd_natCast.1 (hrow ▸ (dvd_pow_self 10 (Nat.succ_ne_zero j)).mul_left n)

theorem laid_digit (h : Significant ds) (e : ℤ) {c : Char} (hc : c ∈ (laid ds e).1 ++ (laid ds e).2.getD []) : c.isDigit = true := by
  obtain ⟨a, b, hrow, -⟩ := laid_row ds e
  rw [hrow, mem_append, mem_append] at hc
  obtain hc | hc | hc := hc
  · rw [eq_of_mem_replicate hc]
    rfl
  · exact h.digit c hc
  · rw [eq_of_mem_replicate hc]
    rfl

theorem laid_ne_nil (h : Significant ds) (e : ℤ) : (laid ds e).1 ++ (laid ds e).2.getD [] ≠ [] := by
  obtain ⟨a, b, hrow, -⟩ := laid_row ds e
  rw [hrow]
  simp [h.ne_nil]

def spelled (g : Sign) (h : Significant ds) (e : ℤ) (x : Option Power) : Spelling :=
  .tight g (laid ds e).1 (laid ds e).2 x (fun _ hc => laid_digit h e hc) (laid_ne_nil h e)

section

variable (g : Sign) (h : Significant ds) (e : ℤ) (x : Option Power)

theorem spelled_text : (spelled g h e x).text = g.text ++ ((laid ds e).1 ++ (fractionText (laid ds e).2 ++ powerText x)) :=
  Spelling.tight_text ..

theorem spelled_value : (spelled g h e x).value = g.apply (rowValue ds * 10 ^ (e + 1 - ds.length + powerValue x) : ℚ) := by
  obtain ⟨a, b, hrow, hpoint⟩ := laid_row ds e
  rw [Spelling.value_row]
  show g.apply (rowValue ((laid ds e).1 ++ (laid ds e).2.getD []) * 10 ^ (powerValue x - ((laid ds e).2.getD []).length) : ℚ) = _
  rw [hrow, rowValue_zeros, Nat.cast_mul, Nat.cast_pow, ← zpow_natCast, mul_comm (_ ^ _ : ℚ), mul_assoc, Nat.cast_ofNat, ← zpow_add₀ (by norm_num)]
  congr 3
  omega

end

def powerOf (e : ℤ) : Power where
  letter := 'E'
  sign := if e < 0 then .minus else .plus
  digits := Text.ofNat e.natAbs
  letter_eq := .inr rfl
  digit _ hc := isDigit_ofNat hc
  ne_nil := Nat.toDigits_ne_nil

theorem powerText_powerOf (e : ℤ) : powerText (some (powerOf e)) = 'E' :: (if e < 0 then '-' else '+') :: ofNat e.natAbs := by
  unfold powerText powerOf
  split <;> rfl

theorem powerValue_powerOf (e : ℤ) : powerValue (some (powerOf e)) = e := by
  have hvalue := rowValue_ofNat e.natAbs
  unfold powerValue powerOf
  simp only [elim_some]
  split <;> simp only [Sign.apply] <;> omega

/-- A spelling without needless digits, points and signs, for a setting of digits and a form of exponents. -/
structure Tidy (digits : ℤ) (form : Form) (w : Spelling) : Prop where
  digits_le : (Text.strip '0' (w.integral ++ w.fraction.getD [])).length ≤ digits
  fraction : ∀ f ∈ w.fraction, f ≠ [] ∧ f.getLast? ≠ some '0'
  integer : (∃ n : ℤ, w.value = n) → |w.value| < 10 ^ digits → w.fraction = none
  zero : w.value = 0 → w.sign = .none
  scientific : form = .scientific → w.power ≠ none → w.integral.length = 1
  engineering : form = .engineering → w.power ≠ none →
    3 ∣ powerValue w.power ∧ 1 ≤ w.integral.length ∧ w.integral.length ≤ 3

theorem spelled_tidy {g : Sign} (h : Significant ds) {x : Option Power} {digits : ℤ} {form : Form} (hlen : ds.length ≤ digits)
    (hx : x ≠ none → e = shift form (e + powerValue x) ∧ ¬ (0 ≤ e + powerValue x ∧ e + powerValue x < digits)) :
    Tidy digits form (spelled g h e x) := by
  have hplace : e + 1 - ds.length + powerValue x = e + powerValue x + 1 - ds.length := by ring
  have hvalue := spelled_value g h e x
  obtain ⟨hlo, -⟩ := h.size (e + powerValue x)
  rw [hplace] at hvalue
  set q : ℚ := rowValue ds * 10 ^ (e + powerValue x + 1 - ds.length) with hq
  have hpos : 0 < q := lt_of_lt_of_le (by positivity) hlo
  have habs : |(spelled g h e x).value| = q := by rw [hvalue, g.abs_apply, abs_of_pos hpos]
  refine ⟨?_, fun f hf => laid_fraction h hf, fun hn hlt => ?_, fun hzero => ?_, fun hform hsome => ?_, fun hform hsome => ?_⟩
  · obtain ⟨a, b, hrow, -⟩ := laid_row ds e
    show ((strip '0' ((laid ds e).1 ++ (laid ds e).2.getD [])).length : ℤ) ≤ digits
    rwa [hrow, strip_row h]
  · obtain ⟨n, hn⟩ := hn
    obtain ⟨he, hle⟩ := h.integer (by rw [← hq, ← habs, hn, Int.cast_abs])
    have hdigits : e + powerValue x < digits :=
      (zpow_lt_zpow_iff_right₀ (by norm_num)).1 (hlo.trans_lt (habs ▸ hlt))
    cases x with
    | some x => exact absurd ⟨he, hdigits⟩ (hx (by simp)).2
    | none =>
      have hplain : e + powerValue none = e := add_zero e
      rw [hplain] at he hle
      show (laid ds e).2 = none
      rw [laid, if_pos he, if_pos hle]
  · rw [hzero] at habs
    exact absurd habs hpos.ne
  · show (laid ds e).1.length = 1
    rw [(hx hsome).1, laid_length (Int.natCast_nonneg _), shift, if_neg (by simp [hform])]
    rfl
  · have hshift := (hx hsome).1
    have hlength : (laid ds e).1.length = e.toNat + 1 := laid_length (by omega)
    show 3 ∣ powerValue x ∧ 1 ≤ (laid ds e).1.length ∧ (laid ds e).1.length ≤ 3
    rw [shift, if_pos hform] at hshift
    omega

theorem format_eq {x : Float} {v : Exact} (hx : Exact.ofFloat? x = some v) (hv : v.mantissa ≠ 0) (digits : ℤ) (form : Form) :
    let d := v.magnitude.toDecimal (placesFor digits)
    let ds := significantDigits d
    format digits form x = v.sign.text ++
      if isPlain digits ds d.exponent then plain ds d.exponent else exponential form ds d.exponent := by
  unfold format
  rw [hx]
  simp only [if_neg hv, Exact.sign]
  cases v.negative <;> rfl

def naught : Spelling := .tight .none ['0'] none none (List.forall_mem_singleton.2 rfl) (by decide)

theorem naught_value : naught.value = 0 := by
  show ((rowValue ['0'] : ℚ) + rowValue [] / 10 ^ 0) * 10 ^ (0 : ℤ) = 0
  norm_num [rowValue, Nat.ofDigitChars_cons]

theorem naught_tidy {digits : ℤ} (hd : 1 ≤ digits) (form : Form) : Tidy digits form naught :=
  ⟨(by decide : ((strip '0' ['0'] : Text).length : ℤ) ≤ 1).trans hd, fun _ hf => absurd hf (not_mem_none _),
    fun _ _ => rfl, fun _ => rfl, fun _ h => absurd rfl h, fun _ h => absurd rfl h⟩

/-- **A number is written as it is rounded.** Under every setting of digits and in both forms, the text of a finite number spells
the number rounded to that many significant digits, and it spells it tidily. -/
theorem format_spells_rounded {x : Float} {v : Exact} (hx : Exact.ofFloat? x = some v) {digits : ℤ} (hd : 1 ≤ digits) (form : Form) :
    ∃ w : Spelling, w.text = format digits form x ∧ Numeral.read? (format digits form x) = some w.numeral ∧
      RoundsTo 10 (Int.log 10 |v.value| - (digits - 1)) v.value w.value ∧ Tidy digits form w := by
  have hden : v.magnitude.den ≠ 0 := Quotient.scale_den (by norm_num) one_ne_zero _
  suffices h : ∃ w : Spelling, w.text = format digits form x ∧
      RoundsTo 10 (Int.log 10 |v.value| - (digits - 1)) v.value w.value ∧ Tidy digits form w by
    obtain ⟨w, htext, h⟩ := h
    exact ⟨w, htext, htext ▸ w.read?_text, h⟩
  by_cases hzero : v.mantissa = 0
  · refine ⟨naught, ?_, ?_, naught_tidy hd form⟩
    · rw [format, hx]
      simp only [if_pos hzero]
      rfl
    · have hvalue : v.value = 0 := by
        rw [← abs_eq_zero, v.abs_value, Exact.magnitude_value, hzero, Nat.cast_zero, zero_mul]
      rw [hvalue, naught_value]
      exact RoundsTo.zero 10 _
  · have hnum : v.magnitude.num ≠ 0 := mt (Quotient.scale_num (by norm_num) _).1 hzero
    obtain ⟨hlo, hhi, hround⟩ := Quotient.toDecimal_rounds hnum hden (placesFor digits)
    obtain ⟨hs, hlen, hdigits⟩ := significantDigits_significant hlo hhi
    have hformat := format_eq hx hzero digits form
    set d := v.magnitude.toDecimal (placesFor digits)
    set ds := significantDigits d
    have hplaces : (placesFor digits : ℤ) = digits - 1 := by
      rw [placesFor, if_neg (by omega)]
      omega
    have hvalue : (d.digits : ℚ) * 10 ^ (d.exponent - placesFor digits) = rowValue ds * 10 ^ (d.exponent + 1 - ds.length) := by
      rw [hdigits, Nat.cast_mul, Nat.cast_pow, ← zpow_natCast, mul_comm (_ ^ _ : ℚ), mul_assoc, Nat.cast_ofNat,
        ← zpow_add₀ (by norm_num)]
      congr 2
      omega
    have hrounds : RoundsTo 10 (Int.log 10 |v.value| - (digits - 1)) v.value
        (v.sign.apply (rowValue ds * 10 ^ (d.exponent + 1 - ds.length) : ℚ)) := by
      rw [v.abs_value, v.value_eq, ← hplaces, ← hvalue]
      exact hround.apply _
    by_cases hplain : isPlain digits ds d.exponent = true
    · refine ⟨spelled v.sign hs d.exponent none, ?_, ?_, spelled_tidy hs (by omega) fun h => absurd rfl h⟩
      · rw [hformat, if_pos hplain, plain_eq]
        exact congrArg _ (congrArg _ (List.append_nil _))
      · rw [spelled_value]
        exact (add_zero (d.exponent + 1 - (ds.length : ℤ))).symm ▸ hrounds
    · have hpower := powerValue_powerOf (d.exponent - shift form d.exponent)
      refine ⟨spelled v.sign hs (shift form d.exponent) (some (powerOf (d.exponent - shift form d.exponent))), ?_, ?_,
        spelled_tidy hs (by omega) fun _ => ?_⟩
      · rw [hformat, if_neg hplain, exponential_eq, spelled_text, powerText_powerOf]
      · rw [spelled_value, hpower]
        rwa [show (shift form d.exponent : ℤ) + 1 - ds.length + (d.exponent - shift form d.exponent) =
          d.exponent + 1 - ds.length by ring]
      · rw [hpower, add_sub_cancel]
        refine ⟨rfl, fun h => hplain ?_⟩
        simp [isPlain, h]

theorem format_spells_rounded_tiny :
    let v : Exact := ⟨false, 5281877500950956, -96⟩
    Exact.ofFloat? (Float.ofBits 4409802313069296044) = some v ∧
      format 5 .engineering (Float.ofBits 4409802313069296044) = "66.667E-15".toList ∧
      ∃ w : Spelling, w.text = "66.667E-15".toList ∧ Numeral.read? "66.667E-15".toList = some w.numeral ∧
        RoundsTo 10 (Int.log 10 |v.value| - 4) v.value w.value ∧ Tidy 5 .engineering w := by
  have hx : Exact.ofFloat? (Float.ofBits 4409802313069296044) = some ⟨false, 5281877500950956, -96⟩ := by decide +kernel
  have htext : format 5 .engineering (Float.ofBits 4409802313069296044) = "66.667E-15".toList := by decide +kernel
  exact ⟨hx, htext, htext ▸ format_spells_rounded hx (by decide) .engineering⟩

end Rexx.Number
