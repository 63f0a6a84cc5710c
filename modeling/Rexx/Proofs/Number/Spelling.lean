import Rexx.Proofs.Number.Rounding
import Rexx.Number.Numeral

/-!
# `Number.Spelling` — the texts that denote numbers

A `Spelling` is a text that denotes a number, taken apart: blanks, a sign, digits, a point, an exponent.
-/

namespace Rexx.Number

open List Numeral Option

/-! ## Parts of a text -/

/-- A sign, which may be left out. -/
inductive Sign where
  | none
  | plus
  | minus
deriving DecidableEq

namespace Sign

def text : Sign → Text
  | .none => []
  | .plus => ['+']
  | .minus => ['-']

def apply {α : Type} [Neg α] : Sign → α → α
  | .minus, x => -x
  | _, x => x

end Sign

theorem RoundsTo.apply {b : ℕ} {e : ℤ} {q r : ℚ} (h : RoundsTo b e q r) (g : Sign) : RoundsTo b e (g.apply q) (g.apply r) := by
  cases g with
  | minus => exact h.neg
  | _ => exact h

namespace Exact

variable (v : Exact)

def sign : Sign := if v.negative then .minus else .none

theorem value_eq : v.value = v.sign.apply v.magnitude.value := by
  unfold value sign
  split <;> rfl

theorem abs_value : |v.value| = v.magnitude.value := by
  have hpos : 0 ≤ v.magnitude.value := div_nonneg (Nat.cast_nonneg _) (Nat.cast_nonneg _)
  unfold value
  split
  · rw [abs_neg, abs_of_nonneg hpos]
  · exact abs_of_nonneg hpos

end Exact

/-- The number that a row of digits stands for. -/
def rowValue (ds : Text) : ℕ := Nat.ofDigitChars 10 ds 0

theorem rowValue_ofNat (n : ℕ) : rowValue (Text.ofNat n) = n := Nat.ofDigitChars_ten_toDigits

theorem isDigit_ofNat {n : ℕ} {c : Char} (hc : c ∈ Text.ofNat n) : c.isDigit = true :=
  Nat.isDigit_of_mem_toDigits (by norm_num) (by norm_num) hc

structure Power where
  letter : Char
  sign : Sign
  digits : Text
  letter_eq : letter = 'e' ∨ letter = 'E'
  digit : ∀ c ∈ digits, c.isDigit = true
  ne_nil : digits ≠ []

/-- A text that denotes a number, taken apart. -/
structure Spelling where
  leading : ℕ
  sign : Sign
  gap : ℕ
  integral : Text
  fraction : Option Text
  power : Option Power
  trailing : ℕ
  gap_eq : sign = .none → gap = 0
  digit : ∀ c ∈ integral ++ fraction.getD [], c.isDigit = true
  ne_nil : integral ++ fraction.getD [] ≠ []

def blanks (n : ℕ) : Text := List.replicate n ' '

def fractionText (f : Option Text) : Text := f.elim [] ('.' :: ·)

def powerText (p : Option Power) : Text := p.elim [] fun p => p.letter :: (p.sign.text ++ p.digits)

def powerValue (p : Option Power) : ℤ := p.elim 0 fun p => p.sign.apply (rowValue p.digits : ℤ)

namespace Spelling

variable (w : Spelling)

/-- The part from the first digit or the point on. -/
def body : Text := w.integral ++ (fractionText w.fraction ++ (powerText w.power ++ blanks w.trailing))

def text : Text := blanks w.leading ++ (w.sign.text ++ (blanks w.gap ++ w.body))

/-- **The number that a spelling denotes.** -/
def value : ℚ :=
  w.sign.apply ((rowValue w.integral + rowValue (w.fraction.getD []) / 10 ^ (w.fraction.getD []).length) *
    10 ^ powerValue w.power)

def tight (g : Sign) (i : Text) (f : Option Text) (x : Option Power) (hdigit : ∀ c ∈ i ++ f.getD [], c.isDigit = true)
    (hne : i ++ f.getD [] ≠ []) : Spelling := ⟨0, g, 0, i, f, x, 0, fun _ => rfl, hdigit, hne⟩

theorem tight_text (g : Sign) (i : Text) (f : Option Text) (x : Option Power) (hdigit hne) :
    (tight g i f x hdigit hne).text = g.text ++ (i ++ (fractionText f ++ powerText x)) := by
  simp [text, body, tight, blanks]

def numeral : Numeral := ⟨decide (w.sign = .minus), w.integral, w.fraction.getD [], powerValue w.power⟩

end Spelling

/-! ## Reading the parts -/

namespace Numeral

variable {s r a : Text} {p : Char → Bool} {c d : Char}

theorem ne_of_isDigit (hc : c.isDigit = true) (hd : d.isDigit = false) : c ≠ d := by
  rintro rfl
  cases hc.symm.trans hd

theorem span_row (ha : ∀ c ∈ a, p c = true) (hr : ∀ c ∈ r.head?, p c = false) :
    (a ++ r).takeWhile p = a ∧ (a ++ r).dropWhile p = r := by
  rw [takeWhile_append_of_pos ha, dropWhile_append_of_pos ha]
  cases r with
  | nil => simp
  | cons c r =>
    have hc : ¬ p c = true := by simp [hr c rfl]
    rw [takeWhile_cons_of_neg hc, dropWhile_cons_of_neg hc, append_nil]
    exact ⟨rfl, rfl⟩

theorem skipBlanks_blanks (n : ℕ) (hr : ∀ c ∈ r.head?, c ≠ ' ') : skipBlanks (blanks n ++ r) = r :=
  (span_row (fun c hc => by simp [eq_of_mem_replicate hc]) fun c hc => by simpa using hr c hc).2

theorem eq_blanks (s : Text) : ∃ n, s = blanks n ++ skipBlanks s := by
  refine ⟨(s.takeWhile (· == ' ')).length, ?_⟩
  have hblank : s.takeWhile (· == ' ') = blanks (s.takeWhile (· == ' ')).length :=
    eq_replicate_of_mem fun c hc => by simpa using mem_takeWhile_imp hc
  rw [← hblank]
  exact takeWhile_append_dropWhile.symm

theorem digits_row (ha : ∀ c ∈ a, c.isDigit = true) (hr : ∀ c ∈ r.head?, c.isDigit = false) : digits (a ++ r) = (a, r) :=
  Prod.ext (span_row ha hr).1 (span_row ha hr).2

theorem eq_digits (s : Text) : s = (digits s).1 ++ (digits s).2 ∧ ∀ c ∈ (digits s).1, c.isDigit = true :=
  ⟨takeWhile_append_dropWhile.symm, fun _ hc => mem_takeWhile_imp hc⟩

theorem sign_text (g : Sign) (hr : g = .none → ∀ c ∈ r.head?, c ≠ '+' ∧ c ≠ '-') :
    sign (g.text ++ r) = (decide (g = .minus), decide (g ≠ .none), r) := by
  cases g with
  | plus => rfl
  | minus => rfl
  | none =>
    cases r with
    | nil => rfl
    | cons c r =>
      obtain ⟨hplus, hminus⟩ := hr rfl c rfl
      simp [Sign.text, sign, hplus, hminus]

theorem eq_sign (s : Text) : ∃ g : Sign, s = g.text ++ (sign s).2.2 ∧ (sign s).1 = decide (g = .minus) ∧
    (sign s).2.1 = decide (g ≠ .none) := by
  unfold sign
  split
  · exact ⟨.plus, rfl, rfl, rfl⟩
  · exact ⟨.minus, rfl, rfl, rfl⟩
  · exact ⟨.none, rfl, rfl, rfl⟩

theorem head_power {x : Option Power} {n : ℕ} (hc : c ∈ (powerText x ++ blanks n).head?) : c.isDigit = false ∧ c ≠ '.' := by
  cases x with
  | some x =>
    obtain rfl : x.letter = c := some.inj hc
    obtain h | h := x.letter_eq <;> rw [h] <;> decide
  | none =>
    rw [eq_of_mem_replicate (mem_of_mem_head? hc)]
    decide

theorem exponentPart_text (x : Option Power) (n : ℕ) : exponentPart (powerText x ++ blanks n) = some (powerValue x, blanks n) := by
  cases x with
  | none => cases n <;> rfl
  | some x =>
    have hdigits : digits (x.digits ++ blanks n) = (x.digits, blanks n) :=
      digits_row x.digit fun c hc => (head_power (x := none) hc).1
    have hsign : sign (x.sign.text ++ (x.digits ++ blanks n)) =
        (decide (x.sign = .minus), decide (x.sign ≠ .none), x.digits ++ blanks n) := by
      refine sign_text _ fun _ c hc => ?_
      have hdigit : c.isDigit = true := x.digit c (mem_of_mem_head? (by simpa [x.ne_nil] using hc))
      exact ⟨ne_of_isDigit hdigit rfl, ne_of_isDigit hdigit rfl⟩
    simp only [powerText, exponentPart, elim_some, cons_append, append_assoc, x.letter_eq, if_true, hsign,
      hdigits, List.isEmpty_iff, x.ne_nil, if_false, powerValue]
    cases x.sign <;> rfl

theorem eq_exponentPart {e : ℤ} (h : exponentPart s = some (e, r)) : ∃ x, s = powerText x ++ r ∧ powerValue x = e := by
  unfold exponentPart at h
  split at h
  · rename_i c r'
    split at h
    · rename_i hc
      obtain ⟨g, hg, hminus, -⟩ := eq_sign r'
      generalize sign r' = parts at h hg hminus
      obtain ⟨negative, signed, r''⟩ := parts
      obtain ⟨hrow, hdigit⟩ := eq_digits r''
      dsimp only at h hg hminus
      by_cases hne : (digits r'').1 = []
      · simp [hne] at h
      · simp only [List.isEmpty_iff, hne, if_false, some.injEq, Prod.mk.injEq] at h
        refine ⟨some ⟨c, g, (digits r'').1, hc, hdigit, hne⟩, ?_, ?_⟩
        · simp only [powerText, elim_some, cons_append, append_assoc, ← h.2, ← hrow, ← hg]
        · rw [← h.1, hminus]
          cases g <;> rfl
    · cases h
      exact ⟨none, rfl, rfl⟩
  · cases h
    exact ⟨none, rfl, rfl⟩

def fractionPart (s : Text) : Option Text × Text :=
  if s.head? = some '.' then (some (digits s.tail).1, (digits s.tail).2) else (none, s)

theorem fractionPart_text {f : Option Text} (hf : ∀ c ∈ f.getD [], c.isDigit = true) (x : Option Power) (n : ℕ) :
    fractionPart (fractionText f ++ (powerText x ++ blanks n)) = (f, powerText x ++ blanks n) := by
  cases f with
  | some f =>
    have hrow : digits (f ++ (powerText x ++ blanks n)) = _ := digits_row hf fun c hc => (head_power hc).1
    simp [fractionPart, fractionText, hrow]
  | none => exact if_neg fun hc => (head_power hc).2 rfl

theorem eq_fractionPart (s : Text) : s = fractionText (fractionPart s).1 ++ (fractionPart s).2 ∧
    ∀ c ∈ (fractionPart s).1.getD [], c.isDigit = true := by
  unfold fractionPart
  split
  · rename_i hs
    obtain ⟨hrow, hdigit⟩ := eq_digits s.tail
    refine ⟨?_, hdigit⟩
    rw [← cons_head?_tail hs]
    exact congrArg ('.' :: ·) hrow
  · exact ⟨rfl, by simp⟩

theorem read?_eq (s : Text) : read? s =
    let r := if (sign (skipBlanks s)).2.1 then skipBlanks (sign (skipBlanks s)).2.2 else (sign (skipBlanks s)).2.2
    let f := fractionPart (digits r).2
    if (digits r).1 ++ f.1.getD [] = [] then none
    else (exponentPart f.2).bind fun x => if skipBlanks x.2 = [] then
      some ⟨(sign (skipBlanks s)).1, (digits r).1, f.1.getD [], x.1⟩ else none := by
  unfold read?
  simp only [List.isEmpty_iff, append_eq_nil_iff]
  generalize (if (sign (skipBlanks s)).2.1 = true then _ else _) = r
  cases hr : (digits r).2 with
  | nil => rfl
  | cons c r' =>
    by_cases hc : c = '.'
    · subst hc
      rfl
    · simp [fractionPart, hc]

end Numeral

namespace Spelling

variable (w : Spelling)

theorem head_body {c : Char} (hc : c ∈ w.body.head?) : c.isDigit = true ∨ c = '.' := by
  unfold body at hc
  cases hi : w.integral with
  | cons d ds =>
    rw [hi] at hc
    cases hc
    exact .inl (w.digit _ (by simp [hi]))
  | nil =>
    cases hf : w.fraction with
    | none => exact absurd (by simp [hi, hf]) w.ne_nil
    | some f =>
      rw [hi, hf] at hc
      cases hc
      exact .inr rfl

theorem read?_text : read? w.text = some w.numeral := by
  have hbody : ∀ c ∈ w.body.head?, c ≠ ' ' ∧ c ≠ '+' ∧ c ≠ '-' := by
    intro c hc
    obtain h | rfl := w.head_body hc
    · exact ⟨ne_of_isDigit h rfl, ne_of_isDigit h rfl, ne_of_isDigit h rfl⟩
    · decide
  have hskip : skipBlanks w.text = w.sign.text ++ (blanks w.gap ++ w.body) := by
    refine skipBlanks_blanks _ fun c hc => ?_
    cases hs : w.sign with
    | none =>
      rw [hs, w.gap_eq hs] at hc
      exact (hbody c hc).1
    | _ =>
      rw [hs] at hc
      cases hc
      decide
  have hsign := sign_text (r := blanks w.gap ++ w.body) w.sign fun hs c hc => by
    rw [w.gap_eq hs] at hc
    exact (hbody c hc).2
  have hgap : (if decide (w.sign ≠ .none) = true then skipBlanks (blanks w.gap ++ w.body) else blanks w.gap ++ w.body) =
      w.body := by
    split
    · exact skipBlanks_blanks _ fun c hc => (hbody c hc).1
    · rename_i hs
      rw [w.gap_eq (by simpa using hs)]
      rfl
  have hintegral : digits w.body = (w.integral, fractionText w.fraction ++ (powerText w.power ++ blanks w.trailing)) := by
    refine digits_row (fun c hc => w.digit c (by simp [hc])) fun c hc => ?_
    cases hf : w.fraction with
    | none =>
      rw [hf] at hc
      exact (head_power hc).1
    | some f =>
      rw [hf] at hc
      cases hc
      rfl
  have htrailing : skipBlanks (blanks w.trailing) = [] := by
    have h := skipBlanks_blanks (r := []) w.trailing (by simp)
    rwa [append_nil] at h
  have hfraction := fractionPart_text (f := w.fraction) (fun c hc => w.digit c (by simp [hc])) w.power w.trailing
  rw [read?_eq]
  simp only [hskip, hsign, hgap, hintegral, hfraction, w.ne_nil, if_false, exponentPart_text, bind_some,
    htrailing, if_true]
  rfl

end Spelling

theorem Numeral.eq_text_of_read? {s : Text} {n : Numeral} (h : read? s = some n) : ∃ w : Spelling, w.text = s ∧ w.numeral = n := by
  rw [read?_eq] at h
  obtain ⟨leading, hleading⟩ := eq_blanks s
  obtain ⟨g, hg, hminus, hsigned⟩ := eq_sign (skipBlanks s)
  have hafter : ∃ gap, (g = .none → gap = 0) ∧ (sign (skipBlanks s)).2.2 = blanks gap ++
      if (sign (skipBlanks s)).2.1 then skipBlanks (sign (skipBlanks s)).2.2 else (sign (skipBlanks s)).2.2 := by
    rw [hsigned]
    split
    · rename_i hs
      obtain ⟨gap, hgap⟩ := eq_blanks (sign (skipBlanks s)).2.2
      exact ⟨gap, fun hnone => absurd hnone (of_decide_eq_true hs), hgap⟩
    · exact ⟨0, fun _ => rfl, rfl⟩
  obtain ⟨gap, hgap, hrest⟩ := hafter
  dsimp only at h
  generalize (if (sign (skipBlanks s)).2.1 = true then _ else _) = r at h hrest
  obtain ⟨hrow, hdigit⟩ := eq_digits r
  obtain ⟨hfraction, hdigit'⟩ := eq_fractionPart (digits r).2
  split at h
  · cases h
  · rename_i hne
    obtain ⟨⟨e, t⟩, hexponent, h⟩ := bind_eq_some_iff.1 h
    obtain ⟨x, hx, hvalue⟩ := eq_exponentPart hexponent
    split at h
    · rename_i hend
      obtain ⟨trailing, htrailing⟩ := eq_blanks t
      rw [hend, append_nil] at htrailing
      cases h
      refine ⟨⟨leading, g, gap, (digits r).1, (fractionPart (digits r).2).1, x, trailing, hgap, ?_, hne⟩, ?_, ?_⟩
      · exact fun c hc => (mem_append.1 hc).elim (hdigit c) (hdigit' c)
      · unfold Spelling.text Spelling.body
        rw [← htrailing, ← hx, ← hfraction, ← hrow, ← hrest, ← hg, ← hleading]
      · simp only [Spelling.numeral, hvalue, hminus]
    · cases h

/-! ## The value -/

namespace Numeral

def value (n : Numeral) : ℚ := if n.negative then -n.magnitude.value else n.magnitude.value

theorem magnitude_den (n : Numeral) : n.magnitude.den ≠ 0 := Quotient.scale_den (by norm_num) one_ne_zero _

theorem magnitude_num (n : Numeral) : n.magnitude.num = 0 ↔ n.significand = 0 := Quotient.scale_num (by norm_num) _

theorem magnitude_value (n : Numeral) : n.magnitude.value = n.significand * 10 ^ n.scale := by
  rw [magnitude, Quotient.value_scale (by norm_num), Quotient.value]
  simp

end Numeral

theorem rowValue_append (a b : Text) : rowValue (a ++ b) = 10 ^ b.length * rowValue a + rowValue b := by
  unfold rowValue
  rw [Nat.ofDigitChars_append, Nat.ofDigitChars_eq_ofDigitChars_zero]

theorem Spelling.numeral_value (w : Spelling) : w.numeral.value = w.value := by
  have hmagnitude : w.numeral.magnitude.value =
      (rowValue w.integral + rowValue (w.fraction.getD []) / 10 ^ (w.fraction.getD []).length) * 10 ^ powerValue w.power := by
    have hrow : w.numeral.significand = rowValue (w.integral ++ w.fraction.getD []) := rfl
    rw [magnitude_value, hrow, rowValue_append, scale, zpow_sub₀ (by norm_num)]
    show _ * ((10 : ℚ) ^ powerValue w.power / 10 ^ (w.fraction.getD []).length) = _
    push_cast
    field_simp
  unfold Numeral.value value
  rw [hmagnitude]
  unfold numeral
  cases w.sign <;> rfl

theorem Spelling.value_eq_of_text {w w' : Spelling} (h : w.text = w'.text) : w.value = w'.value := by
  have hnumeral := w.read?_text.symm.trans (h ▸ w'.read?_text)
  rw [← w.numeral_value, ← w'.numeral_value, some.inj hnumeral]

theorem Spelling.value_row (w : Spelling) : w.value = w.sign.apply
    (rowValue (w.integral ++ w.fraction.getD []) * 10 ^ (powerValue w.power - (w.fraction.getD []).length) : ℚ) := by
  rw [← w.numeral_value, Numeral.value, Numeral.magnitude_value]
  unfold numeral
  cases w.sign <;> rfl

/-! ## Rounding -/

theorem Numeral.toExact?_eq (n : Numeral) : n.toExact? = nearest? n.negative n.magnitude := by
  obtain ⟨hfinite, hrounds⟩ := nearest?_rounds n.magnitude_den n.negative
  have hvalue := n.magnitude_value
  unfold toExact?
  dsimp only
  split
  · rename_i hzero
    rw [nearest?, if_pos (n.magnitude_num.2 hzero)]
  · rename_i hzero
    obtain ⟨j, hj, hlo, hhi⟩ := decimalLength_bounds hzero
    have hlo' : (10 : ℚ) ^ ((j : ℤ) + n.scale) ≤ n.magnitude.value := by
      rw [hvalue, zpow_add₀ (by norm_num), zpow_natCast]
      exact mul_le_mul_of_nonneg_right (by exact_mod_cast hlo) (by positivity)
    have hhi' : n.magnitude.value < (10 : ℚ) ^ (((j + 1 : ℕ) : ℤ) + n.scale) := by
      rw [hvalue, zpow_add₀ (by norm_num), zpow_natCast]
      exact mul_lt_mul_of_pos_right (by exact_mod_cast hhi) (by positivity)
    rw [hj]
    split
    · rename_i htop
      refine (not_isSome_iff_eq_none.1 fun hs => ?_).symm
      have hbig : (2 : ℚ) ^ 1024 ≤ 10 ^ (310 : ℕ) := by exact_mod_cast (by decide +kernel : 2 ^ 1024 ≤ 10 ^ 310)
      have hle : (10 : ℚ) ^ (310 : ℕ) ≤ n.magnitude.value := by
        rw [← zpow_natCast]
        exact (zpow_le_zpow_right₀ (by norm_num) (by push_cast at htop ⊢; omega)).trans hlo'
      exact absurd (hbig.trans (hle.trans (hfinite.1 hs).le)) (not_le.2 (sub_lt_self _ (by positivity)))
    · split
      · rename_i htop
        have htiny : n.magnitude.value < 2 ^ (-1075 : ℤ) := by
          refine hhi'.trans_le ((zpow_le_zpow_right₀ (by norm_num) (show _ ≤ (-(331 : ℕ) : ℤ) by omega)).trans ?_)
          rw [show (-1075 : ℤ) = -(1075 : ℕ) from rfl, zpow_neg, zpow_neg, zpow_natCast, zpow_natCast]
          refine inv_anti₀ (by positivity) ?_
          exact_mod_cast (by decide +kernel : 2 ^ 1075 ≤ 10 ^ 331)
        exact (nearest?_tiny (mt n.magnitude_num.1 hzero) n.magnitude_den n.negative htiny).symm
      · rfl

namespace Spelling

variable (w : Spelling)

theorem ofText?_text : ofText? w.text = w.numeral.toExact?.map Exact.toFloat := by
  rw [ofText?, w.read?_text]
  exact (Option.map_eq_bind).symm

theorem abs_value : |w.value| = w.numeral.magnitude.value := by
  have hpos : 0 ≤ w.numeral.magnitude.value := div_nonneg (Nat.cast_nonneg _) (Nat.cast_nonneg _)
  rw [← w.numeral_value, Numeral.value]
  split
  · rw [abs_neg, abs_of_nonneg hpos]
  · exact abs_of_nonneg hpos

theorem isSome_toExact? : w.numeral.toExact?.isSome ↔ |w.value| < overflow := by
  rw [toExact?_eq, abs_value]
  exact (nearest?_rounds (magnitude_den _) _).1

end Spelling

theorem ofText?_eq {s : Text} {n : Numeral} {v : Exact} (hn : read? s = some n)
    (hv : nearest? n.negative n.magnitude = some v) : ofText? s = some v.toFloat := by
  rw [ofText?, hn, bind_eq_bind, bind_some, n.toExact?_eq, hv]
  rfl

theorem ofFloat?_of_ofText? {s : Text} {x : Float} (h : ofText? s = some x) : ∃ n v, read? s = some n ∧
    Exact.ofFloat? x = some v ∧ v.negative = n.negative ∧
      RoundsTo 2 (max (-1074) (Int.log 2 n.magnitude.value - 52)) n.magnitude.value v.magnitude.value := by
  obtain ⟨n, hread, h⟩ := bind_eq_some_iff.1 h
  obtain ⟨v, hv, hx⟩ := bind_eq_some_iff.1 h
  cases hx
  rw [toExact?_eq] at hv
  obtain ⟨hcanonical, hrounds⟩ := (nearest?_rounds n.magnitude_den _).2 v hv
  exact ⟨n, v, hread, hcanonical.ofFloat?_toFloat, hrounds⟩

/-- **The texts that are numbers** are those of the spellings of numbers below the overflow. The numeral that is read denotes the
number that is spelled, and it is rounded to the number format. -/
theorem ofText?_spells :
    (∀ s, (ofText? s).isSome ↔ ∃ w : Spelling, w.text = s ∧ |w.value| < 2 ^ 1024 - 2 ^ 970) ∧
      ∀ w : Spelling, ∃ n, Numeral.read? w.text = some n ∧ n.value = w.value ∧
        ofText? w.text = n.toExact?.map Exact.toFloat ∧
        ∀ x, ofText? w.text = some x → ∃ v, Exact.ofFloat? x = some v ∧
          RoundsTo 2 (max (-1074) (Int.log 2 |w.value| - 52)) w.value v.value := by
  refine ⟨fun s => ⟨fun h => ?_, ?_⟩, fun w => ⟨_, w.read?_text, w.numeral_value, w.ofText?_text, fun x hx => ?_⟩⟩
  · cases hn : Numeral.read? s with
    | none => simp [ofText?, hn] at h
    | some n =>
      obtain ⟨w, rfl, -⟩ := Numeral.eq_text_of_read? hn
      rw [w.ofText?_text, Option.isSome_map] at h
      exact ⟨w, rfl, w.isSome_toExact?.1 h⟩
  · rintro ⟨w, rfl, hlt⟩
    rw [w.ofText?_text, Option.isSome_map]
    exact w.isSome_toExact?.2 hlt
  · obtain ⟨n, v, hread, hv, hnegative, hrounds⟩ := ofFloat?_of_ofText? hx
    rw [w.read?_text] at hread
    cases hread
    refine ⟨v, hv, ?_⟩
    rw [w.abs_value, ← w.numeral_value, Numeral.value, Exact.value, hnegative]
    split
    · exact hrounds.neg
    · exact hrounds

end Rexx.Number
