import Mathlib.Data.List.GetD
import Mathlib.Data.List.TakeWhile
import Rexx.Builtin.Texts
import Rexx.Template

/-!
# `Template.Words` — taking a text apart into words

A template without patterns hands a text out word by word, and the words are those that the functions on words find.
-/

namespace Rexx

open List

namespace Text

variable {s t w rest : Text} {i n k : Nat} {a b : Span}

/-! ## The first word -/

/-- Nothing, or a blank and what follows it. -/
def EndsWord (rest : Text) : Prop := ∀ c ∈ rest.head?, c = ' '

inductive Worded : Text → Prop
  | blank (n : Nat) : Worded (List.replicate n ' ')
  | word (n : Nat) {w rest : Text} (hne : w ≠ []) (hw : ∀ c ∈ w, c ≠ ' ') (hrest : EndsWord rest) :
    Worded (List.replicate n ' ' ++ (w ++ rest))

theorem endsWord_dropWhile (t : Text) : EndsWord (t.dropWhile (· != ' ')) := by
  intro c hc
  have hnot := head?_dropWhile_not (· != ' ') t
  rw [Option.mem_def.1 hc] at hnot
  simpa using hnot

theorem worded (t : Text) : Worded t := by
  have hlead : t.takeWhile (· == ' ') = replicate (t.takeWhile (· == ' ')).length ' ' :=
    eq_replicate_iff.2 ⟨rfl, fun c hc => by simpa using mem_takeWhile_imp hc⟩
  rw [← takeWhile_append_dropWhile (l := t), hlead]
  cases hs : t.dropWhile (· == ' ') with
  | nil =>
    rw [append_nil]
    exact .blank _
  | cons c s =>
    have hc : c ≠ ' ' := by
      have hnot := head?_dropWhile_not (· == ' ') t
      rw [hs] at hnot
      simpa using hnot
    rw [← takeWhile_append_dropWhile (l := c :: s)]
    refine .word _ ?_ (fun d hd => by simpa using mem_takeWhile_imp hd) (endsWord_dropWhile _)
    simp [hc]

/-! ## The places of words -/

theorem le_start (h : a ∈ spansFrom i t) : i ≤ a.start := by
  fun_induction spansFrom i t with
  | case1 => cases h
  | case2 i _ ih => exact Nat.le_of_succ_le (ih h)
  | case3 i c s _ hs =>
    obtain rfl : a = _ := by simpa using h
    exact Nat.le_refl _
  | case4 i c s _ b ws hs hb ih =>
    obtain rfl | ha := mem_cons.1 h
    · exact Nat.le_refl _
    · exact Nat.le_of_succ_le (ih (by rw [hs]; exact mem_cons_of_mem _ ha))
  | case5 i c s _ b ws hs hb ih =>
    obtain rfl | ha := mem_cons.1 h
    · exact Nat.le_refl _
    · exact Nat.le_of_succ_le (ih (by rw [hs]; exact ha))

theorem spansFrom_blanks (n i : Nat) (t : Text) : spansFrom i (replicate n ' ' ++ t) = spansFrom (i + n) t := by
  induction n generalizing i with
  | zero => rfl
  | succ n ih =>
    rw [replicate_succ, cons_append, spansFrom, if_pos rfl, ih]
    congr 1
    omega

theorem EndsWord.spansFrom (h : EndsWord rest) (i : Nat) : spansFrom i rest = spansFrom (i + 1) (rest.drop 1) := by
  cases rest with
  | nil => rfl
  | cons c r =>
    obtain rfl : c = ' ' := h c rfl
    rfl

theorem spansFrom_word (hne : w ≠ []) (hw : ∀ c ∈ w, c ≠ ' ') (hrest : EndsWord rest) (i : Nat) :
    spansFrom i (w ++ rest) = ⟨i, w⟩ :: spansFrom (i + w.length) rest := by
  induction w generalizing i with
  | nil => exact absurd rfl hne
  | cons c w ih =>
    have hc : c ≠ ' ' := hw c mem_cons_self
    rw [cons_append, spansFrom, if_neg hc]
    cases w with
    | nil =>
      -- the next word, if there is one, begins after a blank
      cases hs : spansFrom (i + 1 + 1) (rest.drop 1) with
      | nil =>
        have := hrest.spansFrom (i + 1)
        simp_all
      | cons b ws =>
        have hb : i + 1 + 1 ≤ b.start := le_start (by rw [hs]; exact mem_cons_self)
        have hnext := hrest.spansFrom (i + 1)
        rw [hs] at hnext
        simp [hnext, show b.start ≠ i + 1 by omega]
    | cons d w =>
      rw [ih (cons_ne_nil _ _) (fun e he => hw e (mem_cons_of_mem _ he)) (i + 1)]
      simp only [if_pos]
      rw [length_cons (a := c), show i + 1 + (d :: w).length = i + ((d :: w).length + 1) by omega]

theorem spansFrom_worded (hne : w ≠ []) (hw : ∀ c ∈ w, c ≠ ' ') (hrest : EndsWord rest) (n i : Nat) :
    spansFrom i (replicate n ' ' ++ (w ++ rest)) =
      ⟨i + n, w⟩ :: spansFrom (i + (n + w.length + 1)) (rest.drop 1) := by
  rw [spansFrom_blanks, spansFrom_word hne hw hrest, hrest.spansFrom]
  congr 2
  omega

theorem spansFrom_replicate (n i : Nat) : spansFrom i (replicate n ' ') = [] := by
  have := spansFrom_blanks n i []
  rwa [append_nil] at this

theorem blank_of_spansFrom (h : spansFrom i t = []) : ∃ n, t = replicate n ' ' := by
  cases worded t with
  | blank n => exact ⟨n, rfl⟩
  | word n hne hw hrest =>
    rw [spansFrom_worded hne hw hrest] at h
    cases h

/-! ## Stripping -/

theorem spansFrom_getLast? (h : (spansFrom i t).getLast? = some b) :
    ∃ u c n, t = u ++ c :: replicate n ' ' ∧ c ≠ ' ' ∧ b.stop = i + u.length + 1 := by
  induction hs : spansFrom i t generalizing i t with
  | nil => simp [hs] at h
  | cons a ws ih =>
    cases worded t with
    | blank n =>
      rw [spansFrom_replicate] at hs
      cases hs
    | word n hne hw hrest =>
      rename_i w rest
      rw [spansFrom_worded hne hw hrest] at hs h
      obtain ⟨rfl, hws⟩ := cons_eq_cons.1 hs
      cases ws with
      | nil =>
        obtain ⟨m, rfl⟩ := blank_of_spansFrom ((hrest.spansFrom _).trans hws)
        rw [hws, getLast?_singleton] at h
        cases h
        have hlen := length_pos_iff.2 hne
        refine ⟨replicate n ' ' ++ w.dropLast, w.getLast hne, m, ?_, hw _ (getLast_mem hne), ?_⟩
        · rw [append_assoc, append_cons w.dropLast, dropLast_concat_getLast hne]
        · simp only [Span.stop, length_append, length_replicate, length_dropLast]
          omega
      | cons a' ws =>
        rw [hws, getLast?_cons_cons, ← hws] at h
        obtain ⟨u, c, m, ht, hc, hstop⟩ := ih h hws
        obtain ⟨d, r, rfl⟩ : ∃ d r, rest = d :: r := exists_cons_of_ne_nil (by rintro rfl; simp at ht)
        rw [drop_one, tail_cons] at ht
        refine ⟨replicate n ' ' ++ (w ++ d :: u), c, m, by simp [ht], hc, ?_⟩
        simp only [length_append, length_replicate, length_cons]
        omega

theorem stripRight_of_getLast? (h : (spansFrom i t).getLast? = some b) : stripRight ' ' t = t.take (b.stop - i) := by
  obtain ⟨u, c, n, rfl, hc, hstop⟩ := spansFrom_getLast? h
  have hlen : b.stop - i = (u ++ [c]).length := by
    rw [length_append, length_singleton]
    omega
  rw [hlen, append_cons, take_left]
  simp [stripRight, hc]

theorem stripLeft_worded (n : Nat) (hne : w ≠ []) (hw : ∀ c ∈ w, c ≠ ' ') (rest : Text) :
    stripLeft ' ' (replicate n ' ' ++ (w ++ rest)) = w ++ rest := by
  obtain ⟨c, w, rfl⟩ := exists_cons_of_ne_nil hne
  simp [stripLeft, hw c mem_cons_self]

theorem strip_eq (h : (spansFrom i t).head? = some a) (h' : (spansFrom i t).getLast? = some b) :
    strip ' ' t = (t.take (b.stop - i)).drop (a.start - i) := by
  cases worded t with
  | blank n => simp [spansFrom_replicate] at h
  | word n hne hw hrest =>
    rename_i w rest
    have ha : a.start - i = n := by
      rw [spansFrom_worded hne hw hrest] at h
      cases h
      exact Nat.add_sub_cancel_left ..
    rw [spansFrom_blanks] at h'
    rw [strip, stripLeft_worded n hne hw, stripRight_of_getLast? h', ha, drop_take, drop_left' length_replicate]
    congr 1
    omega

theorem subword_eq_strip (h : spansFrom k (s.drop k) = (spans s).drop (n - 1)) :
    subword s n none = strip ' ' (s.drop k) := by
  have hchosen : ((spans s).drop (n - 1)).take (spans s).length = spansFrom k (s.drop k) := by
    rw [h, take_of_length_le]
    simp
  unfold subword
  simp only [Option.getD_none, hchosen]
  cases hs : spansFrom k (s.drop k) with
  | nil =>
    obtain ⟨m, hm⟩ := blank_of_spansFrom hs
    simp [hm, strip, stripLeft, stripRight]
  | cons a ws =>
    obtain ⟨b, hb⟩ : ∃ b, (a :: ws).getLast? = some b := ⟨_, getLast?_eq_some_getLast (cons_ne_nil _ _)⟩
    have ha : k ≤ a.start := le_start (by rw [hs]; exact mem_cons_self)
    rw [strip_eq (by rw [hs]; rfl) (by rw [hs]; exact hb), hb]
    simp only [head?_cons, drop_take, drop_drop]
    rw [show k + (a.start - k) = a.start by omega, show b.stop - k - (a.start - k) = b.stop - a.start by omega]

end Text

/-- What a piece of a template receives into: a variable, or nothing for a dot; a pattern receives nothing. -/
def Piece.receiver? : Piece → Option (Option Text)
  | .var name => some (some name)
  | .dot => some none
  | _ => none

namespace Template

open Text

/-! ## Handing out words -/

theorem firstWord_worded {w rest : Text} (n : Nat) (hw : ∀ c ∈ w, c ≠ ' ') (hne : w ≠ []) (hrest : EndsWord rest) :
    firstWord (replicate n ' ' ++ (w ++ rest)) = (w, rest.drop 1) := by
  have hleft : (replicate n ' ' ++ (w ++ rest)).dropWhile (· == ' ') = w ++ rest := stripLeft_worded n hne hw rest
  have hw' : ∀ c ∈ w, (c != ' ') = true := fun c hc => by simpa using hw c hc
  unfold firstWord
  simp only [hleft, takeWhile_append_of_pos hw', dropWhile_append_of_pos hw']
  cases rest with
  | nil => simp
  | cons c r =>
    obtain rfl : c = ' ' := hrest c rfl
    simp

theorem firstWord_blank (n : Nat) : firstWord (replicate n ' ') = ([], []) := by
  simp [firstWord]

theorem length_share (n : Nat) (t : Text) : (share n t).length = n := by
  fun_induction share n t <;> simp_all

theorem share_words {n k : Nat} (h : k < n) (i : Nat) (t : Text) :
    (share (n + 1) t).getD k [] = ((spansFrom i t).map Span.word).getD k [] := by
  induction n generalizing k i t with
  | zero => cases h
  | succ n ih =>
    cases worded t with
    | blank m =>
      rw [share, firstWord_blank, spansFrom_replicate]
      cases k with
      | zero => rfl
      | succ k => exact ih (Nat.lt_of_succ_lt_succ h) i []
    | word m hne hw hrest =>
      rw [share, firstWord_worded m hw hne hrest, spansFrom_worded hne hw hrest]
      cases k with
      | zero => rfl
      | succ k => exact ih (Nat.lt_of_succ_lt_succ h) _ _

structure Leaves (i : Nat) (t : Text) (n k : Nat) : Prop where
  first : n = 0 → k = 0
  after : ∀ w, 0 < n → (spansFrom i t)[n - 1]? = some w → i + k = w.stop + 1
  few : (spansFrom i t).length < n → t.length ≤ k

theorem share_last (n i : Nat) (t : Text) :
    ∃ k, (share (n + 1) t).getLast? = some (t.drop k) ∧ spansFrom (i + k) (t.drop k) = (spansFrom i t).drop n ∧
      Leaves i t n k := by
  induction n generalizing i t with
  | zero => exact ⟨0, rfl, rfl, fun _ => rfl, fun _ h => absurd h (Nat.lt_irrefl 0), fun h => absurd h (Nat.not_lt_zero _)⟩
  | succ n ih =>
    cases worded t with
    | blank m =>
      obtain ⟨k, hlast, -, -⟩ := ih i []
      have hnone := spansFrom_replicate m i
      refine ⟨m, ?_, by simp [hnone, spansFrom], ⟨by omega, by simp [hnone], by simp⟩⟩
      rw [share, firstWord_blank, getLast?_cons, hlast]
      simp
    | word m hne hw hrest =>
      rename_i w rest
      -- a receiver takes the blanks before the word, the word and one blank after it
      obtain ⟨k, hlast, hspans, hleaves⟩ := ih (i + (m + w.length + 1)) (rest.drop 1)
      have hdrop : (replicate m ' ' ++ (w ++ rest)).drop (m + w.length + 1 + k) = (rest.drop 1).drop k := by
        rw [← drop_drop, ← drop_drop, ← drop_drop, drop_left' length_replicate, drop_left]
      have hplaces := spansFrom_worded hne hw hrest m i
      refine ⟨m + w.length + 1 + k, ?_, ?_, ⟨by omega, ?_, ?_⟩⟩
      · rw [share, firstWord_worded m hw hne hrest, getLast?_cons, hlast, hdrop]
        rfl
      · rw [hdrop, hplaces, drop_succ_cons, ← Nat.add_assoc, hspans]
      · intro v _ hv
        rw [hplaces] at hv
        cases n with
        | zero =>
          cases hv
          simp only [hleaves.first rfl, Span.stop]
          omega
        | succ n =>
          have := hleaves.after v (Nat.succ_pos n) hv
          omega
      · intro hlen
        rw [hplaces] at hlen
        have := hleaves.few (Nat.lt_of_succ_lt_succ hlen)
        simp only [length_append, length_replicate, length_drop] at this ⊢
        omega

section

variable {m : Type → Type} [Monad m] {fetch : Text → m Text} {assign : Text → Text → m Unit} {p : Piece} {ps : List Piece}
  {src : Text} {receivers : List (Option Text)} {r : Option Text} {pos origin : Nat}

theorem walk_receiver (h : p.receiver? = some r) :
    walk fetch assign src (p :: ps) receivers pos origin = walk fetch assign src ps (receivers ++ [r]) pos origin := by
  cases p <;> cases h <;> rfl

theorem walk_receivers (h : ∀ p ∈ ps, p.receiver?.isSome) : walk fetch assign src ps receivers pos origin =
      fill assign src (receivers ++ ps.filterMap Piece.receiver?) pos src.length := by
  induction ps generalizing receivers with
  | nil => rw [filterMap_nil, append_nil, walk]
  | cons p ps ih =>
    obtain ⟨r, hr⟩ := Option.isSome_iff_exists.1 (h p mem_cons_self)
    rw [walk_receiver hr, ih fun q hq => h q (mem_cons_of_mem _ hq), filterMap_cons_some hr, append_assoc,
      singleton_append]

end

theorem length_receivers {template : List Piece} (h : ∀ p ∈ template, p.receiver?.isSome) :
    (template.filterMap Piece.receiver?).length = template.length := by
  rw [length_filterMap_eq_countP, countP_eq_length.2 h]

/-- **A template of variables and dots agrees with the functions on words.** Each piece but the last gets a word, as WORD
gives it, and the last gets the text after those words and one blank, which is SUBWORD with other blanks around it. -/
theorem apply_agrees_with_words {m : Type → Type} [Monad m] (fetch : Text → m Text) (assign : Text → Text → m Unit)
    (template : List Piece) (s : Text) (hne : template ≠ []) (hr : ∀ p ∈ template, p.receiver?.isSome) :
    ∃ texts last,
      apply fetch assign template s = assignAll assign (template.filterMap Piece.receiver?) (texts ++ [last]) ∧
      texts.length + 1 = template.length ∧
      (∀ k, 0 < k → k < template.length → texts.getD (k - 1) [] = (words s).getD (k - 1) [] ∧
        ∀ a : Args, a.text 0 = s → a.positive 1 = .ok k → Builtin.wordOf a = .ok (texts.getD (k - 1) [])) ∧
      (template.length = 1 → last = s) ∧
      (∀ w, 1 < template.length → (spans s)[template.length - 2]? = some w → last = s.drop (w.stop + 1)) ∧
      ((words s).length + 1 < template.length → last = []) ∧
      strip ' ' last = subword s template.length none ∧
      ∀ a : Args, a.text 0 = s → a.size = 2 → a.positive 1 = .ok template.length →
        Builtin.subwordOf a = .ok (strip ' ' last) := by
  obtain ⟨n, hn⟩ : ∃ n, template.length = n + 1 := Nat.exists_eq_add_one.2 (List.length_pos_iff.2 hne)
  obtain ⟨k, hlast, hspans, hleaves⟩ := share_last n 0 s
  obtain ⟨texts, htexts⟩ := List.getLast?_eq_some_iff.1 hlast
  rw [Nat.zero_add] at hspans
  have hlen : texts.length = n := by simpa [htexts] using length_share (n + 1) s
  have hword : ∀ j, j < n → texts.getD j [] = (words s).getD j [] := by
    intro j hj
    rw [words, spans, ← share_words hj 0 s, htexts, List.getD_append _ _ _ _ (by omega)]
  have hsub : strip ' ' (s.drop k) = subword s (n + 1) none := (subword_eq_strip hspans).symm
  refine ⟨texts, s.drop k, ?_, by omega, ?_, ?_, ?_, ?_, by rw [hn, hsub], ?_⟩
  · rw [apply, walk_receivers hr, fill, List.nil_append, length_receivers hr, hn, List.take_length, List.drop_zero, htexts]
  · intro j hj hj'
    have hj := hword (j - 1) (by omega)
    refine ⟨hj, fun a ha hpos => ?_⟩
    rw [Builtin.wordOf, hpos, hj, ← ha]
    rfl
  · intro h
    rw [hleaves.first (by omega), List.drop_zero]
  · intro w h hw
    rw [← hleaves.after w (by omega) (by rwa [hn] at hw), Nat.zero_add]
  · intro h
    rw [words, List.length_map, hn] at h
    exact List.drop_of_length_le (hleaves.few (Nat.lt_of_succ_lt_succ h))
  · intro a ha hsize hpos
    rw [Builtin.subwordOf, hpos, hsub, ha, hn]
    show (if (spans s).length < n + 1 then _ else _) = _
    split
    · rename_i hfew
      simp [subword, List.drop_of_length_le (Nat.le_of_lt_succ hfew)]
    · rw [if_neg (by omega)]

theorem apply_agrees_with_words_spaced :
    [Piece.var "A", .dot, .var "B"] ≠ [] ∧ (∀ p ∈ [Piece.var "A", .dot, .var "B"], p.receiver?.isSome) ∧
    ∃ (texts : List Text) (last : Text), texts.length + 1 = 3 ∧
      (∀ k, 0 < k → k < 3 → texts.getD (k - 1) [] = (words "  to be  or not ").getD (k - 1) []) ∧
      last = " or not ".toList ∧ strip ' ' last = subword "  to be  or not " 3 none := by
  refine ⟨by decide, by decide, ?_⟩
  obtain ⟨texts, last, -, hlen, hword, -, hafter, -, hsub, -⟩ :=
    apply_agrees_with_words (m := Id) (fun _ => []) (fun _ _ => ()) [.var "A", .dot, .var "B"] "  to be  or not "
      (by decide) (by decide)
  exact ⟨texts, last, hlen, fun k hk hk' => (hword k hk hk').1, hafter ⟨5, "be"⟩ (by decide) (by decide), hsub⟩

end Template

end Rexx
