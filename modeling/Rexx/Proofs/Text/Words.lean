import Rexx.Proofs.Text.Search

/-!
# `Text.Words` — the functions on words have one view of a text

A word is a run of characters without a blank that no longer run contains (`Text.IsRun`), and `Text.spans` lists the
words of a text in order.
-/

namespace Rexx

open Args List Text

namespace Text

variable {s t u w rest : Text} {i n k : Nat} {a b : Span} {xs ys : List Span}

/-! ## Cutting and joining -/

/-- Nothing, or what ends with a blank. -/
def BeginsWord (u : Text) : Prop := ∀ c ∈ u.getLast?, c = ' '

/-- Characters without a blank. -/
structure IsWord (w : Text) : Prop where
  ne_nil : w ≠ []
  solid : ∀ c ∈ w, c ≠ ' '

theorem words_spansFrom (i : Nat) (t : Text) : (spansFrom i t).map Span.word = words t := by
  unfold words spans
  suffices h : ∀ j, (spansFrom i t).map Span.word = (spansFrom j t).map Span.word from h 0
  intro j
  induction hlen : t.length using Nat.strong_induction_on generalizing t i j with
  | _ n ih =>
    cases worded t with
    | blank m => rw [spansFrom_replicate, spansFrom_replicate]
    | word m hne hw hrest =>
      rename_i w rest
      rw [spansFrom_worded hne hw hrest, spansFrom_worded hne hw hrest, map_cons, map_cons]
      have hpos := length_pos_iff.2 hne
      simp only [length_append] at hlen
      exact congrArg (w :: ·) (ih (rest.drop 1).length (by rw [List.length_drop]; omega) _ _ _ rfl)

theorem spansFrom_append (h : BeginsWord u) (i : Nat) (t : Text) :
    spansFrom i (u ++ t) = spansFrom i u ++ spansFrom (i + u.length) t := by
  induction hlen : u.length using Nat.strong_induction_on generalizing u i with
  | _ n ih =>
    cases worded u with
    | blank m =>
      rw [length_replicate] at hlen
      rw [spansFrom_blanks, spansFrom_replicate, hlen]
      rfl
    | word m hne hw hrest =>
      rename_i w rest
      -- the word is not the last of the text, so a blank follows it
      have hrest' : rest ≠ [] := by
        rintro rfl
        refine hw _ (getLast_mem hne) (h _ ?_)
        rw [append_nil, getLast?_append_of_ne_nil _ hne, getLast?_eq_some_getLast hne]
        rfl
      have hends : EndsWord (rest ++ t) := by
        intro c hc
        rw [head?_append_of_ne_nil _ hrest'] at hc
        exact hrest c hc
      have hbegins : BeginsWord rest := by
        intro c hc
        refine h c ?_
        rwa [getLast?_append_of_ne_nil _ (append_ne_nil_of_right_ne_nil _ hrest'),
          getLast?_append_of_ne_nil _ hrest']
      have hpos := length_pos_iff.2 hne
      simp only [length_append, length_replicate] at hlen
      rw [append_assoc, append_assoc, spansFrom_blanks, spansFrom_word hne hw hends, spansFrom_blanks,
        spansFrom_word hne hw hrest, ih rest.length (by omega) hbegins _ rfl, cons_append]
      congr 3
      omega

structure Cut (i : Nat) (t : Text) (xs : List Span) (a : Span) (ys : List Span) (u rest : Text) : Prop where
  text : t = u ++ (a.word ++ rest)
  start : a.start = i + u.length
  word : IsWord a.word
  begins : BeginsWord u
  ends : EndsWord rest
  before : spansFrom i u = xs
  after : spansFrom a.stop rest = ys

theorem spans_cut (h : spansFrom i t = xs ++ a :: ys) : ∃ u rest, Cut i t xs a ys u rest := by
  induction xs generalizing i t with
  | nil =>
    cases worded t with
    | blank m => simp [spansFrom_replicate] at h
    | word m hne hw hrest =>
      rename_i w rest
      rw [spansFrom_blanks, spansFrom_word hne hw hrest] at h
      obtain ⟨rfl, hys⟩ := cons_eq_cons.1 h
      refine ⟨replicate m ' ', rest, rfl, by simp, ⟨hne, hw⟩, ?_, hrest, spansFrom_replicate m i, hys⟩
      exact fun c hc => eq_of_mem_replicate (mem_of_getLast? hc)
  | cons x xs ih =>
    cases worded t with
    | blank m => simp [spansFrom_replicate] at h
    | word m hne hw hrest =>
      rename_i w rest
      rw [spansFrom_blanks, spansFrom_word hne hw hrest] at h
      obtain ⟨rfl, hxs⟩ := cons_eq_cons.1 h
      obtain ⟨u, rest', hcut⟩ := ih hxs
      have hu : u ≠ [] := by
        rintro rfl
        obtain ⟨c, v, hv⟩ := exists_cons_of_ne_nil hcut.word.ne_nil
        refine hcut.word.solid c (by simp [hv]) (hrest c ?_)
        rw [hcut.text, hv]
        rfl
      have hends : EndsWord u := by
        intro c hc
        refine hrest c ?_
        rwa [hcut.text, head?_append_of_ne_nil _ hu]
      refine ⟨replicate m ' ' ++ (w ++ u), rest', ?_, ?_, hcut.word, ?_, hcut.ends, ?_, hcut.after⟩
      · rw [hcut.text, append_assoc, append_assoc]
      · rw [hcut.start]
        simp only [length_append, length_replicate]
        omega
      · intro c hc
        refine hcut.begins c ?_
        rwa [getLast?_append_of_ne_nil _ (append_ne_nil_of_right_ne_nil _ hu),
          getLast?_append_of_ne_nil _ hu] at hc
      · rw [spansFrom_blanks, spansFrom_word hne hw hends, hcut.before]

namespace Cut

variable (h : Cut 0 t xs a ys u rest)

include h

theorem start_eq : a.start = u.length := h.start.trans (Nat.zero_add _)

theorem take_start : t.take a.start = u := by
  rw [h.text, h.start_eq, take_left]

theorem drop_start : t.drop a.start = a.word ++ rest := by
  rw [h.text, h.start_eq, drop_left]

theorem words_take_start : words (t.take a.start) = xs.map Span.word := by
  rw [h.take_start, ← words_spansFrom 0, h.before]

theorem words_drop_start : words (t.drop a.start) = (a :: ys).map Span.word := by
  rw [h.drop_start, ← words_spansFrom a.start, spansFrom_word h.word.ne_nil h.word.solid h.ends]
  exact congrArg (fun l => map Span.word (a :: l)) h.after

theorem spans_take_stop : spans (t.take a.stop) = xs ++ [a] := by
  have hstop : a.stop = (u ++ a.word).length := by rw [Span.stop, h.start_eq, length_append]
  rw [hstop, h.text, ← append_assoc, take_left, spans, spansFrom_append h.begins, h.before,
    ← append_nil a.word, spansFrom_word h.word.ne_nil h.word.solid (by intro c hc; cases hc), Nat.zero_add, ← h.start_eq]
  rfl

end Cut

/-! ## Runs -/

/-- A run of characters without a blank that no longer run contains. -/
def IsRun (s : Text) (a : Span) : Prop :=
  ∃ u rest, s = u ++ (a.word ++ rest) ∧ a.start = u.length ∧ IsWord a.word ∧ BeginsWord u ∧ EndsWord rest

theorem mem_spans_iff : a ∈ spans s ↔ IsRun s a := by
  constructor
  · intro h
    obtain ⟨xs, ys, hsplit⟩ := append_of_mem h
    obtain ⟨u, rest, hcut⟩ := spans_cut (i := 0) hsplit
    exact ⟨u, rest, hcut.text, hcut.start_eq, hcut.word, hcut.begins, hcut.ends⟩
  · obtain ⟨start, word⟩ := a
    rintro ⟨u, rest, rfl, hstart, hword, hbegins, hends⟩
    cases hstart
    rw [spans, spansFrom_append hbegins, spansFrom_word hword.ne_nil hword.solid hends, Nat.zero_add]
    simp

theorem spans_sorted (s : Text) : (spans s).Pairwise fun a b => a.start < b.start := by
  refine pairwise_iff_forall_sublist.2 fun {a b} hab => ?_
  obtain ⟨xs, zs, hxs, ha, hb⟩ := cons_sublist_iff.1 hab
  obtain ⟨vs, ws, rfl⟩ := append_of_mem ha
  have hsplit : spansFrom 0 s = vs ++ a :: (ws ++ zs) := by simpa [spans] using hxs
  obtain ⟨u, rest, hcut⟩ := spans_cut hsplit
  have hmem : b ∈ spansFrom a.stop rest := by
    rw [hcut.after]
    exact mem_append_right _ (singleton_sublist.1 hb)
  have hpos := length_pos_iff.2 hcut.word.ne_nil
  have hle := le_start hmem
  rw [Span.stop] at hle
  omega

theorem length_spans (s : Text) : (spans s).length = (words s).length := (length_map ..).symm

theorem isWord_of_mem (hw : w ∈ words s) : IsWord w := by
  obtain ⟨a, ha, rfl⟩ := mem_map.1 hw
  obtain ⟨u, rest, -, -, hword, -, -⟩ := mem_spans_iff.1 ha
  exact hword

/-! ## Parts of the list of words -/

theorem split_at (h : (spans s)[k]? = some a) : spansFrom 0 s = (spans s).take k ++ a :: (spans s).drop (k + 1) := by
  obtain ⟨hlt, rfl⟩ := List.getElem?_eq_some_iff.1 h
  rw [← drop_eq_getElem_cons hlt, take_append_drop]
  rfl

theorem words_subword (s : Text) (n : Nat) (l : Option Nat) :
    words (subword s n l) = ((words s).drop (n - 1)).take (l.getD (words s).length) := by
  unfold subword
  dsimp only
  rw [length_spans]
  generalize l.getD (words s).length = l
  have hlist : ((words s).drop (n - 1)).take l = (((spans s).drop (n - 1)).take l).map Span.word := by
    rw [map_take, map_drop]
    rfl
  rw [hlist]
  generalize hc : ((spans s).drop (n - 1)).take l = chosen
  cases hb : chosen.getLast? with
  | none =>
    rw [getLast?_eq_none_iff.1 hb]
    rfl
  | some b =>
    -- the text up to the end of the last of the words, and of that the part from the first one on
    obtain ⟨ws, rfl⟩ := getLast?_eq_some_iff.1 hb
    obtain ⟨ys, hys⟩ : ∃ ys, (spans s).drop (n - 1) = ws ++ b :: ys := by
      refine ⟨((spans s).drop (n - 1)).drop l, ?_⟩
      rw [append_cons, ← hc, take_append_drop]
    have hsplit : spansFrom 0 s = ((spans s).take (n - 1) ++ ws) ++ b :: ys := by
      rw [append_assoc, ← hys, take_append_drop]
      rfl
    obtain ⟨u, rest, hcut⟩ := spans_cut hsplit
    have hstop := hcut.spans_take_stop
    cases hws : ws ++ [b] with
    | nil => simp at hws
    | cons a zs =>
      rw [append_assoc, hws] at hstop
      obtain ⟨u', rest', hcut'⟩ := spans_cut (i := 0) hstop
      exact hcut'.words_drop_start

theorem words_delword (s : Text) (n : Nat) (l : Option Nat) :
    words (delword s n l) = (words s).take (n - 1) ++ (words s).drop (n - 1 + l.getD (words s).length) := by
  unfold delword
  dsimp only
  rw [length_spans]
  generalize l.getD (words s).length = l
  cases ha : (spans s)[n - 1]? with
  | none =>
    have hle : (words s).length ≤ n - 1 := by
      rw [← length_spans]
      exact getElem?_eq_none_iff.1 ha
    rw [take_of_length_le hle, drop_eq_nil_of_le (by omega), append_nil]
  | some a =>
    obtain ⟨u, rest, hcut⟩ := spans_cut (split_at ha)
    have hbefore : words (s.take a.start) = (words s).take (n - 1) := by
      rw [hcut.words_take_start, map_take]
      rfl
    dsimp only
    split
    · rename_i hl
      rw [hl, Nat.add_zero, take_append_drop]
    · cases hb : (spans s)[n - 1 + l]? with
      | none =>
        have hle : (words s).length ≤ n - 1 + l := by
          rw [← length_spans]
          exact getElem?_eq_none_iff.1 hb
        rw [drop_eq_nil_of_le hle, append_nil]
        exact hbefore
      | some b =>
        obtain ⟨u', rest', hcut'⟩ := spans_cut (split_at hb)
        have hafter : words (s.drop b.start) = (words s).drop (n - 1 + l) := by
          obtain ⟨hlt, hb'⟩ := List.getElem?_eq_some_iff.1 hb
          rw [hcut'.words_drop_start, ← hb', ← drop_eq_getElem_cons hlt, map_drop]
          rfl
        dsimp only
        rw [← words_spansFrom 0, hcut.take_start, spansFrom_append hcut.begins, map_append, words_spansFrom,
          words_spansFrom, ← hcut.take_start, hbefore, hafter]

theorem words_word (hw : IsWord w) : words w = [w] := by
  have hends : EndsWord [] := by
    intro c hc
    cases hc
  have h := spansFrom_word hw.ne_nil hw.solid hends 0
  rw [append_nil] at h
  rw [words, spans, h]
  rfl

theorem words_intercalate (k : Nat) {ws : List Text} (h : ∀ w ∈ ws, IsWord w) :
    words ((List.replicate (k + 1) ' ').intercalate ws) = ws := by
  induction ws with
  | nil => rfl
  | cons w ws ih =>
    have hw := h w List.mem_cons_self
    cases ws with
    | nil => simpa [List.intercalate] using words_word hw
    | cons w' ws =>
      have hbegins : BeginsWord (w ++ List.replicate (k + 1) ' ') := by
        intro c hc
        rw [List.getLast?_append_of_ne_nil _ (by simp)] at hc
        exact List.eq_of_mem_replicate (List.mem_of_getLast? hc)
      have hends : EndsWord (List.replicate (k + 1) ' ') := fun c hc =>
        List.eq_of_mem_replicate (List.mem_of_mem_head? hc)
      rw [intercalate_cons _ _ (List.cons_ne_nil _ _), ← words_spansFrom 0, spansFrom_append hbegins, List.map_append,
        spansFrom_word hw.ne_nil hw.solid hends, spansFrom_replicate, words_spansFrom,
        ih fun v hv => h v (List.mem_cons_of_mem _ hv)]
      rfl

theorem phraseFrom_leastOrZero {ps : List Text} (hps : ps ≠ []) (i : Nat) (hi : 1 ≤ i) (ws : List Text) :
    LeastOrZero {k | i ≤ k ∧ ps <+: ws.drop (k - i)} (phraseFrom ps i ws) := by
  induction ws generalizing i with
  | nil =>
    refine .inr ⟨Set.eq_empty_of_forall_notMem ?_, rfl⟩
    rintro k ⟨-, hk⟩
    rw [drop_nil] at hk
    exact hps (prefix_nil.1 hk)
  | cons w ws ih =>
    rw [phraseFrom]
    split
    · rename_i h
      refine .inl ⟨⟨le_rfl, ?_⟩, fun k hk => hk.1⟩
      rw [Nat.sub_self]
      exact isPrefixOf_iff_prefix.1 h
    · rename_i h
      have hset : {k | i ≤ k ∧ ps <+: (w :: ws).drop (k - i)} = {k | i + 1 ≤ k ∧ ps <+: ws.drop (k - (i + 1))} := by
        ext k
        constructor
        · rintro ⟨hle, hk⟩
          obtain rfl | hlt := Nat.eq_or_lt_of_le hle
          · rw [Nat.sub_self] at hk
            exact absurd (List.isPrefixOf_iff_prefix.2 hk) h
          · refine ⟨hlt, ?_⟩
            rwa [show k - i = k - (i + 1) + 1 by omega, drop_succ_cons] at hk
        · rintro ⟨hle, hk⟩
          refine ⟨Nat.le_of_succ_le hle, ?_⟩
          rwa [show k - i = k - (i + 1) + 1 by omega, drop_succ_cons]
      rw [hset]
      exact ih (i + 1) (by omega)

theorem wordPosition_leastOrZero (p s : Text) (hn : 1 ≤ n) :
    (words p = [] → wordPosition p s n = 0) ∧
      (words p ≠ [] → LeastOrZero {k | n ≤ k ∧ words p <+: (words s).drop (k - 1)} (wordPosition p s n)) := by
  unfold wordPosition
  dsimp only
  refine ⟨fun hp => by rw [hp]; rfl, fun hp => ?_⟩
  have hset : {k | n ≤ k ∧ words p <+: (words s).drop (k - 1)} =
      {k | n ≤ k ∧ words p <+: ((words s).drop (n - 1)).drop (k - n)} := by
    ext k
    refine and_congr_right fun hk => ?_
    rw [drop_drop, show n - 1 + (k - n) = k - 1 by omega]
  rw [hset, isEmpty_eq_false_iff.2 hp]
  exact phraseFrom_leastOrZero hp n hn _

/-! ## The functions -/

open Builtin Number

variable {x : Text}

theorem wordOf_eq (hx : Denotes x n) (hn : 1 ≤ n) : wordOf [s, x] = .ok ((words s).getD (n - 1) []) := by
  simp only [wordOf, positive_of_denotes (a := [s, x]) (i := 1) rfl hx hn, bind, Except.bind]
  rfl

theorem wordindexOf_eq (hx : Denotes x n) (hn : 1 ≤ n) :
    wordindexOf [s, x] = .ok (ofNat (((spans s)[n - 1]?.map fun a => a.start + 1).getD 0)) := by
  simp only [wordindexOf, positive_of_denotes (a := [s, x]) (i := 1) rfl hx hn, bind, Except.bind]
  rfl

/-- A number of words, given or left out. -/
def Counts (more : List Text) (l : Option Nat) : Prop :=
  more = [] ∧ l = none ∨ ∃ y k, more = [y] ∧ Denotes y k ∧ l = some k

theorem cut_of_counts {more : List Text} {l : Option Nat} (hl : Counts more l) (cut : Option Nat → Text) :
    (if size (s :: x :: more) = 3 then (length (s :: x :: more) 2 0).bind fun k => .ok (cut (some k)) else .ok (cut none)) =
      (.ok (cut l) : Except BadCall Text) := by
  obtain ⟨rfl, rfl⟩ | ⟨y, k, rfl, hy, rfl⟩ := hl
  · rfl
  · rw [if_pos (show size [s, x, y] = 3 from rfl), length_of_denotes (a := [s, x, y]) rfl hy]
    rfl

theorem subwordOf_words (hx : Denotes x n) (hn : 1 ≤ n) {more : List Text} {l : Option Nat} (hl : Counts more l) :
    ∃ r, subwordOf (s :: x :: more) = .ok r ∧ words r = ((words s).drop (n - 1)).take (l.getD (words s).length) := by
  have hp : positive (s :: x :: more) 1 = .ok n := positive_of_denotes rfl hx hn
  simp only [subwordOf, hp, bind, Except.bind]
  by_cases hlt : (spans (text (s :: x :: more) 0)).length < n
  · refine ⟨[], if_pos hlt, ?_⟩
    have hlt' : (words s).length < n := (length_spans s).symm.trans_lt hlt
    rw [drop_eq_nil_of_le (by omega), take_nil]
    rfl
  · exact ⟨_, (if_neg hlt).trans (cut_of_counts hl (subword s n)), words_subword s n l⟩

theorem delwordOf_words (hx : Denotes x n) (hn : 1 ≤ n) {more : List Text} {l : Option Nat} (hl : Counts more l) :
    ∃ r, delwordOf (s :: x :: more) = .ok r ∧
      words r = (words s).take (n - 1) ++ (words s).drop (n - 1 + l.getD (words s).length) := by
  have hp : positive (s :: x :: more) 1 = .ok n := positive_of_denotes rfl hx hn
  simp only [delwordOf, hp, bind, Except.bind]
  by_cases hlt : (spans (text (s :: x :: more) 0)).length < n
  · refine ⟨s, if_pos hlt, ?_⟩
    have hlt' : (words s).length < n := (length_spans s).symm.trans_lt hlt
    rw [take_of_length_le (by omega), drop_eq_nil_of_le (by omega), append_nil]
  · exact ⟨_, (if_neg hlt).trans (cut_of_counts hl (delword s n)), words_delword s n l⟩

theorem substrOf_word {a : Span} (h : (spans s)[n - 1]? = some a) (hs : s.length ≤ maxLength) :
    substrOf [s, ofNat (a.start + 1), ofNat a.word.length] = .ok a.word := by
  obtain ⟨u, rest, hcut⟩ := spans_cut (split_at h)
  have hbound := congrArg List.length hcut.text
  simp only [length_append] at hbound
  have hstart := hcut.start_eq
  have hmax : maxLength ≤ 2 ^ 30 := by decide
  have hp : positive [s, ofNat (a.start + 1), ofNat a.word.length] 1 = .ok (a.start + 1) :=
    positive_of_denotes rfl (denotes_ofNat (by omega)) (by omega)
  have hlen : length [s, ofNat (a.start + 1), ofNat a.word.length] 2 0 = .ok a.word.length :=
    length_of_denotes rfl (denotes_ofNat (by omega)) 0
  have hcheck : checkLength a.word.length = .ok () := if_pos (by omega)
  have hfit : fit a.word.length ' ' (fromColumn (a.start + 1) s) = a.word := by
    rw [fit, fromColumn, Nat.add_sub_cancel, hcut.drop_start, take_left, length_append,
      show a.word.length - (a.word.length + rest.length) = 0 by omega, replicate_zero, append_nil]
  simp only [substrOf, hp, hlen, hcheck, bind, Except.bind]
  exact congrArg Except.ok hfit

/-- **The functions on words have one view of a text.** The words are its runs without a blank, from left to right.
WORDS counts them, WORD gives each of them, and WORDINDEX and SUBSTR find it in the text. SUBWORD and DELWORD keep and
leave out the words from one on, as many as are asked for and there are. -/
theorem words_consistent (s : Text) :
    (∀ a, a ∈ spans s ↔ IsRun s a) ∧ (spans s).Pairwise (fun a b => a.start < b.start) ∧ words s = (spans s).map Span.word ∧
      (∀ (σ : Type) (m : Machine σ), Engine.callBuiltin .words [s] m = .ok (ofNat (spans s).length) m) ∧
      (∀ n x, 1 ≤ n → Denotes x n →
        (∀ a, (spans s)[n - 1]? = some a → wordOf [s, x] = .ok a.word ∧ wordindexOf [s, x] = .ok (Text.ofNat (a.start + 1)) ∧
          (s.length ≤ Args.maxLength →
            substrOf [s, Text.ofNat (a.start + 1), Text.ofNat a.word.length] = .ok a.word)) ∧
        (∀ more l, Counts more l →
          (∃ r, subwordOf (s :: x :: more) = .ok r ∧ words r = ((words s).drop (n - 1)).take (l.getD (words s).length)) ∧
          ∃ r, delwordOf (s :: x :: more) = .ok r ∧
            words r = (words s).take (n - 1) ++ (words s).drop (n - 1 + l.getD (words s).length)) ∧
        ∀ p, ∃ k, wordposOf [p, s, x] = .ok (Text.ofNat k) ∧ (words p = [] → k = 0) ∧
          (words p ≠ [] → LeastOrZero {k | n ≤ k ∧ words p <+: (words s).drop (k - 1)} k)) ∧
      ∀ k x, 1 ≤ k → k ≤ Args.maxLength → Denotes x k → ∃ r, spaceOf [s, x] = .ok r ∧ words r = words s := by
  refine ⟨fun a => mem_spans_iff, spans_sorted s, rfl, fun σ m => ?_, fun n x hn hx => ⟨fun a ha => ⟨?_, ?_, substrOf_word ha⟩, fun more l hl =>
    ⟨subwordOf_words hx hn hl, delwordOf_words hx hn hl⟩, fun p => ⟨wordPosition p s n, ?_, wordPosition_leastOrZero p s hn⟩⟩,
    fun k x hk hmax hx => ⟨respace k ' ' s, ?_, ?_⟩⟩
  · rw [length_spans]
    rfl
  · rw [wordOf_eq hx hn, words, List.getD_eq_getElem?_getD, List.getElem?_map, ha]
    rfl
  · rw [wordindexOf_eq hx hn, ha]
    rfl
  · simp only [wordposOf, Args.positive_of_denotes (a := [p, s, x]) (i := 2) rfl hx hn, bind, Except.bind]
    rfl
  · have hcheck : Args.checkLength k = .ok () := if_pos hmax
    simp only [spaceOf, Args.length_of_denotes (a := [s, x]) (i := 1) rfl hx, hcheck, bind, Except.bind]
    rfl
  · obtain ⟨j, rfl⟩ : ∃ j, k = j + 1 := ⟨k - 1, by omega⟩
    exact words_intercalate j fun w hw => isWord_of_mem hw

theorem words_consistent_three : wordOf [" ab  c d".toList, "2".toList] = .ok ['c'] ∧
    ∃ r, delwordOf [" ab  c d".toList, "2".toList, "1".toList] = .ok r ∧ words r = ["ab".toList, ['d']] := by
  have hone : Denotes "1".toList 1 := by
    unfold Denotes
    decide +kernel
  have htwo : Denotes "2".toList 2 := by
    unfold Denotes
    decide +kernel
  obtain ⟨-, -, -, -, h, -⟩ := words_consistent " ab  c d".toList
  obtain ⟨hword, hparts, -⟩ := h 2 _ (by decide) htwo
  exact ⟨(hword ⟨5, ['c']⟩ (by decide)).1, (hparts _ (some 1) (.inr ⟨_, 1, rfl, hone, rfl⟩)).2⟩

end Text

end Rexx
