import Rexx.Proofs.Token.Exchange

/-!
# `Token.Lexeme` — writing tokens, and reading them back

Of a token, the grammar sees what it is and whether a blank stands before it; how it is written and where matter to
reports only.
-/

namespace Rexx

open List Text TokenKind

structure Lexeme where
  kind : TokenKind
  blank : Bool
deriving DecidableEq, Repr

def Token.lexeme (t : Token) : Lexeme := ⟨t.kind, t.blank⟩

/-! ## Words -/

def Text.isSymbolWord (w : Text) : Bool :=
  !w.isEmpty && w.all Lexer.isSymbolChar && Text.upper w == w && !w.beginsNumber

def Text.isDecimalChar (c : Char) : Bool := c.isDigit || c == '.'

def Text.hasSignedExponent (w : Text) : Bool :=
  match w.dropWhile isDecimalChar with
  | 'E' :: sign :: d :: r => (sign == '+' || sign == '-') && d.isDigit && r.all Lexer.isSymbolChar
  | _ => false

def Text.isNumberWord (w : Text) : Bool :=
  w.beginsNumber && Text.upper w == w && (w.all Lexer.isSymbolChar || w.hasSignedExponent)

/-! ## Writing lexemes -/

namespace TokenKind

def written : TokenKind → Text
  | .endOfClause | .endOfSource => []
  | .symbol name => name
  | .keyword k => k.spelling
  | .number text => text
  | .literal quote body => quote.char :: (body.doubling quote.char ++ [quote.char])
  | .mark m => m.spelling

def isWritable : TokenKind → Bool
  | .endOfClause | .endOfSource => false
  | .symbol name => name.isSymbolWord && (Keyword.ofText? name).isNone
  | .keyword _ | .mark _ => true
  | .number text => text.isNumberWord
  | .literal quote body => quote != .heredoc && !body.contains '\n'

def isMark : TokenKind → Bool
  | .mark _ => true
  | _ => false

end TokenKind

namespace Lexeme

def text (l : Lexeme) : Text := if l.blank then ' ' :: l.kind.written else l.kind.written

def line : List Lexeme → Text
  | [] => []
  | l :: ls => l.kind.written ++ ls.flatMap text

/-- Whether `next` may follow `l`: after a blank always, and without one if it opens a parenthesis after a name, a number
or a literal. -/
def Follows (l next : Lexeme) : Prop := next.blank = true ∨ next.kind = .mark .leftParen ∧ l.kind.isMark = false

structure WellSpaced (ls : List Lexeme) : Prop where
  writable : ∀ l ∈ ls, l.kind.isWritable = true
  follows : ls.IsChain Follows
  blankFirst : ∀ l ∈ ls.head?, l.blank = true

theorem flatMap_text {ls : List Lexeme} (h : WellSpaced ls) (hne : ls ≠ []) : ls.flatMap text = ' ' :: line ls := by
  cases ls with
  | nil => exact absurd rfl hne
  | cons l ls =>
    have hl : l.blank = true := h.blankFirst l rfl
    simp [line, text, hl]

namespace WellSpaced

theorem nil : WellSpaced [] := ⟨by simp, .nil, by simp⟩

variable {ls : List Lexeme} {l : Lexeme}

theorem single (hw : l.kind.isWritable = true) (hb : l.blank = true) : WellSpaced [l] :=
  ⟨by simpa using hw, .singleton l, by simpa using hb⟩

theorem append {ls ms : List Lexeme} (h1 : WellSpaced ls) (h2 : WellSpaced ms) : WellSpaced (ls ++ ms) where
  writable := by
    intro l hl
    rcases mem_append.1 hl with hl | hl
    · exact h1.writable l hl
    · exact h2.writable l hl
  follows := by
    refine isChain_append.2 ⟨h1.follows, h2.follows, ?_⟩
    intro l _ next hnext
    exact .inl (h2.blankFirst next hnext)
  blankFirst := by
    intro l hl
    cases ls with
    | nil => exact h2.blankFirst l hl
    | cons _ _ => exact h1.blankFirst l hl

theorem beforeArguments (hw : l.kind.isWritable = true) (hb : l.blank = true)
    (hm : l.kind.isMark = false) (h : WellSpaced ls) : WellSpaced (l :: ⟨.mark .leftParen, false⟩ :: ls) := by
  have hpair : WellSpaced [l, ⟨.mark .leftParen, false⟩] := by
    refine ⟨?_, isChain_pair.2 (.inr ⟨rfl, hm⟩), by simpa using hb⟩
    intro m hmem
    rcases mem_pair.1 hmem with rfl | rfl
    · exact hw
    · rfl
  exact append hpair h

end WellSpaced

end Lexeme

/-! ## Reading words -/

namespace Lexer

variable {c : Char} {w r : Text}

theorem signedNext_of_isSymbolChar (hw : w.all isSymbolChar = true) : signedNext w = false := by
  cases w with
  | nil => rfl
  | cons c w =>
    rw [all_cons, Bool.and_eq_true] at hw
    have hsign : (c == '+' || c == '-') = false := by
      rw [Bool.or_eq_false_iff, beq_eq_false_iff_ne, beq_eq_false_iff_ne]
      constructor <;> rintro rfl <;> exact absurd hw.1 (by decide)
    simp [signedNext, hsign]

theorem numberWord_of_isSymbolChar (plain : Bool) (hw : w.all isSymbolChar = true) : numberWord plain w = w := by
  induction w generalizing plain with
  | nil => rfl
  | cons c w ih =>
    rw [all_cons, Bool.and_eq_true] at hw
    cases hplain : plain && (c == 'e' || c == 'E') with
    | false => rw [numberWord_cons hw.1 hplain, ih _ hw.2]
    | true =>
      rw [Bool.and_eq_true] at hplain
      rw [hplain.1, numberWord_exponent hw.1 hplain.2 (signedNext_of_isSymbolChar hw.2), ih _ hw.2]

theorem isSymbolChar_of_isDecimalChar (h : isDecimalChar c = true) :
    isSymbolChar c = true ∧ (true && (c == 'e' || c == 'E')) = false := by
  rcases Bool.or_eq_true_iff.1 h with hd | hp
  · refine ⟨isSymbolChar_of_isDigit hd, ?_⟩
    rw [Bool.true_and, Bool.or_eq_false_iff, beq_eq_false_iff_ne, beq_eq_false_iff_ne]
    constructor <;> rintro rfl <;> cases hd
  · rw [eq_of_beq hp]
    decide

theorem numberWord_mantissa (hw : ∀ c ∈ w, isDecimalChar c = true) (s : Text) :
    numberWord true (w ++ s) = w ++ numberWord true s := by
  induction w with
  | nil => rfl
  | cons c w ih =>
    have hc := hw c (by simp)
    obtain ⟨hsymbol, hplain⟩ := isSymbolChar_of_isDecimalChar hc
    rw [cons_append, numberWord_cons hsymbol hplain, Bool.true_and, show (c.isDigit || c == '.') = true from hc,
      ih fun d hd => hw d (by simp [hd]), cons_append]

theorem numberWord_of_isNumberWord (hw : w.isNumberWord = true) : numberWord true w = w := by
  rw [isNumberWord, Bool.and_eq_true] at hw
  rcases Bool.or_eq_true_iff.1 hw.2 with h | h
  · exact numberWord_of_isSymbolChar true h
  -- the digits and points, and then the signed exponent
  have hsplit : w.takeWhile isDecimalChar ++ w.dropWhile isDecimalChar = w := takeWhile_append_dropWhile
  unfold hasSignedExponent at h
  split at h
  · next sign d exponent hrest =>
    rw [Bool.and_eq_true, Bool.and_eq_true] at h
    have hall : (d :: exponent).all isSymbolChar = true := by
      rw [all_cons, h.2, isSymbolChar_of_isDigit h.1.2]
      rfl
    have hsigned : signedNext (sign :: d :: exponent) = true := by simp [signedNext, h.1]
    rw [hrest] at hsplit
    rw [← hsplit, numberWord_mantissa fun c hc => mem_takeWhile_imp hc, numberWord_signed (by decide) (by decide) hsigned,
      numberWord_of_isSymbolChar false hall]
  · cases h

theorem lexes_name (hw : w.isSymbolWord = true) : Lexes (.ofName w) w [] := by
  simp only [isSymbolWord, Bool.and_eq_true, Bool.not_eq_true', beq_iff_eq] at hw
  obtain ⟨⟨⟨hne, hall⟩, hupper⟩, hbegins⟩ := hw
  have hname : Lexes (.ofName (upper w)) w [] := .name (by simpa using hne) hall hbegins (by simp)
  rwa [hupper] at hname

theorem isSymbolWord_spelling (k : Keyword) : k.spelling.isSymbolWord = true := by
  cases k <;> decide

theorem ofName_spelling (k : Keyword) : ofName k.spelling = .keyword k := by
  cases k <;> decide

theorem lexes_written {k : TokenKind} (hk : k.isWritable = true) (hr : Stops r) : Lexes k k.written r := by
  refine Lexes.alone (r := []) ?_ hr
  cases k with
  | endOfClause => cases hk
  | endOfSource => cases hk
  | symbol name =>
    rw [isWritable, Bool.and_eq_true, Option.isNone_iff_eq_none] at hk
    have hlexes := lexes_name hk.1
    rwa [ofName, hk.2] at hlexes
  | keyword k =>
    have hlexes := lexes_name (isSymbolWord_spelling k)
    rwa [ofName_spelling] at hlexes
  | number text =>
    have hword := hk
    simp only [isWritable, isNumberWord, Bool.and_eq_true, beq_iff_eq] at hword
    have hlexes : Lexes (.number (upper text)) text [] :=
      .number hword.1.1 (by rw [append_nil]; exact numberWord_of_isNumberWord hk)
    rwa [hword.1.2] at hlexes
  | literal quote body =>
    simp only [isWritable, Bool.and_eq_true, bne_iff_ne] at hk
    exact .literal hk.1 (by simpa using hk.2) (by simp)
  | mark m => cases m <;> exact .mark rfl rfl rfl

namespace State

/-! ## Reading lexemes -/

variable {s : State}

theorem reaches_lexeme {l : Lexeme} (hl : l.kind.isWritable = true) (hs : s.rest = l.text ++ r) (hr : Stops r)
    (hblank : s.blank = false) :
    ∃ s' t, Reaches s s' ∧ s'.rest = r ∧ s'.blank = false ∧ s'.heredoc = s.heredoc ∧ s'.tokens = t :: s.tokens ∧
      t.lexeme = l ∧ (l.blank = false → t.pos = s.pos) := by
  -- the state after the blank, if there is one
  obtain ⟨s1, hreach, hs1, hb1, hh1, ht1, hp1⟩ : ∃ s1, Reaches s s1 ∧ s1.rest = l.kind.written ++ r ∧ s1.blank = l.blank ∧
      s1.heredoc = s.heredoc ∧ s1.tokens = s.tokens ∧ (l.blank = false → s1.pos = s.pos) := by
    cases hlb : l.blank with
    | false =>
      rw [Lexeme.text, hlb] at hs
      exact ⟨s, .refl, hs, hblank, rfl, rfl, fun _ => rfl⟩
    | true =>
      rw [Lexeme.text, hlb] at hs
      exact ⟨_, .single (.blank hs (.inl rfl)), rfl, by simp [skip], rfl, rfl, fun h => by cases h⟩
  refine ⟨_, ⟨l.kind, l.kind.written, s1.pos, s1.blank⟩, .tail hreach (.token hs1 (lexes_written hl hr)), emit_rest hs1, rfl,
    hh1, by simp [emit, ht1], ?_, hp1⟩
  rw [Token.lexeme, hb1]

theorem stops_text {l : Lexeme} {ls : List Lexeme} (h : (l :: ls).IsChain Lexeme.Follows) :
    Stops (ls.flatMap Lexeme.text) := by
  intro c hc
  cases ls with
  | nil => cases hc
  | cons next ls =>
    cases hb : next.blank with
    | true =>
      obtain rfl : ' ' = c := by simpa [Lexeme.text, hb] using hc
      rfl
    | false =>
      rcases (List.isChain_cons_cons.1 h).1 with hblank | ⟨hparen, -⟩
      · rw [hb] at hblank
        cases hblank
      · obtain rfl : '(' = c := by simpa [Lexeme.text, hb, hparen, TokenKind.written, Mark.spelling] using hc
        rfl

theorem reaches_text {ls : List Lexeme} (hls : ∀ l ∈ ls, l.kind.isWritable = true) (hfollows : ls.IsChain Lexeme.Follows)
    (hs : s.rest = ls.flatMap Lexeme.text) (hblank : s.blank = false) :
    ∃ (s' : State) (ts : List Token), Reaches s s' ∧ s'.rest = [] ∧ s'.heredoc = s.heredoc ∧
      s'.tokens = ts.reverse ++ s.tokens ∧ ts.map Token.lexeme = ls := by
  induction ls generalizing s with
  | nil => exact ⟨s, [], .refl, hs, rfl, rfl, rfl⟩
  | cons l ls ih =>
    obtain ⟨s1, t, hreach1, hs1, hb1, hh1, ht1, hlex1, -⟩ := reaches_lexeme (hls l (by simp)) hs (stops_text hfollows) hblank
    obtain ⟨s2, ts, hreach2, hs2, hh2, ht2, hlex2⟩ :=
      ih (fun m hm => hls m (by simp [hm])) (List.IsChain.tail hfollows) hs1 hb1
    refine ⟨s2, t :: ts, hreach1.trans hreach2, hs2, hh2.trans hh1, ?_, by rw [List.map_cons, hlex1, hlex2]⟩
    rw [ht2, ht1, List.reverse_cons, List.append_assoc]
    rfl

end State

end Lexer

theorem Token.lex_text {l : Lexeme} {ls : List Lexeme} (hl : l.kind.isWritable = true) (hb : l.blank = false)
    (hls : Lexeme.WellSpaced ls) :
    ∃ t ts eoc eos, Token.lex ((l :: ls).flatMap Lexeme.text) = .ok (t :: (ts ++ [eoc, eos])) ∧ t.lexeme = l ∧
      t.pos = .start ∧ ts.map Token.lexeme = ls ∧ eoc.kind = .endOfClause ∧ eos.kind = .endOfSource := by
  have hfollows : (l :: ls).IsChain Lexeme.Follows :=
    isChain_cons.2 ⟨fun next hnext => .inl (hls.blankFirst next hnext), hls.follows⟩
  obtain ⟨s1, t, hreach1, hs1, hb1, hh1, ht1, hlex1, hpos1⟩ :=
    Lexer.State.reaches_lexeme (s := .init ((l :: ls).flatMap Lexeme.text)) hl rfl (Lexer.State.stops_text hfollows) rfl
  obtain ⟨s2, ts, hreach2, hs2, hh2, ht2, hlex2⟩ := Lexer.State.reaches_text hls.writable hls.follows hs1 hb1
  have htokens : s2.tokens = ts.reverse ++ [t] := by
    rw [ht2, ht1]
    rfl
  refine ⟨t, ts, ⟨.endOfClause, [], s2.pos, s2.blank⟩, ⟨.endOfSource, [], s2.pos, false⟩,
    Token.lex_eq_ok_iff.2 ⟨s2, hreach1.trans hreach2, hs2, hh2.trans hh1, ?_⟩,
    hlex1, hpos1 hb, hlex2, rfl, rfl⟩
  simp [htokens]

end Rexx
