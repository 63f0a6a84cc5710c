import Rexx.Proofs.Token.Lexeme

/-!
# `Token.Lines` — reading a source text line by line

A line that is whole in itself gives the same lexemes wherever it stands: the reader never looks past the end of such
a line.
-/

namespace Rexx

open List Token

/-- The tokens of a line that is one clause by itself: it has words, none of them ends a clause, and it goes on neither from
the line before nor to the line after. -/
def Text.clauseTokens? (line : Text) : Option (List Token) :=
  match Token.lex line with
  | .error _ => none
  | .ok ts =>
    let words := ts.dropLast.dropLast
    if line.contains '\n' || Lexer.pipeNext line || words.isEmpty ||
        words.any (fun t => t.kind == .endOfClause || t.kind == .endOfSource) ||
        words.getLast?.any (·.isMark .comma) then none
    else some words

def Token.IsWord (t : Token) : Prop := t.kind ≠ .endOfClause ∧ t.kind ≠ .endOfSource

structure Text.IsClauseLine (line : Text) (words : List Token) : Prop where
  lex : ∃ eoc eos, Token.lex line = .ok (words ++ [eoc, eos]) ∧ eoc.kind = .endOfClause ∧ eos.kind = .endOfSource
  oneLine : '\n' ∉ line
  notPiped : Lexer.pipeNext line = false
  ne_nil : words ≠ []
  isWord : ∀ t ∈ words, t.IsWord
  noComma : ∀ t ∈ words.getLast?, t.isMark .comma = false

theorem Text.isClauseLine_of_clauseTokens? {line : Text} {words : List Token} (h : line.clauseTokens? = some words) :
    line.IsClauseLine words := by
  unfold Text.clauseTokens? at h
  cases hlex : Token.lex line with
  | error e =>
    rw [hlex] at h
    cases h
  | ok ts =>
    rw [hlex] at h
    obtain ⟨s, -, -, -, rfl⟩ := lex_eq_ok_iff.1 hlex
    have hwords : ∀ a b : Token, (s.tokens.reverse ++ [a, b]).dropLast.dropLast = s.tokens.reverse := by
      intro a b
      simp [dropLast_append_of_ne_nil]
    simp only [hwords] at h
    split at h
    · cases h
    · next hcond =>
      cases h
      simp only [Bool.or_eq_true, not_or, Bool.not_eq_true, contains_eq_mem, decide_eq_false_iff_not] at hcond
      obtain ⟨⟨⟨⟨hline, hpiped⟩, hne⟩, hends⟩, hcomma⟩ := hcond
      refine ⟨⟨_, _, hlex, rfl, rfl⟩, hline, hpiped, by simpa using hne, ?_, ?_⟩
      · intro t ht
        have hkind := any_eq_false.1 hends t ht
        simp only [Bool.or_eq_true, beq_iff_eq, not_or] at hkind
        exact hkind
      · intro t ht
        rw [Option.mem_def.1 ht] at hcomma
        simpa using hcomma

/-! ## A text of clause lines -/

def Spelled : List (List Token) → List Token → Prop
  | [], ts => ∃ eos, ts = [eos] ∧ eos.kind = .endOfSource
  | words :: lines, ts => ∃ ws eoc rest, ts = ws ++ eoc :: rest ∧ ws.map Token.lexeme = words.map Token.lexeme ∧
      eoc.kind = .endOfClause ∧ Spelled lines rest

namespace Lexer

variable {x r : Text}

theorem EndsLine.stops (hr : EndsLine r) : Stops r := fun c hc => by rw [hr c hc]; rfl

theorem EndsLine.pipeNext_append (hr : EndsLine r) (x : Text) : pipeNext (x ++ r) = pipeNext x := by
  rw [pipeNext_eq, pipeNext_eq, hr.looksPast_append (by decide) (fun d => rfl) fun c => by simp]

theorem EndsLine.exchanges (hr : EndsLine r) (hx : '\n' ∉ x) : Exchanges x [] r where
  stops := hr.stops
  line := fun _ => hr
  heredoc := fun y _ hy => heredocAt?_exchange hy (by simp) (fun c hc => by rw [hr c hc]; decide) fun _ z _ _ => by
    rw [append_nil, trails, hr.looksPast_append (by decide) (fun d => rfl) fun c => by simp]
  pipe := fun y hy => absurd (hy.subset mem_cons_self) hx
  ended := fun h => absurd h hx

namespace State

theorem map_lexeme_of_alike {R : Position → Position → Prop} {ts us : List Token} (h : Forall₂ (Alike R) ts us) :
    us.map lexeme = ts.map lexeme := by
  induction h with
  | nil => rfl
  | cons ht _ ih => rw [map_cons, map_cons, ih, lexeme, lexeme, ht.kind, ht.blank]

variable {line : Text} {s : State}

theorem reaches_line {words : List Token} (hline : line.IsClauseLine words) (hs : s.AtLine)
    (hr : EndsLine r) (hrest : s.rest = line ++ r) :
    ∃ (t : State) (ws : List Token), Reaches s t ∧ t.rest = r ∧ t.heredoc = none ∧ t.tokens = ws.reverse ++ s.tokens ∧
      ws.map lexeme = words.map lexeme := by
  obtain ⟨eoc, eos, hlex, -, -⟩ := hline.lex
  obtain ⟨t, hreach, hnil, hheredoc, htokens⟩ := lex_eq_ok_iff.1 hlex
  obtain rfl : words = t.tokens.reverse := (append_inj' htokens rfl).1
  have hb : Beside (fun _ _ => True) s.tokens line [] r (.init line) s := hs.beside hrest trivial
  obtain ⟨t', hreach', ht⟩ := hb.reaches ⟨fun _ _ => trivial, fun _ _ => trivial⟩ (hr.exchanges hline.oneLine) hreach hnil
  obtain ⟨ws, hws, halike⟩ := ht.tokens
  refine ⟨t', ws.reverse, hreach', ht.rest', by simpa [hheredoc] using ht.heredoc, by rw [reverse_reverse, hws], ?_⟩
  rw [map_reverse, map_reverse, map_lexeme_of_alike halike]

theorem reads_newline (hrest : s.rest = '\n' :: r) (hheredoc : s.heredoc = none)
    (hcomma : s.tokens.head?.any (·.isMark .comma) = false) (hpipe : pipeNext r = false) :
    ∃ (s' : State) (eoc : Token), s.Reads s' ∧ s'.rest = r ∧ s'.AtLine ∧ s'.tokens = eoc :: s.tokens ∧
      eoc.kind = .endOfClause := by
  refine ⟨_, ⟨.endOfClause, "\n", s.pos, s.blank⟩, .line (e := { s with rest := r, pos := s.pos.down 1 }) hrest ?_, ended_rest, ?_⟩
  · simp [collect, hheredoc]
  · rw [ended, if_neg (by simp [hcomma]), if_neg (by simp [hpipe])]
    exact ⟨⟨rfl, hheredoc, rfl⟩, rfl, rfl⟩

theorem intercalate_cons (line : Text) (lines : List Text) :
    ∃ r, EndsLine r ∧ ['\n'].intercalate (line :: lines) = line ++ r := by
  cases lines with
  | nil => exact ⟨[], by simp [EndsLine], by simp [intercalate]⟩
  | cons line2 lines =>
    exact ⟨'\n' :: ['\n'].intercalate (line2 :: lines), by simp [EndsLine], by simp⟩

theorem last_not_comma {words ws : List Token} (hline : line.IsClauseLine words)
    (hws : ws.map lexeme = words.map lexeme) (before : List Token) :
    (ws.reverse ++ before).head?.any (·.isMark .comma) = false := by
  have hne : ws ≠ [] := by
    rintro rfl
    exact hline.ne_nil (map_eq_nil_iff.1 hws.symm)
  have hlast := congrArg getLast? hws
  rw [getLast?_map, getLast?_map, getLast?_eq_getLast_of_ne_nil hne,
    getLast?_eq_getLast_of_ne_nil hline.ne_nil] at hlast
  rw [head?_append_of_ne_nil _ (by simpa using hne), head?_reverse, getLast?_eq_getLast_of_ne_nil hne,
    Option.any_some]
  have hkind : (ws.getLast hne).kind = (words.getLast hline.ne_nil).kind :=
    congrArg Lexeme.kind (Option.some.inj hlast)
  have hcomma := hline.noComma _ (getLast?_eq_getLast_of_ne_nil hline.ne_nil)
  rw [isMark] at hcomma ⊢
  rwa [hkind]

theorem reaches_lines {lines : List Text} {wordss : List (List Token)} (h : Forall₂ Text.IsClauseLine lines wordss)
    (hne : lines ≠ []) (hs : s.AtLine) (hrest : s.rest = ['\n'].intercalate lines) :
    ∃ t ts, Reaches s t ∧ t.rest = [] ∧ t.heredoc = none ∧ Spelled wordss ts ∧
      t.tokens.reverse ++ [⟨.endOfClause, [], t.pos, t.blank⟩, ⟨.endOfSource, [], t.pos, false⟩] = s.tokens.reverse ++ ts := by
  induction h generalizing s with
  | nil => exact absurd rfl hne
  | @cons line words lines wordss hline hlines ih =>
    cases hlines with
    | nil =>
      obtain ⟨t, ws, hreach, hend, hheredoc, htokens, hws⟩ :=
        reaches_line hline hs (r := []) (by simp [EndsLine]) (by simpa using hrest)
      refine ⟨t, ws ++ [⟨.endOfClause, [], t.pos, t.blank⟩, ⟨.endOfSource, [], t.pos, false⟩], hreach, hend, hheredoc,
        ⟨ws, _, _, rfl, hws, rfl, _, rfl, rfl⟩, ?_⟩
      simp [htokens]
    | @cons line2 words2 lines wordss hline2 hlines =>
      have hsplit : s.rest = line ++ '\n' :: ['\n'].intercalate (line2 :: lines) := by
        rw [hrest]
        simp
      obtain ⟨t, ws, hreach, hend, hheredoc, htokens, hws⟩ := reaches_line hline hs (by simp [EndsLine]) hsplit
      have hpipe : pipeNext (['\n'].intercalate (line2 :: lines)) = false := by
        obtain ⟨r, hr, hcons⟩ := intercalate_cons line2 lines
        rw [hcons, hr.pipeNext_append, hline2.notPiped]
      obtain ⟨s2, eoc, hreads, hrest2, hs2, htokens2, heoc⟩ :=
        reads_newline hend hheredoc (by rw [htokens]; exact last_not_comma hline hws s.tokens) hpipe
      obtain ⟨u, ts, hreach2, hnil, hnone, hspelled, hfinish⟩ := ih (by simp) hs2 hrest2
      refine ⟨u, ws ++ eoc :: ts, (hreach.tail hreads).trans hreach2, hnil, hnone, ⟨ws, eoc, ts, rfl, hws, heoc, hspelled⟩, ?_⟩
      rw [hfinish, htokens2, htokens]
      simp

end State

end Lexer

theorem Token.lex_lines {lines : List Text} {wordss : List (List Token)}
    (h : Forall₂ Text.IsClauseLine lines wordss) (hne : lines ≠ []) :
    ∃ ts, lex (['\n'].intercalate lines) = .ok ts ∧ Spelled wordss ts := by
  obtain ⟨t, ts, hreach, hnil, hnone, hspelled, hts⟩ :=
    Lexer.State.reaches_lines h hne (s := .init (['\n'].intercalate lines)) ⟨rfl, rfl, rfl⟩ rfl
  exact ⟨ts, lex_eq_ok_iff.2 ⟨t, hreach, hnil, hnone, hts.symm⟩, hspelled⟩

end Rexx
