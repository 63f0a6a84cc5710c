import Rexx.Proofs.Token.Exchange

/-!
# `Token.Heredoc` — literals of lines

After two less-than signs and a label at the end of a line, the lines that follow are one literal, up to the label on
a line of its own, which may have blanks and tabs around it.
-/

namespace Rexx

open List Position Token

/-- The token further down by a number of lines. -/
def Token.lowered (n : Nat) (t : Token) : Token := { t with pos := ⟨t.pos.line + n, t.pos.column⟩ }

namespace Lexer

/-- The label with blanks and tabs around it. -/
def Padded (label line : Text) : Prop :=
  ∃ x y, line = x ++ label ++ y ∧ ∀ c ∈ x ++ y, c = ' ' ∨ c = '\t'

structure BodyLine (label line : Text) : Prop where
  oneLine : '\n' ∉ line
  noReturn : line.getLast? ≠ some '\r'
  notPadded : ¬Padded label line

variable {label line text r : Text} {lines raws : List Text}

/-! ## Lines -/

theorem trimmed_split (line : Text) : Padded (trimmed line) line := by
  refine ⟨line.takeWhile fun c => c == ' ' || c == '\t',
    ((line.dropWhile fun c => c == ' ' || c == '\t').reverse.takeWhile fun c => c == ' ' || c == '\t').reverse, ?_, ?_⟩
  · rw [trimmed, append_assoc, ← reverse_append, takeWhile_append_dropWhile, reverse_reverse,
      takeWhile_append_dropWhile]
  · intro c hc
    rcases mem_append.1 hc with hc | hc
    · simpa using mem_takeWhile_imp hc
    · simpa using mem_takeWhile_imp (mem_reverse.1 hc)

theorem Padded.trimmed_eq (h : Padded label line) (hlabel : isLabel label = true) : trimmed line = label := by
  obtain ⟨x, y, rfl, hpad⟩ := h
  have hblank : ∀ {z : Text}, (∀ c ∈ z, c ∈ x ++ y) → ∀ c ∈ z, (c == ' ' || c == '\t') = true := fun hz c hc => by
    simpa using hpad c (hz c hc)
  have hkeep : ∀ {l z : Text}, l ≠ [] → (∀ c ∈ l, c ∈ label) → (l ++ z).dropWhile (fun c => c == ' ' || c == '\t') = l ++ z := by
    intro l z hne hl
    cases l with
    | nil => exact absurd rfl hne
    | cons c l =>
      have hc : ∀ d, isLabelChar d = false → c ≠ d := by
        rintro d hd rfl
        exact not_mem_label hlabel hd (hl c mem_cons_self)
      refine dropWhile_cons_of_neg ?_
      simp [hc ' ' (by decide), hc '\t' (by decide)]
  have hne : label ≠ [] := by
    rintro rfl
    cases hlabel
  have hend : label.reverse.dropWhile (fun c => c == ' ' || c == '\t') = label.reverse := by
    simpa using hkeep (l := label.reverse) (z := []) (by simpa using hne) (by simp)
  unfold trimmed
  dsimp only
  rw [append_assoc, dropWhile_append_of_pos (hblank (by simp +contextual)), hkeep hne (by simp),
    reverse_append, dropWhile_append_of_pos (hblank (by simp +contextual)), hend, reverse_reverse]

theorem closes_iff (hlabel : isLabel label = true) (hreturn : line.getLast? ≠ some '\r') :
    Closes label line ↔ Padded label line := by
  rw [Closes, withoutReturn, if_neg hreturn]
  refine ⟨?_, fun h => h.trimmed_eq hlabel⟩
  rintro rfl
  exact trimmed_split line

theorem Padded.not_mem (h : Padded label line) (hlabel : isLabel label = true) {d : Char} (hd : isLabelChar d = false)
    (hpad : d ≠ ' ' ∧ d ≠ '\t') : d ∉ line := by
  obtain ⟨x, y, rfl, hxy⟩ := h
  intro hmem
  rcases mem_append.1 hmem with hmem | hmem
  · rcases mem_append.1 hmem with hmem | hmem
    · exact (hxy d (by simp [hmem])).elim hpad.1 hpad.2
    · exact not_mem_label hlabel hd hmem
  · exact (hxy d (by simp [hmem])).elim hpad.1 hpad.2

theorem Padded.closes (h : Padded label line) (hlabel : isLabel label = true) : '\n' ∉ line ∧ Closes label line := by
  refine ⟨h.not_mem hlabel (by decide) (by decide), (closes_iff hlabel fun hlast => ?_).2 h⟩
  exact h.not_mem hlabel (d := '\r') (by decide) (by decide) (mem_of_getLast? hlast)

theorem BodyLine.not_closes (h : BodyLine label line) (hlabel : isLabel label = true) : '\n' ∉ line ∧ ¬Closes label line :=
  ⟨h.oneLine, (closes_iff hlabel h.noReturn).not.2 h.notPadded⟩

theorem map_withoutReturn (h : ∀ l ∈ lines, l.getLast? ≠ some '\r') : lines.map withoutReturn = lines := by
  conv_rhs => rw [← map_id lines]
  exact map_congr_left fun l hl => if_neg (h l hl)

theorem collects_append {closing : Text} (hlines : ∀ l ∈ lines, '\n' ∉ l ∧ ¬Closes label l) (h : Collects label closing raws r) :
    Collects label (lines.flatMap (· ++ ['\n']) ++ closing) (lines ++ raws) r := by
  induction lines with
  | nil => exact h
  | cons line lines ih =>
    obtain ⟨hline, hlines⟩ := forall_mem_cons.1 hlines
    rw [flatMap_cons, append_assoc, append_assoc]
    exact .line hline.1 hline.2 (ih hlines)

theorem not_collects (hlines : ∀ l ∈ lines, '\n' ∉ l ∧ ¬Closes label l) (hlast : '\n' ∉ line ∧ ¬Closes label line) :
    heredocLines label (lines.flatMap (· ++ ['\n']) ++ line) = none := by
  induction lines with
  | nil => exact (heredocLines_of_not_mem hlast.1).trans (if_neg (by simpa [Closes] using hlast.2))
  | cons l lines ih =>
    obtain ⟨hline, hlines⟩ := forall_mem_cons.1 hlines
    rw [flatMap_cons, append_assoc, append_assoc, singleton_append, heredocLines_line hline.1,
      if_neg (by simpa [Closes] using hline.2), ih hlines]
    rfl

/-! ## The literal -/

namespace State

variable {s t : State}

theorem reaches_heredoc (hs : s.rest = "<<" ++ (label ++ '\n' :: text)) (hlabel : isLabel label = true)
    (h : Collects label text raws r) (hpipe : pipeNext r = false) :
    s.Reaches ⟨r, s.pos.down (raws.length + 2), false,
      ⟨.endOfClause, "\n", s.pos.right (label.length + 2), false⟩ ::
      ⟨.literal .heredoc (['\n'].intercalate (raws.map withoutReturn)),
        "<<" ++ label ++ '\n' :: ['\n'].intercalate (raws.map withoutReturn) ++ '\n' :: label, s.pos, s.blank⟩ :: s.tokens,
      none⟩ := by
  have hannounce : s.Reads (s.announce label) := .announce hs (heredocLabel?_eq_some_iff.2 ⟨_, rfl, hlabel, rfl⟩)
  have hrest : (s.announce label).rest = '\n' :: text := by
    rw [announce, emit_rest (hs.trans (append_assoc ..).symm)]
  have hline := Reads.line hrest (collect_of_collects rfl rfl h)
  refine .tail (.single hannounce) ?_
  convert hline using 1
  unfold ended
  rw [if_neg (by simp [complete, isMark]), if_neg (by simpa [complete] using hpipe)]
  have hdown : ((s.announce label).pos.down 1).down (raws.length + 1) = s.pos.down (raws.length + 2) := by
    simp [announce, emit, down, right, Nat.add_comm, Nat.add_left_comm]
  simp only [complete, hdown]
  rfl

theorem step_unterminated {pos : Position} {u : Token} {us : List Token} (hs : s.rest = '\n' :: text)
    (hh : s.heredoc = some (label, pos)) (ht : s.tokens = u :: us) (h : heredocLines label text = none) :
    s.step = .error ⟨.unterminatedHeredoc label, pos⟩ := by
  obtain ⟨rest, place, blank, tokens, heredoc⟩ := s
  cases hs
  cases hh
  cases ht
  show newline _ text = _
  rw [newline_eq]
  simp only [collect, h]
  rfl

theorem reaches_target (text : Text) : (init ("x = " ++ text)).Reaches
      ⟨text, ⟨1, 5⟩, true, [⟨.mark .equal, "=", ⟨1, 3⟩, true⟩, ⟨.symbol "X", "x", ⟨1, 1⟩, false⟩], none⟩ := by
  have hx : (init ("x = " ++ text)).Reads _ := .token (k := .symbol "X") (w := "x") (r := " = " ++ text) rfl ?_
  · refine .head hx (.head (.blank rfl (.inl rfl)) ?_)
    refine .head (.token (k := .mark .equal) (w := "=") (r := ' ' :: text) rfl ?_) (.head (.blank rfl (.inl rfl)) .refl)
    exact .mark (m := .equal) rfl rfl rfl
  · exact .name (w := "x") (by decide) (by decide) (by decide) (by simp [isSymbolChar])

theorem reaches_announcement (hlabel : isLabel label = true) (htext : trails text = true) :
    ∃ s u us, (init ("x = <<" ++ label ++ text)).Reaches s ∧ s.rest = text ∧ s.heredoc = some (label, ⟨1, 5⟩) ∧
      s.tokens = u :: us := by
  have hlabel? := heredocLabel?_eq_some_iff.2 ⟨text, rfl, hlabel, htext⟩
  refine ⟨_, _, _, .tail (reaches_target ("<<" ++ (label ++ text))) (.announce rfl hlabel?), ?_, rfl, rfl⟩
  rw [announce, emit_rest (append_assoc ..).symm]

end State
end Lexer

open Lexer

theorem Token.lex_of_atLine {src : Text} {ts : List Token} {s : State} {n : Nat} (h : (State.init src).Reaches s)
    (hs : s.AtLine) (hpos : s.pos = ⟨1 + n, 1⟩) (hrest : lex s.rest = .ok ts) :
    lex src = .ok (s.tokens.reverse ++ ts.map (lowered n)) := by
  obtain ⟨t, hreach, hnil, hnone, rfl⟩ := lex_eq_ok_iff.1 hrest
  have hR : Carried fun p p' => p' = ⟨p.line + n, p.column⟩ := by
    constructor <;> rintro p p' k rfl
    · rfl
    · simp [down]
      omega
  have hb := hs.beside (x := s.rest) (r := []) (R := fun p p' => p' = ⟨p.line + n, p.column⟩) (by simp) hpos
  obtain ⟨t', hreach', ht⟩ := hb.reaches hR ⟨by simp [Stops], id, fun _ _ _ => rfl, fun _ _ => rfl, fun _ => id⟩ hreach hnil
  obtain ⟨us, hus, halike⟩ := ht.tokens
  obtain rfl : t.tokens.map (lowered n) = us := by
    rw [← forall₂_eq_eq_eq, forall₂_map_left_iff]
    refine halike.imp fun u u' hu => ?_
    rw [lowered, ← hu.kind, ← hu.raw, ← hu.blank, ← hu.pos]
  refine lex_eq_ok_iff.2 ⟨t', h.trans hreach', ht.rest', by simpa [hnone] using ht.heredoc, ?_⟩
  rw [hus, ht.blank, ht.pos]
  simp [lowered]

theorem Token.lex_eq_error {src : Text} {s : State} {e : SyntaxError} (h : (State.init src).Reaches s)
    (hne : s.rest ≠ []) (hstep : s.step = .error e) : lex src = .error e := by
  obtain ⟨m, hm, hrun⟩ := h.run (Nat.le_refl src.length)
  obtain ⟨m, rfl⟩ : ∃ k, m = k + 1 := ⟨m - 1, by have := length_pos_iff.2 hne; omega⟩
  have hempty : s.rest.isEmpty = false := by simpa using hne
  rw [lex, hrun, State.run, hempty, hstep]
  rfl

/-- **A literal of lines is verbatim and ends itself.** It holds the lines before its label as they are, and the text after it
is read as if it stood alone, further down. Without the label the literal is an error at the place of its announcement. -/
theorem Token.lex_heredoc {label : Text} {lines : List Text} (hlabel : isLabel label = true)
    (hlines : ∀ line ∈ lines, BodyLine label line) :
    (∀ closing rest ts, Padded label closing → Token.lex rest = .ok ts → pipeNext rest = false →
      Token.lex ("x = <<" ++ label ++ '\n' :: lines.flatMap (· ++ ['\n']) ++ closing ++ '\n' :: rest) = .ok (
        ⟨.symbol "X", "x", ⟨1, 1⟩, false⟩ :: ⟨.mark .equal, "=", ⟨1, 3⟩, true⟩ ::
        ⟨.literal .heredoc (['\n'].intercalate lines), "<<" ++ label ++ '\n' :: ['\n'].intercalate lines ++ '\n' :: label,
          ⟨1, 5⟩, true⟩ ::
        ⟨.endOfClause, "\n", ⟨1, label.length + 7⟩, false⟩ :: ts.map (Token.lowered (lines.length + 2)))) ∧
    (∀ last, BodyLine label last →
      Token.lex ("x = <<" ++ label ++ '\n' :: lines.flatMap (· ++ ['\n']) ++ last) =
        .error ⟨.unterminatedHeredoc label, ⟨1, 5⟩⟩) ∧
    Token.lex ("x = <<" ++ label) = .error ⟨.unterminatedHeredoc label, ⟨1, 5⟩⟩ := by
  have hnot : ∀ line ∈ lines, '\n' ∉ line ∧ ¬Closes label line := fun line h => (hlines line h).not_closes hlabel
  refine ⟨fun closing rest ts hclosing hrest hpipe => ?_, fun last hlast => ?_, ?_⟩
  · obtain ⟨hline, hcloses⟩ := hclosing.closes hlabel
    have hcollects := collects_append hnot (.closed hline hcloses (r := rest))
    have hcolumn : 5 + (label.length + 2) = label.length + 7 := by omega
    have h := (State.reaches_target _).trans (State.reaches_heredoc rfl hlabel hcollects hpipe)
    have hlex := Token.lex_of_atLine (n := lines.length + 2) h ⟨rfl, rfl, rfl⟩ (by simp [Position.down]) hrest
    rw [List.append_nil, map_withoutReturn fun line hmem => (hlines line hmem).noReturn] at hlex
    simpa [Position.right, hcolumn] using hlex
  · obtain ⟨s, u, us, hreach, hs, hheredoc, htokens⟩ := State.reaches_announcement hlabel
      (show trails ('\n' :: (lines.flatMap (· ++ ['\n']) ++ last)) = true from rfl)
    have hstep := State.step_unterminated hs hheredoc htokens (not_collects hnot (hlast.not_closes hlabel))
    rw [List.append_assoc, List.cons_append]
    exact Token.lex_eq_error hreach (by simp [hs]) hstep
  · obtain ⟨s, u, us, hreach, hs, hheredoc, htokens⟩ := State.reaches_announcement hlabel (show trails [] = true from rfl)
    rw [List.append_nil] at hreach
    rw [Token.lex_of_reaches hreach hs, State.finish, hheredoc]

theorem Token.lex_heredoc_verbatim :
    (∀ line ∈ [(" L b" : Text), []], BodyLine "L" line) ∧
    Token.lex "x = <<L\n L b\n\n\tL \nnop" = .ok
      [⟨.symbol "X", "x", ⟨1, 1⟩, false⟩, ⟨.mark .equal, "=", ⟨1, 3⟩, true⟩,
        ⟨.literal .heredoc " L b\n", "<<L\n L b\n\nL", ⟨1, 5⟩, true⟩, ⟨.endOfClause, "\n", ⟨1, 8⟩, false⟩,
        ⟨.keyword .nop, "nop", ⟨5, 1⟩, false⟩, ⟨.endOfClause, [], ⟨5, 4⟩, false⟩, ⟨.endOfSource, [], ⟨5, 4⟩, false⟩] ∧
    Token.lex "x = <<L\n L b\n\n" = .error ⟨.unterminatedHeredoc "L", ⟨1, 5⟩⟩ := by
  have hempty : BodyLine "L" [] := ⟨by decide, by decide, fun h => absurd (h.trimmed_eq (by decide)) (by decide)⟩
  have hlines : ∀ line ∈ [(" L b" : Text), []], BodyLine "L" line :=
    List.forall_mem_cons.2 ⟨⟨by decide, by decide, fun h => absurd (h.trimmed_eq (by decide)) (by decide)⟩,
      List.forall_mem_singleton.2 hempty⟩
  obtain ⟨hclosed, hopen, -⟩ := Token.lex_heredoc (by decide) hlines
  exact ⟨hlines, hclosed "\tL " "nop" _ ⟨"\t", " ", rfl, by simp⟩ rfl rfl, hopen [] hempty⟩

end Rexx

/-! ## A token as it is written reads back -/

namespace Rexx

open Lexer

/-- **The text of the token gives the token again**, and after it at most ends of clauses and the end of the source. -/
def Token.ReadsBack (t : Token) : Prop :=
  ∃ ends pos, Token.lex t.raw = .ok (⟨t.kind, t.raw, .start, false⟩ :: (ends ++ [⟨.endOfSource, [], pos, false⟩])) ∧
    ∀ e ∈ ends, e.kind = .endOfClause

namespace Lexer

variable {k : TokenKind} {w x r src label : Text} {lines raws : List Text}

theorem Lexes.lex_eq (h : Lexes k w r) :
    Token.lex w = .ok [⟨k, w, .start, false⟩, ⟨.endOfClause, [], Position.start.right w.length, false⟩,
      ⟨.endOfSource, [], Position.start.right w.length, false⟩] := by
  have hread : (State.init w).Reads ((State.init w).emit k w) :=
    .token (List.append_nil w).symm (h.alone (show Stops [] by simp [Stops]))
  exact Token.lex_eq_ok_iff.2 ⟨_, .single hread, State.emit_rest (List.append_nil w).symm, rfl, rfl⟩

theorem Lexes.readsBack (h : Lexes k w r) (pos : Position) (blank : Bool) : Token.ReadsBack ⟨k, w, pos, blank⟩ :=
  ⟨[⟨.endOfClause, [], _, false⟩], _, h.lex_eq, by simp⟩

theorem Collects.of_mem (h : Collects label x raws r) : ∀ l ∈ raws, '\n' ∉ l ∧ ¬Closes label l ∧ l ⊆ x := by
  induction h with
  | atEnd | closed => simp
  | line hline hopen _ ih =>
    refine List.forall_mem_cons.2 ⟨⟨hline, hopen, List.subset_append_left _ _⟩, fun l hl => ?_⟩
    obtain ⟨hnewline, hcloses, hsub⟩ := ih l hl
    exact ⟨hnewline, hcloses, fun c hc => List.mem_append_right _ (List.mem_cons_of_mem _ (hsub hc))⟩

theorem intercalate_newline (hne : lines ≠ []) (x : Text) :
    ['\n'].intercalate lines ++ '\n' :: x = lines.flatMap (· ++ ['\n']) ++ x := by
  induction lines with
  | nil => exact absurd rfl hne
  | cons line lines ih =>
    cases lines with
    | nil => simp [List.intercalate]
    | cons line2 lines =>
      have hcons : ['\n'].intercalate (line :: line2 :: lines) = line ++ '\n' :: ['\n'].intercalate (line2 :: lines) := by
        simp
      rw [hcons, List.append_assoc, List.cons_append, ih (by simp)]
      simp

theorem readsBack_heredoc (hlabel : isLabel label = true) (hlines : ∀ l ∈ lines, '\n' ∉ l ∧ ¬Closes label l)
    (hreturn : ∀ l ∈ lines, l.getLast? ≠ some '\r') (pos : Position) (blank : Bool) :
    Token.ReadsBack ⟨.literal .heredoc (['\n'].intercalate lines),
      "<<" ++ label ++ '\n' :: ['\n'].intercalate lines ++ '\n' :: label, pos, blank⟩ := by
  wlog hne : lines ≠ []
  · obtain rfl : lines = [] := not_not.1 hne
    have hopen : ¬Closes label [] := fun h => by
      obtain rfl : label = [] := h.symm
      cases hlabel
    have hlines' : ∀ l ∈ [([] : Text)], '\n' ∉ l ∧ ¬Closes label l := by simpa using hopen
    exact this hlabel hlines' (by simp) pos blank (by simp)
  have hpadded : Padded label label := ⟨[], [], by simp, by simp⟩
  obtain ⟨hline, hcloses⟩ := hpadded.closes hlabel
  have hcollects := collects_append hlines (.atEnd hline hcloses)
  rw [← intercalate_newline hne, List.append_nil] at hcollects
  have hreach := State.reaches_heredoc (s := .init _) rfl hlabel hcollects rfl
  rw [map_withoutReturn hreturn] at hreach
  have hraw : "<<" ++ label ++ '\n' :: ['\n'].intercalate lines ++ '\n' :: label =
      "<<" ++ (label ++ '\n' :: (['\n'].intercalate lines ++ '\n' :: label)) := by simp
  have hlex := Token.lex_eq_ok_iff.2 ⟨_, hreach, rfl, rfl, rfl⟩
  rw [← hraw] at hlex
  exact ⟨[⟨.endOfClause, "\n", _, false⟩, ⟨.endOfClause, [], _, false⟩], _, hlex, by simp⟩

namespace State

variable {s s' : State}

def settled (s : State) : List Token := if s.heredoc.isSome then s.tokens.tail else s.tokens

theorem settled_of_none (h : s.heredoc = none) : s.settled = s.tokens := by simp [settled, h]

theorem readsBack_ended {e : State} (h : ∀ t ∈ e.tokens, t.kind ≠ .endOfClause → t.ReadsBack) (hnone : e.heredoc = none)
    (p : Position) : ∀ t ∈ (e.ended p).settled, t.kind ≠ .endOfClause → t.ReadsBack := by
  rw [settled_of_none (ended_heredoc.trans hnone), ended]
  split_ifs
  · exact fun t ht => h t (List.mem_of_mem_tail ht)
  · exact h
  · exact List.forall_mem_cons.2 ⟨fun hk => absurd rfl hk, h⟩

theorem Reads.readsBack (hs : s.Reads s') (ha : s.Announced) (hreturn : '\r' ∉ s.rest)
    (h : ∀ t ∈ s.settled, t.kind ≠ .endOfClause → t.ReadsBack) :
    ∀ t ∈ s'.settled, t.kind ≠ .endOfClause → t.ReadsBack := by
  cases hs with
  | blank | comment | remark => exact h
  | @token k w r hrest hw =>
    have hnone := ha.heredoc_eq_none (by rw [hrest]; exact hw.trails_eq_false)
    have hnone' : (s.emit k w).heredoc = none := hnone
    rw [settled_of_none hnone] at h
    rw [settled_of_none hnone']
    exact List.forall_mem_cons.2 ⟨fun _ => hw.readsBack s.pos s.blank, h⟩
  | announce hrest =>
    have hnone := ha.heredoc_eq_none (by rw [hrest]; rfl)
    rwa [settled_of_none hnone] at h
  | @line e r hrest he =>
    rcases ha.collect he with ⟨hnone, rfl⟩ | ⟨label, pos, blank, ts, raws, r', hh, hlabel, ht, hraws, rfl⟩
    · rw [settled_of_none hnone] at h
      exact readsBack_ended (e := { s with rest := r, pos := s.pos.down 1 }) h hnone s.pos
    · have h : ∀ t ∈ ts, t.kind ≠ .endOfClause → t.ReadsBack := by simpa [settled, hh, ht] using h
      refine readsBack_ended (List.forall_mem_cons.2 ⟨fun _ => ?_, h⟩) rfl s.pos
      have hlines := hraws.of_mem
      have hno : ∀ l ∈ raws, l.getLast? ≠ some '\r' := fun l hl hlast => by
        refine hreturn ?_
        rw [hrest]
        exact List.mem_cons_of_mem _ ((hlines l hl).2.2 (List.mem_of_getLast? hlast))
      have hback := readsBack_heredoc hlabel (fun l hl => ⟨(hlines l hl).1, (hlines l hl).2.1⟩) hno pos blank
      rwa [map_withoutReturn hno]

theorem Reaches.readsBack (h : (init src).Reaches s) (hreturn : '\r' ∉ src) :
    s.Announced ∧ ∀ t ∈ s.settled, t.kind ≠ .endOfClause → t.ReadsBack := by
  induction h with
  | refl => exact ⟨.of_none rfl, by simp [settled, init]⟩
  | tail hfirst hlast ih =>
    exact ⟨ih.1.reads hlast, hlast.readsBack ih.1 (fun hmem => hreturn (Reaches.suffix hfirst |>.subset hmem)) ih.2⟩

end State
end Lexer

/-- **A token as it is written reads back**, and every text without a newline can be written in quotes. -/
theorem Token.lex_raw :
    (∀ src ts, '\r' ∉ src → Token.lex src = .ok ts → ∀ t ∈ ts, t.kind ≠ .endOfClause → t.kind ≠ .endOfSource → t.ReadsBack) ∧
    ∀ quote body, quote ≠ .heredoc → '\n' ∉ body →
      ∃ (raw : Text) (pos : Position), raw = quote.char :: (Text.doubling quote.char body ++ [quote.char]) ∧
        Token.lex raw = .ok [⟨.literal quote body, raw, .start, false⟩, ⟨.endOfClause, [], pos, false⟩,
          ⟨.endOfSource, [], pos, false⟩] := by
  refine ⟨fun src ts hreturn hlex t ht hclause hsource => ?_, fun quote body hquote hline => ?_⟩
  · obtain ⟨s, hreach, -, hnone, rfl⟩ := Token.lex_eq_ok_iff.1 hlex
    have ht : t ∈ s.tokens := by
      rcases List.mem_append.1 ht with ht | ht
      · exact List.mem_reverse.1 ht
      · rcases List.mem_pair.1 ht with rfl | rfl
        · exact absurd rfl hclause
        · exact absurd rfl hsource
    refine (hreach.readsBack hreturn).2 t ?_ hclause
    rwa [State.settled_of_none hnone]
  · exact ⟨_, _, rfl, (Lexes.literal hquote hline (r := []) (by simp)).lex_eq⟩

theorem Token.lex_raw_mixed :
    (∃ ts, Token.lex "x = - -<<L\nL" = .ok ts ∧
      ts.map Token.raw = (["x", "=", "-", "-", "<<L\n\nL", "\n", [], []] : List Text) ∧
      ∀ t ∈ ts, t.kind ≠ .endOfClause → t.kind ≠ .endOfSource → t.ReadsBack) ∧
    ∃ (raw : Text) (pos : Position), raw = "'it''s'" ∧ Token.lex raw = .ok [⟨.literal .single "it's", raw, .start, false⟩,
      ⟨.endOfClause, [], pos, false⟩, ⟨.endOfSource, [], pos, false⟩] :=
  ⟨⟨_, rfl, rfl, Token.lex_raw.1 "x = - -<<L\nL" _ (by decide) rfl⟩, Token.lex_raw.2 .single "it's" (by decide) (by decide)⟩

end Rexx
