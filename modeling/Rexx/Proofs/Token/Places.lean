import Rexx.Proofs.Token.Reading

/-!
# `Token.Places` — where tokens stand in their source

The reader counts lines and columns as it goes: over blanks and tokens, through comments of several lines, at the ends
of lines, and over the lines of a literal.
-/

namespace Rexx

open Lexer List Position State Token

theorem Position.start_after (x : Text) :
    start.after x = ⟨1 + count '\n' x, 1 + (x.reverse.takeWhile (· != '\n')).length⟩ := by
  induction x using reverseRecOn with
  | nil => rfl
  | append_singleton x c ih =>
    rw [after_append, ih]
    show past _ c = _
    by_cases hc : c = '\n'
    · simp [past, hc, Nat.add_assoc]
    · simp [past, hc, Nat.add_comm]

namespace Token

def front (t : Token) : Text :=
  match t.kind with
  | .literal .heredoc _ => t.raw.takeWhile (· != '\n')
  | _ => t.raw

/-- **The token stands at the offset**: there the source goes on with it, and its line and column are those of the offset. -/
structure StandsAt (src : Text) (offset : Nat) (t : Token) : Prop where
  front : t.front <+: src.drop offset
  announced : ∀ body, t.kind = .literal .heredoc body → ∃ label, Lexer.isLabel label = true ∧ t.front = "<<" ++ label
  line : t.pos.line = 1 + List.count '\n' (src.take offset)
  column : t.pos.column = 1 + ((src.take offset).reverse.takeWhile (· != '\n')).length

theorem standsAt_of_pos {x y : Text} {t : Token} (hfront : t.front <+: y)
    (hannounced : ∀ body, t.kind = .literal .heredoc body → ∃ label, isLabel label = true ∧ t.front = "<<" ++ label)
    (hpos : t.pos = start.after x) : StandsAt (x ++ y) x.length t := by
  rw [start_after] at hpos
  exact ⟨by rwa [drop_left], hannounced, by rw [take_left, hpos], by rw [take_left, hpos]⟩

end Token

namespace Lexer

variable {k : TokenKind} {w r src : Text}

theorem not_mem_numberWord (plain : Bool) (x : Text) : '\n' ∉ numberWord plain x := by
  have hne : ∀ {c : Char}, isSymbolChar c = true → '\n' ≠ c := by
    rintro c hc rfl
    cases hc
  fun_induction numberWord plain x with
  | case1 | case2 => simp
  | case3 plain c hc he sign d x hsigned ih =>
    have hsign : '\n' ≠ sign := by
      rintro rfl
      cases hsigned
    simp_all
  | case4 plain c hc he sign d x hsigned ih | case5 plain c x hc he hx ih | case6 plain c x hc he ih => simp_all

theorem Lexes.not_mem_newline (h : Lexes k w r) : '\n' ∉ w := by
  cases h with
  | semicolon => decide
  | @literal quote body _ _ hline =>
    have hq : quote.char ≠ '\n' := by cases quote <;> decide
    have hbody : '\n' ∉ Text.doubling quote.char body := by
      intro hmem
      obtain ⟨c, hc, hmem⟩ := mem_flatMap.1 hmem
      split_ifs at hmem
      · simp [hq.symm] at hmem
      · exact hline (mem_singleton.1 hmem ▸ hc)
    simp [hq.symm, hbody]
  | number _ hend =>
    rw [← hend]
    exact not_mem_numberWord true _
  | name _ hall =>
    intro hmem
    cases all_eq_true.1 hall _ hmem
  | @mark m => cases m <;> decide

theorem Lexes.front (h : Lexes k w r) (p : Position) (b : Bool) :
    front ⟨k, w, p, b⟩ = w ∧ ∀ body, k ≠ .literal .heredoc body := by
  cases h with
  | @literal quote _ _ hquote => cases quote <;> simp_all [front]
  | name =>
    unfold TokenKind.ofName
    cases Keyword.ofText? (Text.upper w) <;> exact ⟨rfl, by simp⟩
  | _ => exact ⟨rfl, by simp⟩

theorem front_announcement {label : Text} (hlabel : isLabel label = true) (body z : Text) (p : Position) (b : Bool) :
    front ⟨.literal .heredoc body, "<<" ++ label ++ '\n' :: z, p, b⟩ = "<<" ++ label ∧
    front ⟨.literal .heredoc body, "<<" ++ label, p, b⟩ = "<<" ++ label := by
  have hall : ∀ c ∈ "<<".toList ++ label, (c != '\n') = true := by
    intro c hc
    refine bne_iff_ne.2 ?_
    rintro rfl
    exact not_mem_label hlabel (c := '\n') (by decide) (by simpa using hc)
  refine ⟨?_, takeWhile_eq_self_iff.2 hall⟩
  rw [front, takeWhile_append_of_pos hall]
  simp

namespace State

variable {s s' : State}

/-- **The reader knows where it is**: `read` has been read of the source, and the tokens stand at the offsets. -/
structure Tracked (src : Text) (s : State) (read : Text) (offsets : List Nat) : Prop where
  source : src = read ++ s.rest
  pos : s.rest ≠ [] → s.pos = Position.start.after read
  tokens : List.Forall₂ (Token.StandsAt src) offsets s.tokens
  ordered : offsets.Pairwise (· > ·)
  within : ∀ o ∈ offsets, o < read.length

variable {read : Text} {offsets : List Nat}

section

variable (h : s.Tracked src read offsets)
include h

theorem Tracked.skip {u : Text} (hu : u ≠ []) (hs : s.rest = u ++ r) {p : Position}
    (hp : p = s.pos.after u) (blank : Bool) : (s.skip r p blank).Tracked src (read ++ u) offsets where
  source := by rw [h.source, hs, append_assoc]; rfl
  pos := fun _ => by rw [after_append, ← h.pos (by simp [hs, hu])]; exact hp
  tokens := h.tokens
  ordered := h.ordered
  within := fun o ho => (h.within o ho).trans_le (by simp)

theorem Tracked.emit (hw : w ≠ []) (hs : s.rest = w ++ r) (hline : '\n' ∉ w) (hfront : front ⟨k, w, s.pos, s.blank⟩ = w)
    (hannounced : ∀ body, k = .literal .heredoc body → ∃ label, isLabel label = true ∧ w = "<<" ++ label) :
    (s.emit k w).Tracked src (read ++ w) (read.length :: offsets) where
  source := by rw [emit_rest hs, append_assoc, ← hs]; exact h.source
  pos := fun _ => by
    rw [after_append, ← h.pos (by simp [hs, hw]), after_of_not_mem hline]
    rfl
  tokens := by
    refine .cons ?_ h.tokens
    rw [h.source]
    refine standsAt_of_pos ?_ (by rwa [hfront]) (h.pos (by simp [hs, hw]))
    rw [hfront, hs]
    exact ⟨r, rfl⟩
  ordered := pairwise_cons.2 ⟨h.within, h.ordered⟩
  within := by
    have hpos := length_pos_iff.2 hw
    exact forall_mem_cons.2 ⟨by simpa using hpos, fun o ho => (h.within o ho).trans_le (by simp)⟩

theorem Tracked.ended {p : Position} {x y : Text} (hp : p = start.after x)
    (hsrc : src = x ++ '\n' :: y) (hx : ∀ o ∈ offsets, o < x.length) (hlt : x.length < read.length) :
    ∃ offsets, (s.ended p).Tracked src read offsets := by
  unfold State.ended
  split_ifs
  · refine ⟨offsets.tail, h.source, h.pos, ?_, h.ordered.tail, fun o ho => h.within o (mem_of_mem_tail ho)⟩
    simpa using forall₂_drop 1 h.tokens
  · exact ⟨offsets, h.source, h.pos, h.tokens, h.ordered, h.within⟩
  · refine ⟨x.length :: offsets, h.source, h.pos, .cons ?_ h.tokens, pairwise_cons.2 ⟨hx, h.ordered⟩,
      forall_mem_cons.2 ⟨hlt, h.within⟩⟩
    rw [hsrc]
    exact standsAt_of_pos ⟨y, rfl⟩ (by simp) hp

theorem Tracked.complete {label : Text} {pos : Position} {blank : Bool} {ts : List Token} {raws : List Text} {r' : Text}
    (hlabel : isLabel label = true)
    (ht : s.tokens = ⟨.literal .heredoc [], "<<" ++ label, pos, blank⟩ :: ts) (hraws : Collects label s.rest raws r') :
    ∃ u, (s.complete label ⟨.literal .heredoc [], "<<" ++ label, pos, blank⟩ ts raws r').Tracked src (read ++ u) offsets := by
  have htokens := h.tokens
  rw [ht] at htokens
  obtain ⟨u, hu, hpos⟩ : ∃ u, s.rest = u ++ r' ∧ (r' ≠ [] → s.pos.after u = s.pos.down (raws.length + 1)) := by
    by_cases hr : r' = []
    · exact ⟨s.rest, by simp [hr], fun h => absurd hr h⟩
    · obtain ⟨u, hu, hafter, -⟩ := hraws.split hr
      exact ⟨u ++ ['\n'], by simp [hu], fun _ => hafter s.pos⟩
  refine ⟨u, by rw [h.source, hu, append_assoc]; rfl, fun hr => ?_, ?_, h.ordered,
    fun o ho => (h.within o ho).trans_le (by simp)⟩
  · have hr : r' ≠ [] := hr
    rw [after_append, ← h.pos (by simp [hu, hr]), hpos hr]
    rfl
  · cases htokens with
    | cons hfirst hothers =>
      have hannounce := (front_announcement hlabel [] [] pos blank).2
      have hcomplete := fun body z => (front_announcement hlabel body z pos blank).1
      refine .cons ⟨?_, fun body hbody => ⟨label, hlabel, ?_⟩, hfirst.line, hfirst.column⟩ hothers
      · rw [append_assoc, cons_append, hcomplete, ← hannounce]
        exact hfirst.front
      · rw [append_assoc, cons_append, hcomplete]

theorem Tracked.reads (ha : s.Announced) (hs : s.Reads s') : ∃ read offsets, s'.Tracked src read offsets := by
  cases hs with
  | @blank c r hs hc =>
    have hline : '\n' ∉ [c] := by rcases hc with rfl | rfl | rfl <;> decide
    exact ⟨_, _, h.skip (cons_ne_nil c []) hs (after_of_not_mem hline).symm true⟩
  | @comment u r hs hu => exact ⟨_, _, h.skip (cons_ne_nil _ ('*' :: u)) hs rfl true⟩
  | @remark u r hs hu hr =>
    have hline : '\n' ∉ '-' :: '-' :: u := by simp [hu]
    exact ⟨_, _, h.skip (cons_ne_nil _ ('-' :: u)) hs (after_of_not_mem hline).symm false⟩
  | token hs hw =>
    obtain ⟨hfront, hkind⟩ := hw.front s.pos s.blank
    exact ⟨_, _, h.emit hw.ne_nil hs hw.not_mem_newline hfront fun body hk => absurd hk (hkind body)⟩
  | @announce label r hs hl =>
    obtain ⟨-, -, hlabel, -⟩ := heredocLabel?_eq_some_iff.1 hl
    have hline : '\n' ∉ "<<".toList ++ label := by simp [not_mem_label hlabel (c := '\n') (by decide)]
    have h := h.emit (k := .literal .heredoc []) (by simp) (hs.trans (append_assoc ..).symm) hline
      (front_announcement hlabel [] [] s.pos s.blank).2 fun body _ => ⟨label, hlabel, rfl⟩
    exact ⟨_, _, h.source, h.pos, h.tokens, h.ordered, h.within⟩
  | @line e r hs he =>
    have hline : Tracked src { s with rest := r, pos := s.pos.down 1 } (read ++ ['\n']) offsets := by
      have h := h.skip (cons_ne_nil '\n' []) hs (p := s.pos.down 1) rfl false
      exact ⟨h.source, h.pos, h.tokens, h.ordered, h.within⟩
    have hpos := h.pos (by simp [hs])
    have hsrc : src = read ++ '\n' :: r := hs ▸ h.source
    rcases ha.collect he with ⟨-, rfl⟩ | ⟨label, pos, blank, ts, raws, r', -, hlabel, ht, hraws, rfl⟩
    · exact ⟨_, hline.ended hpos hsrc h.within (by simp)⟩
    · obtain ⟨u, hu⟩ := hline.complete hlabel ht hraws
      exact ⟨_, hu.ended hpos hsrc h.within (by simp)⟩

end

theorem Reaches.tracked (h : (init src).Reaches s) : s.Announced ∧ ∃ read offsets, s.Tracked src read offsets := by
  induction h with
  | refl => exact ⟨.of_none rfl, [], [], rfl, fun _ => rfl, .nil, .nil, by simp⟩
  | tail _ hlast ih =>
    obtain ⟨ha, read, offsets, htracked⟩ := ih
    exact ⟨ha.reads hlast, htracked.reads ha hlast⟩

end State
end Lexer

/-- **The places of tokens are exact.** Every token before the end of the last clause and of the source stands at an offset
of the source, each further on than the one before. -/
theorem Token.places_exact {src : Text} {ts : List Token} (h : Token.lex src = .ok ts) :
    ∃ words offsets pos blank, ts = words ++ [⟨.endOfClause, [], pos, blank⟩, ⟨.endOfSource, [], pos, false⟩] ∧
      offsets.Pairwise (· < ·) ∧ List.Forall₂ (StandsAt src) offsets words := by
  obtain ⟨s, hreach, -, -, rfl⟩ := Token.lex_eq_ok_iff.1 h
  obtain ⟨-, read, offsets, htracked⟩ := hreach.tracked
  refine ⟨s.tokens.reverse, offsets.reverse, s.pos, s.blank, rfl, ?_, List.forall₂_reverse_iff.2 htracked.tokens⟩
  exact List.pairwise_reverse.2 htracked.ordered

theorem Token.places_exact_lines :
    ∃ ts, Token.lex "/*\n*/ x = <<L\na\nL\n |> f" = .ok ts ∧
      ts.map Token.pos = [⟨2, 4⟩, ⟨2, 6⟩, ⟨2, 8⟩, ⟨5, 2⟩, ⟨5, 5⟩, ⟨5, 6⟩, ⟨5, 6⟩] ∧
      ∃ words offsets pos blank, ts = words ++ [⟨.endOfClause, [], pos, blank⟩, ⟨.endOfSource, [], pos, false⟩] ∧
        offsets.Pairwise (· < ·) ∧ List.Forall₂ (StandsAt "/*\n*/ x = <<L\na\nL\n |> f") offsets words :=
  ⟨_, rfl, rfl, places_exact rfl⟩

/-! ## A text is read to its end -/

/-- The causes for which a text is refused before its tokens are looked at: something that is not closed, or a character
that begins no token. -/
def SyntaxCause.IsLexical : SyntaxCause → Prop
  | .unterminatedHeredoc _ | .unterminatedComment | .unterminatedString _ | .invalidCharacter _ => True
  | _ => False

namespace Lexer.State

variable {s s' : State} {c : Char} {x : Text} {e : SyntaxError}

def Within (s : State) : Prop := ∀ t ∈ s.tokens, t.kind ≠ .endOfSource

theorem ended_within {e : State} {p : Position} (h : e.Within) : (e.ended p).Within := by
  unfold ended
  split_ifs
  · exact fun t ht => h t (mem_of_mem_tail ht)
  · exact h
  · exact forall_mem_cons.2 ⟨by simp, h⟩

theorem Reads.within (h : s.Reads s') (hs : s.Within) : s'.Within := by
  cases h with
  | blank | comment | remark => exact hs
  | token _ hw => exact forall_mem_cons.2 ⟨hw.ne_endOfSource, hs⟩
  | announce => exact forall_mem_cons.2 ⟨by simp, hs⟩
  | line _ he =>
    apply ended_within
    rcases collect_cases he with ⟨rfl, -⟩ | ⟨label, pos, t, ts, raws, r, -, ht, -, rfl⟩
    · exact hs
    · refine forall_mem_cons.2 ⟨by simp, fun u hu => hs u ?_⟩
      exact (show s.tokens = t :: ts from ht) ▸ mem_cons_of_mem t hu

/-! ## Why a step fails -/

theorem collect_error (h : s.collect = .error e) : e.cause.IsLexical := by
  unfold collect at h
  split at h
  · split at h
    · cases h
      exact trivial
    · cases h
  · cases h

theorem newline_error {rest : Text} (h : s.newline rest = .error e) : e.cause.IsLexical := by
  unfold newline at h
  cases hended : collect { s with rest, pos := s.pos.down 1 } with
  | error e' =>
    rw [hended] at h
    cases h
    exact collect_error hended
  | ok ended =>
    rw [hended] at h
    simp only [bind, Except.bind, pure, Except.pure] at h
    split at h <;> split_ifs at h

theorem literal_error {quote : Quote} (h : s.literal c quote x = .error e) : e.cause.IsLexical := by
  unfold literal at h
  split at h
  · cases h
    exact trivial
  · cases h

theorem word_error (h : s.word c x = .error e) : e.cause.IsLexical := by
  unfold word at h
  split_ifs at h
  · simp only at h
    split at h <;> cases h
  · split at h
    · cases h
    · cases h
      exact trivial

theorem step_error (h : s.step = .error e) : e.cause.IsLexical := by
  unfold step at h
  split at h
  · cases h
  · exact newline_error h
  · split at h
    · cases h
    · cases h
      exact trivial
  · cases h
  · split_ifs at h
    · exact literal_error h
    · exact literal_error h
    · exact literal_error h
    · split at h
      · cases h
      · exact word_error h
    · exact word_error h

/-! ## A whole text -/

theorem run_progress {n : Nat} (h : run n s = .ok s') :
    s'.rest <:+ s.rest ∧ s'.rest.length ≤ s.rest.length - n ∧ (s.Within → s'.Within) := by
  obtain ⟨hreach, hle⟩ := reaches_of_run h
  refine ⟨hreach.suffix, hle, fun hs => ?_⟩
  clear h hle
  induction hreach with
  | refl => exact hs
  | tail _ hlast ih => exact hlast.within ih

theorem run_error {n : Nat} (h : run n s = .error e) : e.cause.IsLexical := by
  induction n generalizing s with
  | zero => cases h
  | succ n ih =>
    rw [run] at h
    split_ifs at h
    cases hstep : s.step with
    | error e' =>
      rw [hstep] at h
      cases h
      exact step_error hstep
    | ok s1 =>
      rw [hstep] at h
      exact ih h

theorem run_of_length_le {n m : Nat} (hn : s.rest.length ≤ n) (hm : s.rest.length ≤ m) : run n s = run m s := by
  induction n generalizing s m with
  | zero =>
    have hnil : s.rest = [] := length_eq_zero_iff.1 (Nat.le_zero.1 hn)
    rw [run_of_rest_nil hnil, run_of_rest_nil hnil]
  | succ n ih =>
    by_cases hnil : s.rest = []
    · rw [run_of_rest_nil hnil, run_of_rest_nil hnil]
    · obtain ⟨m, rfl⟩ : ∃ k, m = k + 1 := by
        have hpos := length_pos_iff.2 hnil
        exact ⟨m - 1, by omega⟩
      have hempty : s.rest.isEmpty = false := by simpa using hnil
      rw [run, run, hempty]
      cases hstep : s.step with
      | error e => rfl
      | ok s1 =>
        have hlt := (step_reads hnil hstep).length_lt
        exact ih (by omega) (by omega)

end Lexer.State

theorem Token.lex_cases (src : Text) : (∃ e, lex src = .error e ∧ e.cause.IsLexical) ∨
    ∃ body eoc eof, lex src = .ok (body ++ [eoc, eof]) ∧ eoc.kind = .endOfClause ∧ eof.kind = .endOfSource ∧
      ∀ t ∈ body, t.kind ≠ .endOfSource := by
  unfold lex
  cases hrun : (State.init src).run src.length with
  | error e => exact .inl ⟨e, rfl, State.run_error hrun⟩
  | ok s =>
    have hwithin : s.Within := by
      apply (State.run_progress hrun).2.2
      intro t ht
      cases ht
    cases hheredoc : s.heredoc with
    | some p =>
      refine .inl ⟨⟨.unterminatedHeredoc p.1, p.2⟩, ?_, trivial⟩
      show s.finish = _
      rw [State.finish, hheredoc]
    | none =>
      refine .inr ⟨s.tokens.reverse, ⟨.endOfClause, [], s.pos, s.blank⟩, ⟨.endOfSource, [], s.pos, false⟩, ?_, rfl, rfl, ?_⟩
      · show s.finish = _
        rw [State.finish, hheredoc]
        simp
      · intro t ht
        exact hwithin t (mem_reverse.1 ht)

end Rexx
