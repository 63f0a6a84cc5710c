import Rexx.Proofs.Grammar.Equality
import Rexx.Proofs.Grammar.Statement

/-!
# `Grammar.Layout` — statements written one clause a line

A `Printer` says how clauses, conditions and heads of loops are spelled.
-/

namespace Rexx

open List Stmt Text Token

/-! ## Statements without their places -/

namespace Stmt

mutual

/-- The statement with all positions forgotten. -/
def unplaced : Stmt → Stmt
  | .clause _ c => .clause .start c
  | .ifThen _ x thens elses => .ifThen .start x (unplacedList thens) (unplacedList elses)
  | .group _ body => .group .start (unplacedList body)
  | .loop _ control guard body => .loop .start control guard (unplacedList body)
  | .select _ whens none => .select .start (unplacedWhens whens) none
  | .select _ whens (some body) => .select .start (unplacedWhens whens) (some (unplacedList body))

def unplacedList : List Stmt → List Stmt
  | [] => []
  | s :: ss => unplaced s :: unplacedList ss

def unplacedWhens : List (Expr × List Stmt) → List (Expr × List Stmt)
  | [] => []
  | (x, body) :: whens => (x, unplacedList body) :: unplacedWhens whens

end

theorem unplacedList_eq_map (ss : List Stmt) : unplacedList ss = ss.map unplaced := by
  induction ss with
  | nil => rfl
  | cons s ss ih => rw [unplacedList, ih, map_cons]

variable {s : Stmt}

theorem unplaced_eq_clause {c : Clause} (h : s.unplaced = .clause .start c) : ∃ pos, s = .clause pos c := by
  cases s with
  | clause pos c' =>
    cases h
    exact ⟨pos, rfl⟩
  | select pos whens other => cases other <;> cases h
  | _ => cases h

theorem unplaced_eq_select {x : Expr} {pos pos' : Position} {whens : List (Expr × List Stmt)} {other : Option (List Stmt)}
    (h : (select pos whens other).unplaced = (select pos' [(x, [])] none).unplaced) :
    ∃ ws, whens = (x, []) :: ws ∧ other = none := by
  cases other with
  | some body => simp [unplaced] at h
  | none =>
    cases whens with
    | nil => cases h
    | cons w ws =>
      obtain ⟨y, body⟩ := w
      simp only [unplaced, unplacedWhens, select.injEq, true_and, and_true, cons.injEq, Prod.mk.injEq,
        unplacedList_eq_map, map_nil, map_eq_nil_iff] at h
      obtain ⟨⟨rfl, rfl⟩, -⟩ := h
      exact ⟨ws, rfl, rfl⟩

end Stmt

/-! ## Lines -/

structure Printer where
  clause : Clause → Text
  cond : Expr → Text
  head : Control → Option Guard → Text

namespace Printer

def ifLine (P : Printer) (x : Expr) : Text := "IF " ++ P.cond x ++ " THEN"

def whenLine (P : Printer) (x : Expr) : Text := "WHEN " ++ P.cond x ++ " THEN"

def loopLine (P : Printer) (control : Control) (guard : Option Guard) : Text := "DO " ++ P.head control guard

mutual

def lines (P : Printer) : Stmt → List Text
  | .clause _ c => [P.clause c]
  | .ifThen _ x thens [] => P.ifLine x :: (P.linesOf thens ++ [Keyword.endIf.spelling])
  | .ifThen _ x thens (s :: ss) =>
    P.ifLine x :: (P.linesOf thens ++ Keyword.«else».spelling :: (P.lines s ++ P.linesOf ss ++ [Keyword.endIf.spelling]))
  | .group _ body => Keyword.«do».spelling :: (P.linesOf body ++ [Keyword.«end».spelling])
  | .loop _ control guard body => P.loopLine control guard :: (P.linesOf body ++ [Keyword.«end».spelling])
  | .select _ whens none => Keyword.select.spelling :: (P.whenLines whens ++ [Keyword.«end».spelling])
  | .select _ whens (some body) =>
    Keyword.select.spelling :: (P.whenLines whens ++ Keyword.otherwise.spelling :: (P.linesOf body ++ [Keyword.«end».spelling]))

def linesOf (P : Printer) : List Stmt → List Text
  | [] => []
  | s :: ss => P.lines s ++ P.linesOf ss

def whenLines (P : Printer) : List (Expr × List Stmt) → List Text
  | [] => []
  | (x, body) :: whens => P.whenLine x :: (P.linesOf body ++ P.whenLines whens)

end

def source (P : Printer) (ss : List Stmt) : Text := ['\n'].intercalate (P.linesOf ss)

end Printer

def Text.Spells (src : Text) (ss : List Stmt) : Prop :=
  (Program.parse src []).toOption.map (fun p => p.body.map Stmt.unplaced) = some (ss.map Stmt.unplaced)

instance (src : Text) (ss : List Stmt) : Decidable (src.Spells ss) :=
  inferInstanceAs (Decidable (_ = _))

/-! ## The tokens of lines -/

namespace Grammar

variable {α : Type} {rest rest' l l' ts us : List Token} {t t' : Token}
  {line : Text} {words : List Token} {pos : Position} {x : Expr}

namespace Same

theorem symm (h : Same l l') : Same l' l := by
  refine ⟨h.lexemes.symm, ?_⟩
  intro u hu
  have hmem : u.lexeme ∈ l.map lexeme := by
    rw [h.lexemes]
    exact mem_map_of_mem hu
  obtain ⟨v, hv, hlexeme⟩ := mem_map.1 hmem
  have hw := h.isWord v hv
  unfold IsWord at hw ⊢
  rwa [← kind_eq_of_lexeme hlexeme]

theorem trans {l'' : List Token} (h : Same l l') (h' : Same l' l'') : Same l l'' := ⟨h.lexemes.trans h'.lexemes, h.isWord⟩

end Same

def Lays : List Text → List Token → Prop
  | [], ts => ts = []
  | line :: lines, ts => ∃ words ws eoc rest, ts = ws ++ eoc :: rest ∧ line.IsClauseLine words ∧ Same words ws ∧
      eoc.kind = .endOfClause ∧ Lays lines rest

namespace Lays

theorem append {lines lines' : List Text} (h : Lays (lines ++ lines') ts) :
    ∃ us vs, ts = us ++ vs ∧ Lays lines us ∧ Lays lines' vs := by
  induction lines generalizing ts with
  | nil => exact ⟨[], ts, rfl, rfl, h⟩
  | cons line lines ih =>
    obtain ⟨words, ws, eoc, rest, rfl, hline, hws, heoc, hrest⟩ := h
    obtain ⟨us, vs, rfl, hus, hvs⟩ := ih hrest
    exact ⟨ws ++ eoc :: us, vs, by simp, ⟨words, ws, eoc, us, rfl, hline, hws, heoc, hus⟩, hvs⟩

theorem cons {line : Text} {lines : List Text} (h : Lays (line :: lines) ts) :
    ∃ words t w eoc rest, ts = t :: w ++ eoc :: rest ∧ line.IsClauseLine words ∧ Same words (t :: w) ∧
      eoc.kind = .endOfClause ∧ Lays lines rest := by
  obtain ⟨words, ws, eoc, rest, rfl, hline, hws, heoc, hrest⟩ := h
  cases ws with
  | nil => exact absurd (length_eq_zero_iff.1 hws.length_eq) hline.ne_nil
  | cons t w => exact ⟨words, t, w, eoc, rest, rfl, hline, hws, heoc, hrest⟩

end Lays

theorem clauseTokens?_spelling (k : Keyword) : clauseTokens? k.spelling = some [⟨.keyword k, k.spelling, .start, false⟩] := by
  cases k <;> decide

theorem isClauseLine_unique {words' : List Token} (h : line.IsClauseLine words)
    (h' : line.IsClauseLine words') : words = words' := by
  obtain ⟨eoc, eos, hlex, -⟩ := h.lex
  obtain ⟨eoc', eos', hlex', -⟩ := h'.lex
  rw [hlex] at hlex'
  exact (append_inj' (Except.ok.inj hlex') rfl).1

theorem spelling_words {k : Keyword} (hline : k.spelling.IsClauseLine words) (h : Same words l) :
    ∃ t, l = [t] ∧ t.kind = .keyword k := by
  obtain rfl := isClauseLine_unique hline (isClauseLine_of_clauseTokens? (clauseTokens?_spelling k))
  obtain ⟨t, m, rfl, ht, -, hm⟩ := h.of_cons
  obtain rfl : m = [] := length_eq_zero_iff.1 hm.length_eq.symm
  exact ⟨t, rfl, (kind_eq_of_lexeme ht).symm⟩

theorem Lays.spelling {k : Keyword} {lines : List Text} (h : Lays (k.spelling :: lines) ts) :
    ∃ t eoc rest, ts = t :: eoc :: rest ∧ t.kind = .keyword k ∧ eoc.kind = .endOfClause ∧ Lays lines rest := by
  obtain ⟨words, ws, eoc, rest, rfl, hline, hws, heoc, hrest⟩ := h
  obtain ⟨t, rfl, ht⟩ := spelling_words hline hws
  exact ⟨t, eoc, rest, rfl, ht, heoc, hrest⟩

theorem lex_lays {lines : List Text} (h : ∀ line ∈ lines, (clauseTokens? line).isSome) (hne : lines ≠ []) :
    ∃ ts eos, Token.lex (['\n'].intercalate lines) = .ok (ts ++ [eos]) ∧ Lays lines ts ∧ eos.kind = .endOfSource := by
  have hlines : ∃ wordss, Forall₂ IsClauseLine lines wordss := by
    clear hne
    induction lines with
    | nil => exact ⟨[], .nil⟩
    | cons line lines ih =>
      obtain ⟨words, hwords⟩ := Option.isSome_iff_exists.1 (h line (by simp))
      obtain ⟨wordss, hwordss⟩ := ih fun line' hline' => h line' (by simp [hline'])
      exact ⟨words :: wordss, .cons (isClauseLine_of_clauseTokens? hwords) hwordss⟩
  obtain ⟨wordss, hwordss⟩ := hlines
  obtain ⟨ts, hlex, hspelled⟩ := lex_lines hwordss hne
  suffices hsplit : ∀ ts, Spelled wordss ts → ∃ us eos, ts = us ++ [eos] ∧ Lays lines us ∧ eos.kind = .endOfSource by
    obtain ⟨us, eos, rfl, hus, heos⟩ := hsplit ts hspelled
    exact ⟨us, eos, hlex, hus, heos⟩
  clear hlex hspelled ts h hne
  induction hwordss with
  | nil =>
    rintro ts ⟨eos, rfl, heos⟩
    exact ⟨[], eos, rfl, rfl, heos⟩
  | @cons line words lines wordss hline _ ih =>
    rintro ts ⟨ws, eoc, rest, rfl, hws, heoc, hrest⟩
    obtain ⟨us, eos, rfl, hus, heos⟩ := ih rest hrest
    exact ⟨ws ++ eoc :: us, eos, by simp, ⟨words, ws, eoc, us, rfl, hline, ⟨hws.symm, hline.isWord⟩, heoc, hus⟩, heos⟩

/-! ## Parts that are read by themselves -/

theorem skipEnds_word (h : t.IsWord) (ts : List Token) : skipEnds (t :: ts) = .ok (⟨⟩, t :: ts) := by
  rw [skipEnds_read]
  simpa using h.1

theorem statement_of_spells {src : Text} {s : Stmt} (h : src.Spells [s]) (hlex : Token.lex src = .ok (t :: ts))
    (ht : t.IsWord) :
    ∃ s' n us, statement .top (n + 1) (t :: ts) = .ok (s', us) ∧ s'.unplaced = s.unplaced ∧
      (s'.label? = none → Scope.top.endsClause (us.headD nowhere) = true) := by
  unfold Spells Program.parse at h
  rw [hlex] at h
  cases hbody : programBody (depthFor (t :: ts).length) (t :: ts) with
  | error e =>
    simp only [StateT.run, hbody, bind, Except.bind] at h
    cases h
  | ok p =>
    obtain ⟨body, vs⟩ := p
    simp only [StateT.run, hbody, bind, Except.bind, Except.toOption] at h
    obtain ⟨s', rfl, hs⟩ : ∃ s', body = [s'] ∧ s'.unplaced = s.unplaced := by
      have hmap : body.map unplaced = [s.unplaced] := Option.some.inj h
      obtain ⟨s', ss, rfl, hs, hss⟩ := map_eq_cons_iff.1 hmap
      exact ⟨s', by rw [map_eq_nil_iff.1 hss], hs⟩
    obtain ⟨n, hn⟩ : ∃ n, depthFor (t :: ts).length = n + 1 + 1 := ⟨depthFor (t :: ts).length - 2, by unfold depthFor; omega⟩
    rw [hn, programBody, bind_of_read (skipEnds_word ht ts), bind_of_read (current_read _), headD_cons,
      if_neg (by simpa using ht.2)] at hbody
    obtain ⟨s'', us, hstatement, hbody⟩ := bind_eq_ok.1 hbody
    rw [bind_of_read (current_read _)] at hbody
    cases hends : s''.label?.isNone && !Scope.top.endsClause (us.headD nowhere) with
    | true =>
      simp only [hends, if_true] at hbody
      obtain ⟨_, _, hfail, -⟩ := bind_eq_ok.1 hbody
      cases hfail
    | false =>
      simp only [hends, Bool.false_eq_true, if_false] at hbody
      obtain ⟨ss, _, -, hbody⟩ := bind_eq_ok.1 hbody
      cases hbody
      refine ⟨s', n, us, hstatement, hs, ?_⟩
      intro hlabel
      rw [hlabel] at hends
      simpa using hends

structure Ends (k : Nat) (rest : List Token) : Prop where
  head : ∃ e tail, rest = e :: tail ∧ e.kind = .endOfClause
  length_le : k ≤ rest.length

def SpellsClause (words : List Token) (c : Clause) : Prop :=
  ∀ sc, Scope.top.Alike sc → ∀ ws rest, Same words ws → Ends 2 rest → ∀ n,
    ∃ pos, statement sc (n + 1) (ws ++ rest) = .ok (.clause pos c, rest)

def SpellsCond (words : List Token) (x : Expr) : Prop :=
  ∀ sc, Scope.top.Alike sc → ∀ ws rest, Same words ws → Ends 4 rest →
    ∃ u, u.kind = .keyword .«then» ∧ expression (sc.stopping ["THEN"]) (ws ++ rest) = .ok (x, u :: rest)

def OpensDo (line : Text) (head : Option (Control × Option Guard)) : Prop :=
  ∀ words, line.IsClauseLine words → ∀ ws, Same words ws → ∃ t w, ws = t :: w ∧ t.kind = .keyword .«do» ∧
    ∀ sc, Scope.top.Alike sc → ∀ rest, Ends 4 rest →
      Leads .«do» t (w ++ rest) ∧ loopHead sc (w ++ rest) = .ok (head, rest)

theorem spellsClause_of_reads {c : Clause}
    (hline : line.IsClauseLine words) (hlabel : ∀ name, c ≠ .label name) (h : line.Spells [.clause pos c]) :
    SpellsClause words c := by
  obtain ⟨eoc, eos, hlex, heoc, -⟩ := hline.lex
  obtain ⟨t, w, rfl⟩ := List.exists_cons_of_ne_nil hline.ne_nil
  obtain ⟨s, n, us, hread, hs, hends⟩ := statement_of_spells h hlex (hline.isWord t (by simp))
  obtain ⟨pos', rfl⟩ := Stmt.unplaced_eq_clause hs
  have hstart : ∃ e tail, [eoc, eos] = e :: tail ∧ e.kind = .endOfClause := ⟨eoc, _, rfl, heoc⟩
  intro sc hsc ws rest hws hrest n'
  obtain ⟨t', w', rfl, -⟩ := hws.of_cons
  obtain ⟨m, m', rfl, hm, hsame, hread'⟩ :=
    statement_clause hsc ⟨hstart, hrest.head, hrest.length_le⟩ hws n' hlabel hread
  -- the clause takes the whole line, for no word ends a clause
  have hnil : m = [] := by
    cases m with
    | nil => rfl
    | cons u m =>
      have hword := endsClause_of_isWord (hsame.isWord u (by simp))
      have hnone : (Stmt.clause pos' c).label? = none := by
        cases c <;> first | rfl | exact absurd rfl (hlabel _)
      rw [List.cons_append, List.headD_cons] at hends
      rw [hends hnone] at hword
      cases hword
  subst hnil
  obtain rfl : m' = [] := List.length_eq_zero_iff.1 hsame.length_eq.symm
  exact ⟨t'.pos, hread'⟩

structure Opens (words : List Token) (closer : Keyword) (t : Token) (w rest : List Token) : Prop where
  same : Same words (t :: w)
  rest : ∃ eoc k tail, rest = eoc :: k :: tail ∧ eoc.kind = .endOfClause ∧ k.kind = .keyword closer ∧ tail.length = 2

section Opens

variable {closer k : Keyword} {w ws : List Token} {s : Stmt}

section

variable (h : Opens words closer t w rest)
include h

theorem Opens.isWord : ∀ u ∈ t :: w, u.IsWord := h.same.symm.isWord

theorem Opens.rests (h' : Ends 4 rest') : Rests rest rest' := by
  obtain ⟨eoc, c, tail, rfl, heoc, -, htail⟩ := h.rest
  exact ⟨⟨_, _, rfl, heoc⟩, h'.head, by simpa [htail] using h'.length_le⟩

theorem Opens.rests_self : Rests rest rest := by
  obtain ⟨eoc, c, tail, rfl, heoc, -⟩ := h.rest
  exact ⟨⟨_, _, rfl, heoc⟩, ⟨_, _, rfl, heoc⟩, le_rfl⟩

theorem Opens.elsewhere (hleads : Leads k t (w ++ rest)) (hne : w ≠ [])
    (hws : Same words ws) : ∃ t' w', ws = t' :: w' ∧ t'.IsWord ∧ (∀ rest, Leads k t' (w' ++ rest)) ∧ Same w w' := by
  have hsame := h.same.symm.trans hws
  obtain ⟨t', w', rfl, ht, -, hw⟩ := hsame.of_cons
  obtain ⟨u, m, rfl⟩ := exists_cons_of_ne_nil hne
  obtain ⟨u', m', rfl, hu, -⟩ := hw.of_cons
  have hkind := kind_eq_of_lexeme hu
  refine ⟨t', _, rfl, hsame.symm.isWord t' (by simp), fun rest => ⟨?_, ?_, ?_⟩, hw⟩
  · rw [← kind_eq_of_lexeme ht, hleads.kind]
  · exact (isMark_eq hkind _).symm.trans hleads.notEqual
  · exact (isMark_eq hkind _).symm.trans hleads.notColon

end

theorem opens_of_lays (hline : line.IsClauseLine words) (h : Lays [line, closer.spelling] ts) (eos : Token) :
    ∃ t w rest, ts ++ [eos] = t :: (w ++ rest) ∧ Opens words closer t w rest := by
  obtain ⟨words', t, w, eoc, _, rfl, hline', hwords, heoc, hrest⟩ := h.cons
  obtain rfl := isClauseLine_unique hline hline'
  obtain ⟨c, eoc', _, rfl, hc, -, rfl⟩ := hrest.spelling
  exact ⟨t, w, [eoc, c, eoc', eos], by simp, hwords, eoc, c, [eoc', eos], rfl, heoc, hc, rfl⟩

theorem statement_of_line (hline : line.IsClauseLine words) (hlex : line.clauseTokens?.isSome)
    (h : Spells (['\n'].intercalate [line, closer.spelling]) [s]) :
    ∃ t w rest s' n us, Opens words closer t w rest ∧ statement .top (n + 1) (t :: (w ++ rest)) = .ok (s', us) ∧
      s'.unplaced = s.unplaced := by
  have hlines : ∀ l ∈ [line, closer.spelling], (clauseTokens? l).isSome := by
    simp [hlex, clauseTokens?_spelling]
  obtain ⟨ts, eos, hts, hlays, -⟩ := lex_lays hlines (by simp)
  obtain ⟨t, w, rest, happend, hopens⟩ := opens_of_lays hline hlays eos
  rw [happend] at hts
  obtain ⟨s', n, us, hread, hs, -⟩ := statement_of_spells h hts (hopens.isWord t (by simp))
  exact ⟨t, w, rest, s', n, us, hopens, hread, hs⟩

theorem condition_words {f : Expr → Reader α} {a : α} (ho : Opens words closer t w rest) (hcloser : closer ≠ .«then»)
    (hleads : Leads k t (w ++ rest)) (hws : Same words ws)
    (h : (expression (Scope.top.stopping ["THEN"]) >>= fun x => skipEnds >>= fun _ => expectKeyword .«then» >>= fun _ => f x)
      (w ++ rest) = .ok (a, us))
    (hafter : ∀ y m, (∀ u ∈ m, u.IsWord) → f y (m ++ rest) = .ok (a, us) → y = x ∧ m = []) :
    ∃ t w, ws = t :: w ∧ t.IsWord ∧ (∀ rest, Leads k t (w ++ rest)) ∧ SpellsCond w x := by
  have hself : Same w w := ⟨rfl, fun u hu => ho.isWord u (by simp [hu])⟩
  obtain ⟨y, vs, hy, h⟩ := bind_eq_ok.1 h
  obtain ⟨m, m', rfl, hm, hsame, -⟩ := Local.expression ⟨rfl, rfl⟩ _ _ ho.rests_self _ _ hself y vs hy
  obtain ⟨_, vs, hskip, h⟩ := bind_eq_ok.1 h
  obtain ⟨_, xs, hexpect, h⟩ := bind_eq_ok.1 h
  cases m with
  | nil =>
    -- the condition takes the whole line, and the next one begins with the keyword that closes the block
    obtain ⟨eoc, c, tail, rfl, heoc, hc, -⟩ := ho.rest
    rw [nil_append, skipEnds_read, dropWhile_cons_of_pos (by simpa using heoc),
      dropWhile_cons_of_neg (by simp [hc])] at hskip
    cases hskip
    exact absurd (TokenKind.keyword.inj (hc.symm.trans (expectKeyword_ok hexpect).1.kind)) hcloser
  | cons u m =>
    rw [cons_append, skipEnds_word (hsame.isWord u (by simp))] at hskip
    cases hskip
    obtain ⟨hu, rfl⟩ := expectKeyword_ok hexpect
    obtain ⟨rfl, rfl⟩ := hafter y m (fun v hv => hsame.isWord v (by simp [hv])) h
    have hne : w ≠ [] := by
      rintro rfl
      simpa using hm.length_le
    obtain ⟨t', w', rfl, ht', hleads', hw⟩ := ho.elsewhere hleads hne hws
    refine ⟨t', w', rfl, ht', hleads', fun sc hsc ws rest' hws hrest' => ?_⟩
    obtain ⟨m, m', hus, -, hsame, hread⟩ := Local.expression (hsc.stopping _) _ _ (ho.rests hrest') _ _ (hw.trans hws) y _ hy
    obtain rfl : m = [u] := append_cancel_right hus.symm
    obtain ⟨u', m', rfl, hu', -, hm⟩ := hsame.of_cons
    obtain rfl : m' = [] := length_eq_zero_iff.1 hm.length_eq.symm
    exact ⟨u', by rw [← kind_eq_of_lexeme hu', hu.kind], hread⟩

end Opens

variable {P : Printer} {ws : List Token}

theorem ifLine_words (hlex : (P.ifLine x).clauseTokens?.isSome)
    (h : Text.Spells (P.source [.ifThen pos x [] []]) [.ifThen pos x [] []])
    (hline : (P.ifLine x).IsClauseLine words) (hws : Same words ws) :
    ∃ t w, ws = t :: w ∧ t.IsWord ∧ (∀ rest, Leads .«if» t (w ++ rest)) ∧ SpellsCond w x := by
  have hsource : P.source [.ifThen pos x [] []] = ['\n'].intercalate [P.ifLine x, Keyword.endIf.spelling] := by
    simp [Printer.source, Printer.linesOf, Printer.lines]
  rw [hsource] at h
  obtain ⟨t, w, rest, s, n, us, ho, hread, hs⟩ := statement_of_line hline hlex h
  rcases statement_cases hread with ⟨c, rfl⟩ | ⟨hleads, hif⟩ | ⟨-, hdo⟩ | ⟨-, ⟨whens, other⟩, rfl, -⟩
  · cases hs
  · cases n with
    | zero =>
      rw [ifStatement, fail_read] at hif
      cases hif
    | succ n =>
      rw [ifStatement_succ] at hif
      refine condition_words ho (by decide) hleads hws hif fun y m hm hrest => ?_
      -- were there words after THEN, one statement would follow
      cases m with
      | nil =>
        obtain ⟨thens, elses, rfl⟩ := gives_ifAfterThen _ _ _ _ _ _ _ hrest
        exact ⟨(Stmt.ifThen.inj hs).2.1, rfl⟩
      | cons v m =>
        obtain ⟨s, elses, rfl⟩ := ifAfterThen_word (hm v (by simp)) hrest
        cases hs
  · obtain ⟨head, _, rfl⟩ := gives_doStatement _ _ _ _ _ _ hdo
    cases head <;> cases hs
  · cases other <;> cases hs

theorem whenLine_words (hlex : (P.whenLine x).clauseTokens?.isSome)
    (h : Text.Spells (P.source [.select pos [(x, [])] none]) [.select pos [(x, [])] none])
    (hline : (P.whenLine x).IsClauseLine words) (hws : Same words ws) :
    ∃ t w, ws = t :: w ∧ t.IsWord ∧ (∀ rest, Leads .when t (w ++ rest)) ∧ SpellsCond w x := by
  have hsource : P.source [.select pos [(x, [])] none] =
      ['\n'].intercalate [Keyword.select.spelling, P.whenLine x, Keyword.«end».spelling] := by
    simp [Printer.source, Printer.linesOf, Printer.lines, Printer.whenLines]
  rw [hsource] at h
  have hlines : ∀ l ∈ [Keyword.select.spelling, P.whenLine x, Keyword.«end».spelling], (Text.clauseTokens? l).isSome := by
    simp [hlex, clauseTokens?_spelling]
  obtain ⟨ts, eos, hts, hlays, -⟩ := lex_lays hlines (by simp)
  obtain ⟨sel, eoc, rest, rfl, hsel, heoc, hrest⟩ := hlays.spelling
  obtain ⟨t, w, rest, happend, ho⟩ := opens_of_lays hline hrest eos
  rw [List.cons_append, List.cons_append, happend] at hts
  obtain ⟨s, n, us, hread, hs, -⟩ := statement_of_spells h hts (by simp [Token.IsWord, hsel])
  rcases statement_cases hread with ⟨c, rfl⟩ | ⟨-, hif⟩ | ⟨-, hdo⟩ | ⟨-, ⟨whens, other⟩, rfl, -, hparts⟩
  · cases hs
  · obtain ⟨_, _, _, rfl⟩ := gives_ifStatement _ _ _ _ _ _ hif
    cases hs
  · obtain ⟨head, _, rfl⟩ := gives_doStatement _ _ _ _ _ _ hdo
    cases head <;> cases hs
  · obtain ⟨_, rfl, rfl⟩ := Stmt.unplaced_eq_select hs
    cases n with
    | zero =>
      rw [selectParts, fail_read] at hparts
      cases hparts
    | succ n =>
      have hskip : skipEnds (eoc :: t :: (w ++ rest)) = .ok (⟨⟩, t :: (w ++ rest)) := by
        rw [skipEnds_read, List.dropWhile_cons_of_pos (by simpa using heoc),
          List.dropWhile_cons_of_neg (by simpa using (ho.isWord t (by simp)).1)]
      have hleads := leads_when_of_selectParts hskip hparts
      rw [selectParts_when hskip hleads] at hparts
      refine condition_words ho (by decide) hleads hws hparts fun y m hm hrest => ?_
      cases m with
      | nil =>
        obtain ⟨e, k, tail, rfl, -⟩ := ho.rest
        exact ⟨(whenAfterThen_ok hrest).1.symm, rfl⟩
      | cons v m => exact absurd rfl ((whenAfterThen_ok hrest).2 (hm v (by simp)))

theorem opensDo_spelling : OpensDo Keyword.«do».spelling none := by
  intro words hline ws hws
  obtain ⟨t, rfl, ht⟩ := spelling_words hline hws
  refine ⟨t, [], rfl, ht, fun sc _ rest hrest => ?_⟩
  obtain ⟨e, tail, rfl, he⟩ := hrest.head
  refine ⟨⟨ht, isMark_endOfClause he _, isMark_endOfClause he _⟩, ?_⟩
  rw [nil_append, loopHead, bind_of_read (atEnd_read _ _), headD_cons, endsClause_endOfClause _ he]
  rfl

theorem opensDo_loopLine {control : Control} {guard : Option Guard}
    (hlex : (P.loopLine control guard).clauseTokens?.isSome)
    (h : Spells (P.source [.loop pos control guard []]) [.loop pos control guard []]) :
    OpensDo (P.loopLine control guard) (some (control, guard)) := by
  intro words hline ws hws
  obtain ⟨t, w, rest, s, n, us, ho, hread, hs⟩ := statement_of_line hline hlex h
  rcases statement_cases hread with ⟨c, rfl⟩ | ⟨-, hif⟩ | ⟨hleads, hdo⟩ | ⟨-, ⟨whens, other⟩, rfl, -⟩
  · cases hs
  · obtain ⟨_, _, _, rfl⟩ := gives_ifStatement _ _ _ _ _ _ hif
    cases hs
  · cases n with
    | zero =>
      cases hdo
    | succ n =>
      obtain ⟨head, vs, hhead, hdo⟩ := bind_eq_ok.1 hdo
      obtain ⟨body, rfl⟩ := gives_doAfterHead _ _ _ _ _ _ _ hdo
      obtain rfl : head = some (control, guard) := by
        cases head with
        | none => cases hs
        | some p => rw [← (loop.inj hs).2.1, ← (loop.inj hs).2.2.1]
      have hself : Same w w := ⟨rfl, fun v hv => ho.isWord v (by simp [hv])⟩
      obtain ⟨m, m', rfl, -, hsame, -⟩ := Local.loopHead ⟨rfl, rfl⟩ _ _ ho.rests_self _ _ hself _ vs hhead
      have hends := loopHead_ends hhead
      obtain rfl : m = [] := by
        cases m with
        | nil => rfl
        | cons v m =>
          rw [cons_append, headD_cons, endsClause_of_isWord (hsame.isWord v (by simp))] at hends
          cases hends
      have hne : w ≠ [] := by
        rintro rfl
        rw [nil_append] at hends
        rw [nil_append, loopHead, bind_of_read (atEnd_read _ _), hends] at hhead
        cases hhead
      obtain ⟨t', w', rfl, -, hleads', hw⟩ := ho.elsewhere hleads hne hws
      refine ⟨t', w', rfl, (hleads' []).kind, fun sc hsc rest' hrest' => ⟨hleads' rest', ?_⟩⟩
      obtain ⟨m, m', hnil, -, hsame, hread'⟩ := Local.loopHead hsc _ _ (ho.rests hrest') _ _ hw _ _ hhead
      obtain rfl : m = [] := append_cancel_right hnil.symm
      obtain rfl : m' = [] := length_eq_zero_iff.1 hsame.length_eq.symm
      exact hread'
  · cases other <;> cases hs

end Grammar

end Rexx
