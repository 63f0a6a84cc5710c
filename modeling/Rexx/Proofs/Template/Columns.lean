import Rexx.Proofs.Grammar.RoundTrip
import Rexx.Proofs.Template.Patterns

/-!
# `Template.Columns` — columns as they are written

A column is written as a row of digits and is kept as a 32-bit word.
-/

namespace Rexx

open List Template Text Token

/-! ## Rows of digits -/

namespace Text

variable {c : Char} {digits : Text}

theorem digit_bounds (h : c.isDigit = true) : '0' ≤ c ∧ c ≤ '9' := by
  simpa [Char.isDigit, Char.le_def] using h

theorem toUpper_digit (h : c.isDigit = true) : c.toUpper = c := by
  unfold Char.toUpper
  exact dif_neg fun ha => absurd ((digit_bounds h).2.trans_lt (by decide : '9' < 'a')) (not_lt.2 ha.1)

theorem leadingWord_digits (hne : digits ≠ []) (hd : digits.all Char.isDigit = true) :
    leadingWord digits = toWord (min (digitsValue 0 digits : Int) 9223372036854775807) := by
  have htake : digits.takeWhile Char.isDigit = digits :=
    takeWhile_eq_self_iff.2 fun c hc => all_eq_true.1 hd c hc
  obtain ⟨c, r, rfl⟩ := exists_cons_of_ne_nil hne
  obtain ⟨hle, -⟩ := digit_bounds (all_eq_true.1 hd c mem_cons_self)
  have hreturn : ¬ c ≤ '\r' := not_le.2 ((by decide : '\r' < '0').trans_le hle)
  have hblank : c ≠ ' ' := ((by decide : ' ' < '0').trans_le hle).ne'
  have hminus : c ≠ '-' := ((by decide : '-' < '0').trans_le hle).ne'
  have hplus : c ≠ '+' := ((by decide : '+' < '0').trans_le hle).ne'
  unfold leadingWord
  rw [dropWhile_cons_of_neg (by simp [hreturn, hblank])]
  simp [hminus, hplus, htake]

theorem leadingWord_of_lt (hne : digits ≠ []) (hd : digits.all Char.isDigit = true)
    (hlt : digitsValue 0 digits < 2147483648) : leadingWord digits = digitsValue 0 digits := by
  rw [leadingWord_digits hne hd, min_eq_left (by omega), toWord, Int.bmod_eq_of_le (by omega) (by omega)]

theorem isNumberWord_digits (hne : digits ≠ []) (hd : digits.all Char.isDigit = true) : digits.isNumberWord = true := by
  have hdigit := all_eq_true.1 hd
  have hupper : upper digits = digits :=
    (map_congr_left fun c hc => toUpper_digit (hdigit c hc)).trans (map_id _)
  have hchars : digits.all Lexer.isSymbolChar = true :=
    all_eq_true.2 fun c hc => Lexer.isSymbolChar_of_isDigit (hdigit c hc)
  obtain ⟨c, r, rfl⟩ := exists_cons_of_ne_nil hne
  simp [isNumberWord, beginsNumber, hdigit c mem_cons_self, hupper, hchars]

end Text

namespace Grammar

variable {sc : Scope} {t w : Token} {ts rest : List Token} {name : Text} {x : Expr} {n : Nat}

theorem reads_symbol (ht : t.kind = .symbol name) (hstop : sc.isStop t = false) : Reads sc 9 (.symbol name) [t] := by
  have hterm : BeginsTerm sc t (.symbol name) (.call name false) := fun n rest => by
    rw [term, bind_of_read (current_read _), headD_cons]
    simp only [ht, hstop, text]
    rfl
  exact hterm.reads

theorem closes_stop (hw : w.kind = .symbol name) (hstop : sc.isStop w = true) (r : Nat) : Closes sc r (w :: rest) where
  noLink L _ := by simp [link?, Scope.startsTerm, hw, hstop]
  noArguments := by simp [isMark, hw]

theorem expression_symbol (ht : t.kind = .symbol name) (hopen : sc.isStop t = false) {stop : Text}
    (hw : w.kind = .symbol stop) (hstop : sc.isStop w = true) :
    expression sc (t :: w :: rest) = .ok (.symbol name, w :: rest) := by
  have hends : sc.endsExpr t = false := by
    simp [Scope.endsExpr, Scope.endsClause, isMark, ht, hopen]
  have hreads := (reads_symbol ht hopen).of_nine (by simp [prefixOp?, ht]) (Nat.zero_le 9)
  refine hreads.whole_of hends ?_ (closes_stop hw hstop 0)
  simp only [depthAt, depthFor, length_cons, length_nil]
  omega

theorem isWord_symbol {word : Text} (ht : t.kind = .symbol name) (h : word ≠ name) : t.isWord word = false := by
  simpa [isWord, name?, ht] using h.symm

theorem takeWord_else {α : Type} {word : Text} {a c : Reader α} (h : t.isWord word = false) :
    (takeWord word >>= fun b => if b = true then a else c) (t :: ts) = c (t :: ts) := by
  rw [bind_of_read (takeWord_read word _), headD_cons, h]
  rfl

theorem takeWord_then {α : Type} {word : Text} {a c : Reader α} (h : t.isWord word = true) :
    (takeWord word >>= fun b => if b = true then a else c) (t :: ts) = a ts := by
  rw [bind_of_read (takeWord_read word _), headD_cons, h]
  rfl

theorem parseSource_value {v : Token} (hv : v.kind = .symbol "VALUE") (ht : t.kind = .symbol name)
    (hname : name ≠ "WITH") (hw : w.kind = .symbol "WITH") :
    parseSource .top (v :: t :: w :: rest) = .ok (.value (some (.symbol name)), rest) := by
  have hword (word : Text) (h : word ≠ "VALUE") : v.isWord word = false := isWord_symbol hv h
  have hvalue : v.isWord "VALUE" = true := by simp [isWord, name?, hv]
  have hwith : w.isWord "WITH" = true := by simp [isWord, name?, hw]
  have hx : expression (Scope.top.stopping ["WITH"]) (t :: w :: rest) = .ok (.symbol name, w :: rest) := by
    refine expression_symbol ht ?_ hw ?_
    · simpa [Scope.isStop, Scope.stopping, Scope.top, name?, ht] using hname
    · simp [Scope.isStop, Scope.stopping, Scope.top, name?, hw]
  unfold parseSource
  rw [takeWord_else (hword "ARG" (by decide)), takeWord_else (hword "PULL" (by decide)),
    takeWord_else (hword "SOURCE" (by decide)), takeWord_else (hword "VERSION" (by decide)),
    takeWord_else (hword "VAR" (by decide)), takeWord_then hvalue, bind_of_read (atWord_read _ _), headD_cons,
    isWord_symbol ht hname.symm, if_neg Bool.false_ne_true]
  have hsome : (some <$> expression (Scope.top.stopping ["WITH"])) (t :: w :: rest) = .ok (some (.symbol name), w :: rest) := by
    rw [map_eq_pure_bind, bind_of_read hx]
    rfl
  refine (bind_of_read hsome).trans ((bind_of_read (takeWord_read _ _)).trans ?_)
  rw [headD_cons, hwith]
  rfl

theorem templates_column {d v eoc eos : Token} {digits : Text} (hd : d.kind = .number digits)
    (hall : digits.all Char.isDigit = true) (hv : v.kind = .symbol name) (hname : name ≠ ".")
    (heoc : eoc.kind = .endOfClause) :
    templates .top [d, v, eoc, eos] = .ok ([[.column (leadingWord digits), .var name]], [eoc, eos]) := by
  have hcolumn : templatePiece .top [d, v, eoc, eos] = .ok (some (some (.column (leadingWord digits))), [v, eoc, eos]) := by
    have hnone : d.name? = none := by rw [name?, hd]
    have hgoes : Scope.top.endsClause d = false := by rw [Scope.endsClause, hd]
    have hnumber : wholeNumber [d, v, eoc, eos] = .ok (leadingWord digits, [v, eoc, eos]) := by
      rw [wholeNumber, bind_of_read (current_read _), headD_cons, hd]
      simp only [hall]
      rfl
    rw [templatePiece, bind_of_read (current_read _), headD_cons, hgoes, hnone, hd]
    exact bind_of_read hnumber
  have hvar : templatePiece .top [v, eoc, eos] = .ok (some (some (.var name)), [eoc, eos]) := by
    have hsome : v.name? = some name := by rw [name?, hv]
    have hgoes : Scope.top.endsClause v = false := by rw [Scope.endsClause, hv]
    rw [templatePiece, bind_of_read (current_read _), headD_cons, hgoes, hsome]
    dsimp only
    rw [if_neg hname]
    rfl
  have hend : templatePiece .top [eoc, eos] = .ok (none, [eoc, eos]) := by
    have hends : Scope.top.endsClause eoc = true := by rw [Scope.endsClause, heoc]
    rw [templatePiece, bind_of_read (current_read _), headD_cons, hends]
    rfl
  have hall' : all (templatePiece .top) [d, v, eoc, eos] =
      .ok ([some (.column (leadingWord digits)), some (.var name)], [eoc, eos]) := by
    have h0 : many (templatePiece .top) 3 [eoc, eos] = .ok ([], [eoc, eos]) := bind_of_read hend
    have h1 : many (templatePiece .top) 4 [v, eoc, eos] = .ok ([some (.var name)], [eoc, eos]) :=
      (bind_of_read hvar).trans (bind_of_read h0)
    exact (bind_of_read (get_read _)).trans ((bind_of_read hcolumn).trans (bind_of_read h1))
  rw [templates, bind_of_read hall']
  rfl

theorem parseClause_column {v d y eoc : Token} {digits : Text} (hv : v.kind = .symbol "VALUE") (ht : t.kind = .symbol "S")
    (hw : w.kind = .symbol "WITH") (hd : d.kind = .number digits) (hall : digits.all Char.isDigit = true)
    (hy : y.kind = .symbol "X") (heoc : eoc.kind = .endOfClause) (eos : Token) :
    parseClause .top [v, t, w, d, y, eoc, eos] =
      .ok (.parse (.value (some (.symbol "S"))) none [[.column (leadingWord digits), .var "X"]], [eoc, eos]) := by
  unfold parseClause
  dsimp only
  rw [takeWord_else (isWord_symbol hv (by decide)), takeWord_else (isWord_symbol hv (by decide)), pure_bind]
  refine (bind_of_read (parseSource_value hv ht (by decide) hw)).trans ?_
  exact bind_of_read (templates_column hd hall hy (by decide) heoc)

theorem statement_parse {v : Token} {c : Clause} (ht : t.kind = .keyword .parse) (hv : v.kind = .symbol name)
    (hc : parseClause sc (v :: ts) = .ok (c, rest)) (n : Nat) :
    statement sc (n + 1) (t :: v :: ts) = .ok (.clause t.pos c, rest) := by
  have hno : noInterpretLength (t :: v :: ts) = .ok (none, t :: v :: ts) := by
    rw [noInterpretLength_read]
    simp [noInterpretCount, ht]
  rw [statement_plain sc n (.inr (by simp [isMark, hv])), plainStatement, bind_of_read hno]
  simp only [ht]
  exact (bind_of_read (skip_read 1 _)).trans (bind_of_read hc)

end Grammar

open Grammar

/-- PARSE VALUE S WITH, a column, and X. -/
def columnSource (digits : Text) : Text := "PARSE VALUE S WITH ".toList ++ digits ++ " X".toList

def columnClause (digits : Text) : Clause :=
  .parse (.value (some (.symbol "S"))) none [[.column (Text.leadingWord digits), .var "X"]]

def columnLexemes (digits : Text) : List Lexeme :=
  [⟨.symbol "VALUE", true⟩, ⟨.symbol "S", true⟩, ⟨.symbol "WITH", true⟩, ⟨.number digits, true⟩, ⟨.symbol "X", true⟩]

theorem columnSource_eq (digits : Text) :
    columnSource digits = (⟨.keyword .parse, false⟩ :: columnLexemes digits).flatMap Lexeme.text := by
  have hfront : "PARSE VALUE S WITH ".toList = Keyword.parse.spelling ++ ' ' :: ("VALUE".toList ++ ' ' :: ("S".toList ++
      ' ' :: ("WITH".toList ++ [' ']))) := by decide +kernel
  have hback : " X".toList = ' ' :: "X".toList := by decide
  refine (congrArg₂ (fun front back => front ++ digits ++ back) hfront hback).trans ?_
  simp only [columnLexemes, flatMap_cons, flatMap_nil, Lexeme.text, TokenKind.written, if_true, Bool.false_eq_true,
    if_false, append_nil, cons_append, append_assoc, nil_append]

theorem wellSpaced_columnLexemes {digits : Text} (h : digits.isNumberWord = true) :
    Lexeme.WellSpaced (columnLexemes digits) where
  writable := by
    simp only [columnLexemes, forall_mem_cons]
    exact ⟨by decide, by decide, by decide, h, by decide, forall_mem_nil _⟩
  follows := by simp [columnLexemes, Lexeme.Follows]
  blankFirst := by simp [columnLexemes]

theorem Program.parse_column {digits : Text} (hne : digits ≠ []) (hd : digits.all Char.isDigit = true) (name : Text) :
    Program.parse (columnSource digits) name =
      .ok (Program.ofBody name (Text.lines (columnSource digits)) [.clause ⟨1, 1⟩ (columnClause digits)]) := by
  obtain ⟨p, us, eoc, eos, hlex, hp, hpos, hus, heoc, heos⟩ :=
    lex_text (l := ⟨.keyword .parse, false⟩) (by decide) rfl
      (wellSpaced_columnLexemes (isNumberWord_digits hne hd))
  -- a token for each of the lexemes
  obtain ⟨v, us, rfl, hv, hus⟩ := map_eq_cons_iff.1 hus
  obtain ⟨t, us, rfl, ht, hus⟩ := map_eq_cons_iff.1 hus
  obtain ⟨w, us, rfl, hw, hus⟩ := map_eq_cons_iff.1 hus
  obtain ⟨d, us, rfl, hdigits, hus⟩ := map_eq_cons_iff.1 hus
  obtain ⟨y, us, rfl, hy, hus⟩ := map_eq_cons_iff.1 hus
  obtain rfl := map_eq_nil_iff.1 hus
  have hclause := parseClause_column (kind_of_lexeme hv) (kind_of_lexeme ht) (kind_of_lexeme hw)
    (kind_of_lexeme hdigits) hd (kind_of_lexeme hy) heoc eos
  have hbody := programBody_single (isWord_of_kind (kind_of_lexeme hp) (by simp) (by simp)) heoc heos
    (statement_parse (kind_of_lexeme hp) (kind_of_lexeme hv) hclause (22 + 24 * 8))
  rw [← columnSource_eq] at hlex
  unfold Program.parse
  rw [hlex]
  show Except.bind (programBody _ _) _ = _
  rw [hpos] at hbody
  exact (congrArg (Except.bind · _) hbody).trans rfl

/-! ## Execution -/

namespace Engine

variable {σ : Type} {m : Machine σ} {s : Text}

theorem walk_column (s : Text) (c : Int) (x : Text) (m : Machine σ) :
    apply fetch assign [.column c, .var x] s m = assign x (s.drop (c - 1).toNat) m := by
  have hdrop : (s.take s.length).drop (min (c - 1).toNat s.length) = s.drop (c - 1).toNat := by
    rw [take_length]
    rcases Nat.le_total (c - 1).toNat s.length with h | h
    · rw [Nat.min_eq_left h]
    · rw [Nat.min_eq_right h, drop_length, drop_of_length_le h]
  rw [← hdrop]
  simp [apply, walk, fill, share, assignAll, placeAt]

theorem execClause_column (c : Int) (hmemo : m.top.memo.lookup [0] = none)
    (hs : m.interp.vars.peek? "S" = some s) :
    ∃ m', execClause (.parse (.value (some (.symbol "S"))) none [[.column c, .var "X"]]) m = .ok () m' ∧
      m'.interp.vars.peek? "X" = some (s.drop (c - 1).toNat) := by
  have htexts : parseTexts (.value (some (.symbol "S"))) m = .ok [s] (m.note [0] s) :=
    bind_of_ok (remember_of_ok hmemo (fetch_of_peek? hs))
  obtain ⟨m2, hadvance⟩ : ∃ m2, advance (m.note [0] s) = .ok () m2 := ⟨_, rfl⟩
  have hassign := (walk_column s c "X" m2).trans (assign_simple (by decide) _ m2)
  refine ⟨put m2 "X" (s.drop (c - 1).toNat), ?_, Variables.get?_set _ _ _⟩
  rw [execClause, bind_of_ok htexts, bind_of_ok hadvance]
  exact (bind_of_ok hassign).trans rfl

end Engine

/-- **A column means the 32-bit word that its digits make.** A source with a column of any length is read as one clause. What
this clause gives the variable after the column begins at the column; below `2 ^ 31` it is the one that the digits stand
for, and past the end of the text nothing is left. -/
theorem Program.column_reads {σ : Type} (digits : Text) (hne : digits ≠ []) (hd : digits.all Char.isDigit = true)
    (name : Text) :
    ∃ clause, Program.parse (columnSource digits) name =
        .ok (Program.ofBody name (Text.lines (columnSource digits)) [.clause ⟨1, 1⟩ clause]) ∧
      ∀ (m : Machine σ) (s : Text), m.top.memo = [] → m.interp.vars.peek? "S" = some s →
        ∃ m', Engine.execClause clause m = .ok () m' ∧
          m'.interp.vars.peek? "X" =
            some (s.drop (Text.toWord (min (Text.digitsValue 0 digits : Int) 9223372036854775807) - 1).toNat) ∧
          (1 ≤ Text.digitsValue 0 digits → Text.digitsValue 0 digits < 2147483648 →
            m'.interp.vars.peek? "X" = some (s.drop (Text.digitsValue 0 digits - 1)) ∧
            (s.length < Text.digitsValue 0 digits → m'.interp.vars.peek? "X" = some [])) := by
  refine ⟨columnClause digits, parse_column hne hd name, fun m s hmemo hs => ?_⟩
  obtain ⟨m', hrun, hx⟩ := Engine.execClause_column (Text.leadingWord digits) (by rw [hmemo]; rfl) hs
  refine ⟨m', hrun, by rw [hx, Text.leadingWord_digits hne hd], fun hpos hlt => ?_⟩
  have hindex : (Text.leadingWord digits - 1).toNat = Text.digitsValue 0 digits - 1 := by
    rw [Text.leadingWord_of_lt hne hd hlt]
    omega
  rw [hindex] at hx
  refine ⟨hx, fun hlen => ?_⟩
  rw [hx, List.drop_of_length_le (by omega)]

def holding (s : Text) : Machine Unit := Template.put Machine.idle "S" s

theorem peek?_holding (s : Text) : (holding s).interp.vars.peek? "S" = some s := by
  rw [Variables.peek?, ofText_simple (by decide)]
  exact Variables.get?_set Machine.idle.interp.vars _ _

theorem Program.column_reads_three :
    ("3".toList ≠ [] ∧ "3".toList.all Char.isDigit = true) ∧
    ∃ clause, Program.parse (columnSource "3") [] =
        .ok (Program.ofBody [] (Text.lines (columnSource "3")) [.clause ⟨1, 1⟩ clause]) ∧
      ∃ m', Engine.execClause clause (holding "abcde") = .ok () m' ∧ m'.interp.vars.peek? "X" = some "cde".toList := by
  refine ⟨⟨by decide, by decide⟩, ?_⟩
  obtain ⟨clause, hparse, hrun⟩ := Program.column_reads (σ := Unit) "3" (by decide) (by decide) []
  obtain ⟨m', hm', -, hx⟩ := hrun (holding "abcde") "abcde" rfl (peek?_holding _)
  exact ⟨clause, hparse, m', hm', (hx (by decide) (by decide)).1⟩

theorem Program.column_wraps :
    ∃ clause, Program.parse (columnSource "4294967297") [] =
        .ok (Program.ofBody [] (Text.lines (columnSource "4294967297")) [.clause ⟨1, 1⟩ clause]) ∧
      ∃ m', Engine.execClause clause (holding "abc") = .ok () m' ∧ m'.interp.vars.peek? "X" = some "abc".toList ∧
        "abc".toList.length < Text.digitsValue 0 "4294967297" ∧ "abc".toList ≠ [] := by
  obtain ⟨m', hrun, hx⟩ := Engine.execClause_column (Text.leadingWord "4294967297") rfl (peek?_holding "abc")
  exact ⟨columnClause "4294967297", parse_column (by decide) (by decide) [], m', hrun, hx, by decide, by decide⟩

end Rexx
