import Mathlib
import Rexx.Token.Lexer

/-!
# `Token.Reading` — what the reader takes off a text

A step of the reader passes over a blank or a comment, takes a token off the front of what is left, or ends a line.
-/

namespace Rexx

open Lexer List State Text

/-! ## Words and quotes -/

def Text.beginsNumber (w : Text) : Bool :=
  w.head?.any fun c => c.isDigit || (c == '.' && w.tail.head?.any Char.isDigit)

/-- The character that opens and closes a quoted literal. -/
def Quote.char : Quote → Char
  | .double => '\x22'
  | .single => '\x27'
  | .back => '\x60'
  | .heredoc => '<'

/-- A text with each `q` in it written twice. -/
def Text.doubling (q : Char) (s : Text) : Text := s.flatMap fun c => if c = q then [q, q] else [c]

theorem Text.splitAt_cons {c : Char} {part : Text} (h : c ∉ part) (s : Text) :
    splitAt c (part ++ c :: s) = part :: splitAt c s := by
  induction part with
  | nil => simp [splitAt]
  | cons d part ih =>
    obtain ⟨hd, hpart⟩ := not_or.1 (mem_cons.not.1 h)
    simp [splitAt, Ne.symm hd, ih hpart]

theorem Text.splitAt_of_not_mem {c : Char} {s : Text} (h : c ∉ s) : splitAt c s = [s] := by
  induction s with
  | nil => rfl
  | cons d s ih =>
    obtain ⟨hd, hs⟩ := not_or.1 (mem_cons.not.1 h)
    simp [splitAt, Ne.symm hd, ih hs]

def TokenKind.ofName (name : Text) : TokenKind :=
  match Keyword.ofText? name with
  | some k => .keyword k
  | none => .symbol name

def Position.after (p : Position) (x : Text) : Position := x.foldl past p

namespace Lexer

variable {c q : Char} {k : TokenKind} {w x y r : Text}

/-! ## Scanners -/

variable {raws : List Text} {plain : Bool} {label : Text}

theorem numberWord_cons (hc : isSymbolChar c = true) (hplain : (plain && (c == 'e' || c == 'E')) = false) (x : Text) :
    numberWord plain (c :: x) = c :: numberWord (plain && (c.isDigit || c == '.')) x := by
  rcases x with _ | ⟨sign, _ | ⟨d, x⟩⟩ <;> simp [numberWord, hc, hplain]

theorem numberWord_of_not_symbolChar (hc : isSymbolChar c = false) (x : Text) : numberWord plain (c :: x) = [] := by
  rcases x with _ | ⟨sign, _ | ⟨d, x⟩⟩ <;> simp [numberWord, hc]

def signedNext (x : Text) : Bool := x.head?.any (fun c => c == '+' || c == '-') && x.tail.head?.any Char.isDigit

theorem numberWord_exponent (hc : isSymbolChar c = true) (he : (c == 'e' || c == 'E') = true)
    (hx : signedNext x = false) : numberWord true (c :: x) = c :: numberWord false x := by
  rcases x with _ | ⟨sign, _ | ⟨d, x⟩⟩
  · simp [numberWord, hc]
  · simp [numberWord, hc]
  · have hsigned : ((sign == '+' || sign == '-') && d.isDigit) = false := hx
    simp [numberWord, hc, he, hsigned]

theorem numberWord_signed {sign d : Char} (hc : isSymbolChar c = true) (he : (c == 'e' || c == 'E') = true)
    (hx : signedNext (sign :: d :: x) = true) :
    numberWord true (c :: sign :: d :: x) = c :: sign :: numberWord false (d :: x) := by
  have hsigned : ((sign == '+' || sign == '-') && d.isDigit) = true := hx
  simp [numberWord, hc, he, hsigned]

theorem numberWord_split (plain : Bool) (x : Text) :
    ∃ r, x = numberWord plain x ++ r ∧ ∀ c ∈ r.head?, isSymbolChar c = false := by
  fun_induction numberWord plain x with
  | case1 => exact ⟨[], rfl, by simp⟩
  | case2 plain c x hc => exact ⟨c :: x, rfl, by simpa using hc⟩
  | case3 plain c hc he sign d x hsigned ih =>
    obtain ⟨r, hr, hend⟩ := ih
    exact ⟨r, by rw [cons_append, cons_append, ← hr], hend⟩
  | case4 plain c hc he sign d x hsigned ih | case5 plain c x hc he hx ih | case6 plain c x hc he ih =>
    obtain ⟨r, hr, hend⟩ := ih
    exact ⟨r, by rw [cons_append, ← hr], hend⟩

theorem numberWord_ne_nil (hc : isSymbolChar c = true) (x : Text) : numberWord plain (c :: x) ≠ [] := by
  intro hnil
  obtain ⟨r, hr, hend⟩ := numberWord_split plain (c :: x)
  rw [hnil, nil_append] at hr
  rw [hend c (by rw [← hr]; rfl)] at hc
  cases hc

theorem quotedBody_eq_some_iff {body : Text} (hq : q ≠ '\n') :
    quotedBody q x = some (body, r) ↔ x = body.doubling q ++ q :: r ∧ '\n' ∉ body ∧ q ∉ r.head? := by
  constructor
  · intro h
    fun_induction quotedBody q x generalizing body with
    | case1 | case2 => cases h
    | case3 hq' =>
      obtain ⟨rfl, rfl⟩ := Prod.mk.inj (Option.some.inj h)
      simp [doubling]
    | case4 x hq' ih =>
      obtain ⟨p, hp, hpr⟩ := Option.map_eq_some_iff.1 h
      obtain ⟨rfl, rfl⟩ := Prod.mk.inj hpr
      obtain ⟨rfl, hline, hr⟩ := ih hp
      exact ⟨by simp [doubling], by simp [hline, Ne.symm hq], hr⟩
    | case5 d x hd hq' =>
      obtain ⟨rfl, rfl⟩ := Prod.mk.inj (Option.some.inj h)
      simpa [doubling] using hd
    | case6 c x hc hcq ih =>
      obtain ⟨p, hp, hpr⟩ := Option.map_eq_some_iff.1 h
      obtain ⟨rfl, rfl⟩ := Prod.mk.inj hpr
      obtain ⟨rfl, hline, hr⟩ := ih hp
      exact ⟨by simp [doubling, hcq], by simp [hline, Ne.symm hc], hr⟩
  · rintro ⟨rfl, hline, hr⟩
    induction body with
    | nil => cases r <;> simp_all [doubling, quotedBody]
    | cons c body ih =>
      have hc : c ≠ '\n' := fun h => hline (by simp [h])
      have ih := ih fun h => hline (by simp [h])
      by_cases hcq : c = q
      · subst hcq
        simp [doubling, quotedBody, hq] at ih ⊢
        exact ih
      · have hcons : doubling q (c :: body) ++ q :: r = c :: (doubling q body ++ q :: r) := by
          simp [doubling, hcq]
        cases hx : doubling q body ++ q :: r <;> simp_all [quotedBody]

theorem after_append (p : Position) (x y : Text) : p.after (x ++ y) = (p.after x).after y := foldl_append

theorem after_of_not_mem {p : Position} (h : '\n' ∉ x) : p.after x = p.right x.length := by
  induction x generalizing p with
  | nil => rfl
  | cons c x ih =>
    obtain ⟨hc, hx⟩ := not_or.1 (mem_cons.not.1 h)
    show (p.past c).after x = _
    rw [ih hx, Position.past, if_neg (Ne.symm hc)]
    simp [Position.right]
    omega

theorem afterComment_split {depth : Nat} {p p' : Position} (h : afterComment depth p x = some (p', r)) :
    ∃ u, x = u ++ r ∧ p' = p.after u ∧ ∀ p y, afterComment depth p (u ++ y) = some (p.after u, y) := by
  fun_induction afterComment depth p x with
  | case1 => cases h
  | case2 depth p x ih =>
    obtain ⟨u, rfl, rfl, hu⟩ := ih h
    exact ⟨'/' :: '*' :: u, rfl, rfl, fun p y => hu (p.right 2) y⟩
  | case3 depth p x hdepth =>
    obtain ⟨rfl, rfl⟩ := Prod.mk.inj (Option.some.inj h)
    exact ⟨['*', '/'], rfl, rfl, fun p y => if_pos hdepth⟩
  | case4 depth p x hdepth ih =>
    obtain ⟨u, rfl, rfl, hu⟩ := ih h
    refine ⟨'*' :: '/' :: u, rfl, rfl, fun p y => ?_⟩
    exact (if_neg hdepth).trans (hu (p.right 2) y)
  | case5 depth p c x hopen hclose ih =>
    obtain ⟨u, rfl, rfl, hu⟩ := ih h
    refine ⟨c :: u, rfl, rfl, fun p y => ?_⟩
    -- the comment does not end here, so the character after this one belongs to it too
    cases u with
    | nil => cases hu p []
    | cons d u =>
      rw [cons_append, afterComment]
      · exact hu (p.past c) y
      · rintro z rfl hz
        obtain ⟨rfl, -⟩ := cons.inj hz
        exact hopen _ rfl rfl
      · rintro z rfl hz
        obtain ⟨rfl, -⟩ := cons.inj hz
        exact hclose _ rfl rfl

def opensComment (x : Text) : Bool := "/*".toList.isPrefixOf x || "--".toList.isPrefixOf x

theorem opensComment_iff : opensComment x = true ↔ (∃ y, x = '/' :: '*' :: y) ∨ ∃ y, x = '-' :: '-' :: y := by
  rw [opensComment, Bool.or_eq_true, isPrefixOf_iff_prefix, isPrefixOf_iff_prefix]
  exact or_congr (exists_congr fun y => eq_comm) (exists_congr fun y => eq_comm)

def heredocAt? (x : Text) : Option Text := if "<<".toList.isPrefixOf x then heredocLabel? (x.drop 2) else none

def looksPast (blank : Char → Bool) (test : Char → Option Char → Bool) (atEnd : Bool) : Text → Bool
  | [] => atEnd
  | c :: x => if blank c then looksPast blank test atEnd x else test c x.head?

def trails : Text → Bool :=
  looksPast (fun c => c == ' ' || c == '\t' || c == '\r') (fun c d => c == '\n' || (c == '-' && d == some '-')) true

theorem looksPast_eq {f : Text → Bool} {blank : Char → Bool} {test : Char → Option Char → Bool}
    (h : ∀ c x, f (c :: x) = test c x.head?) (x : Text) : f (x.dropWhile blank) = looksPast blank test (f []) x := by
  induction x with
  | nil => rfl
  | cons c x ih =>
    rw [dropWhile_cons, looksPast]
    split_ifs
    · exact ih
    · exact h c x

theorem pipeNext_eq (x : Text) :
    pipeNext x = looksPast (fun c => c == ' ' || c == '\t') (fun c d => c == '|' && d == some '>') false x := by
  refine looksPast_eq (fun c x => ?_) x
  cases x <;> simp [isPrefixOf, Bool.beq_comm]

theorem trails_cons : trails (c :: x) = true ↔
    ((c = ' ' ∨ c = '\t' ∨ c = '\r') ∧ trails x = true) ∨ c = '\n' ∨ (c = '-' ∧ x.head? = some '-') := by
  rw [trails, looksPast]
  by_cases hc : c = ' ' ∨ c = '\t' ∨ c = '\r'
  · rw [if_pos (by simpa [or_assoc] using hc)]
    rcases hc with rfl | rfl | rfl <;> simp
  · rw [if_neg (by simpa [or_assoc] using hc)]
    simp [hc]

/-- A letter or an underscore, and then letters, digits and underscores. -/
def isLabel (label : Text) : Bool := label.head?.any (fun c => c.isAlpha || c == '_') && label.all isLabelChar

theorem not_mem_label (h : isLabel label = true) (hc : isLabelChar c = false) : c ∉ label := by
  intro hmem
  rw [all_eq_true.1 (Bool.and_eq_true_iff.1 h).2 c hmem] at hc
  cases hc

theorem heredocLabel?_eq_some_iff :
    heredocLabel? x = some label ↔ ∃ r, x = label ++ r ∧ isLabel label = true ∧ trails r = true := by
  have htrails := @looksPast_eq (fun z => z.isEmpty || "\n".toList.isPrefixOf z || "--".toList.isPrefixOf z)
    (fun c => c == ' ' || c == '\t' || c == '\r') (fun c d => c == '\n' || (c == '-' && d == some '-'))
    fun c x => by cases x <;> simp [isPrefixOf, Bool.beq_comm]
  unfold heredocLabel?
  simp only [htrails]
  constructor
  · intro h
    split_ifs at h with hcond
    cases h
    rw [Bool.and_eq_true] at hcond
    exact ⟨_, takeWhile_append_dropWhile.symm, by rw [isLabel, hcond.1, all_takeWhile]; rfl, hcond.2⟩
  · rintro ⟨r, rfl, hlabel, hr⟩
    rw [isLabel, Bool.and_eq_true] at hlabel
    have hend : r.takeWhile isLabelChar = [] ∧ r.dropWhile isLabelChar = r := by
      cases r with
      | nil => exact ⟨rfl, rfl⟩
      | cons c r =>
        have hc : isLabelChar c = false := by
          rcases trails_cons.1 hr with ⟨rfl | rfl | rfl, -⟩ | rfl | ⟨rfl, -⟩ <;> decide
        simp [hc]
    rw [takeWhile_append_of_pos (all_eq_true.1 hlabel.2), dropWhile_append_of_pos (all_eq_true.1 hlabel.2),
      hend.1, hend.2, append_nil, hlabel.1]
    exact if_pos hr

def EndsLine (r : Text) : Prop := ∀ c ∈ r.head?, c = '\n'

theorem exists_line (x : Text) : ∃ u r, x = u ++ r ∧ '\n' ∉ u ∧ EndsLine r := by
  refine ⟨_, _, (takeWhile_append_dropWhile (p := (· != '\n'))).symm, ?_, fun c hc => ?_⟩
  · exact fun h => by simpa using mem_takeWhile_imp h
  · simpa [Option.mem_def.1 hc] using head?_dropWhile_not (· != '\n') x

def ClosesComment (u : Text) : Prop := ∀ p y, afterComment 1 p (u ++ y) = some (p.after u, y)

/-! ## Literals of lines -/

def Closes (label line : Text) : Prop := trimmed (withoutReturn line) = label

/-- `Collects label x raws r`: in `x` the lines `raws` come before the one that ends the literal, and `r` comes after it. -/
inductive Collects (label : Text) : Text → List Text → Text → Prop
  | atEnd {line : Text} (hline : '\n' ∉ line) (closes : Closes label line) : Collects label line [] []
  | closed {line r : Text} (hline : '\n' ∉ line) (closes : Closes label line) : Collects label (line ++ '\n' :: r) [] r
  | line {line x r : Text} {raws : List Text} (hline : '\n' ∉ line) (opened : ¬Closes label line)
      (rest : Collects label x raws r) : Collects label (line ++ '\n' :: x) (line :: raws) r

theorem heredocLines_of_not_mem (hx : '\n' ∉ x) :
    heredocLines label x = if trimmed (withoutReturn x) == label then some ([], 0, []) else none := by
  unfold heredocLines
  rw [splitAt_of_not_mem hx]
  by_cases h : trimmed (withoutReturn x) = label <;> simp [h]

theorem heredocLines_line {label line : Text} (hline : '\n' ∉ line) (x : Text) :
    heredocLines label (line ++ '\n' :: x) = if trimmed (withoutReturn line) == label then some ([], 0, x)
      else (heredocLines label x).map fun p => (withoutReturn line :: p.1, p.2.1 + 1, p.2.2) := by
  have hsum : ∀ (parts : List Text) (a : Nat), parts.foldl (fun n part => n + part.length + 1) a =
      a + parts.foldl (fun n part => n + part.length + 1) 0 := by
    intro parts
    induction parts with
    | nil => simp
    | cons part parts ih =>
      intro a
      rw [foldl_cons, foldl_cons, ih, ih (0 + part.length + 1)]
      omega
  unfold heredocLines
  rw [splitAt_cons hline]
  by_cases h : trimmed (withoutReturn line) = label
  · simp [findIdx?_cons, h]
  · cases hk : (splitAt '\n' x).findIdx? fun line => trimmed (withoutReturn line) == label with
    | none => simp [findIdx?_cons, h, hk]
    | some k =>
      have hfirst : (trimmed (withoutReturn line) == label) = false := by simpa using h
      simp only [findIdx?_cons, hfirst, hk, Option.map_some, take_succ_cons, foldl_cons, map_cons,
        Bool.false_eq_true, if_false]
      rw [hsum, show 0 + line.length + 1 = (line ++ ['\n']).length by simp, ← drop_drop,
        show line ++ '\n' :: x = line ++ ['\n'] ++ x by simp, drop_left]

theorem heredocLines_eq_some_iff {ls : List Text} {n : Nat} :
    heredocLines label x = some (ls, n, r) ↔ ∃ raws, Collects label x raws r ∧ ls = raws.map withoutReturn ∧ n = raws.length := by
  constructor
  · intro h
    induction hn : x.length using Nat.strong_induction_on generalizing x ls n with
    | _ m ih =>
    by_cases hx : '\n' ∈ x
    · obtain ⟨line, x, rfl, hline⟩ := eq_append_cons_of_mem hx
      rw [heredocLines_line hline] at h
      split_ifs at h with hclose
      · cases h
        exact ⟨[], .closed hline (eq_of_beq hclose), rfl, rfl⟩
      · obtain ⟨p, hp, hpr⟩ := Option.map_eq_some_iff.1 h
        cases hpr
        obtain ⟨raws, hraws, hls, hlength⟩ := ih x.length (by simp [← hn]; omega) hp rfl
        exact ⟨line :: raws, .line hline (by simpa [Closes] using hclose) hraws, by simp [hls], by simp [hlength]⟩
    · rw [heredocLines_of_not_mem hx] at h
      split_ifs at h with hclose
      cases h
      exact ⟨[], .atEnd hx (eq_of_beq hclose), rfl, rfl⟩
  · rintro ⟨raws, h, rfl, rfl⟩
    induction h with
    | atEnd hline hclose => rw [heredocLines_of_not_mem hline, if_pos (beq_iff_eq.2 hclose)]; rfl
    | closed hline hclose => rw [heredocLines_line hline, if_pos (beq_iff_eq.2 hclose)]; rfl
    | line hline hopen _ ih =>
      rw [heredocLines_line hline, if_neg (by simpa [Closes] using hopen), ih]
      rfl

theorem Collects.suffix (h : Collects label x raws r) : r <:+ x := by
  induction h with
  | atEnd => exact nil_suffix
  | closed => exact (suffix_cons _ _).trans (suffix_append _ _)
  | line _ _ _ ih => exact ih.trans ((suffix_cons _ _).trans (suffix_append _ _))

theorem Collects.split (h : Collects label x raws r) (hr : r ≠ []) :
    ∃ u, x = u ++ '\n' :: r ∧ (∀ p : Position, p.after (u ++ ['\n']) = p.down (raws.length + 1)) ∧
      ∀ y, Collects label (u ++ '\n' :: y) raws y := by
  have hafter : ∀ {line : Text} (p : Position), '\n' ∉ line → p.after (line ++ ['\n']) = p.down 1 := fun p hline => by
    rw [after_append, after_of_not_mem hline]
    rfl
  induction h with
  | atEnd => exact absurd rfl hr
  | @closed line r hline hclose => exact ⟨line, rfl, fun p => hafter p hline, fun y => .closed hline hclose⟩
  | @line line x r raws hline hopen _ ih =>
    obtain ⟨u, rfl, hu, hcollects⟩ := ih hr
    refine ⟨line ++ '\n' :: u, by simp, fun p => ?_, fun y => ?_⟩
    · rw [show line ++ '\n' :: u ++ ['\n'] = line ++ ['\n'] ++ (u ++ ['\n']) by simp, after_append, hafter p hline, hu]
      simp [Position.down]
      omega
    · rw [append_assoc]
      exact .line hline hopen (hcollects y)

/-! ## Tokens -/

inductive Lexes : TokenKind → Text → Text → Prop
  | semicolon {r : Text} : Lexes .endOfClause ";" r
  | literal {quote : Quote} {body r : Text} (quoted : quote ≠ .heredoc) (oneLine : '\n' ∉ body)
      (ends : quote.char ∉ r.head?) :
      Lexes (.literal quote body) (quote.char :: (body.doubling quote.char ++ [quote.char])) r
  | number {w r : Text} (begins : w.beginsNumber = true) (ends : numberWord true (w ++ r) = w) :
      Lexes (.number (Text.upper w)) w r
  | name {w r : Text} (nonempty : w ≠ []) (chars : w.all isSymbolChar = true) (begins : w.beginsNumber = false)
      (ends : ∀ c ∈ r.head?, isSymbolChar c = false) : Lexes (.ofName (Text.upper w)) w r
  | mark {m : Mark} {r : Text} (longest : Mark.atStart? (m.spelling ++ r) = some m)
      (uncommented : opensComment (m.spelling ++ r) = false) (single : heredocAt? (m.spelling ++ r) = none) :
      Lexes (.mark m) m.spelling r

theorem isSymbolChar_of_isDigit (h : c.isDigit = true) : isSymbolChar c = true := by
  simp [isSymbolChar, Char.isAlphanum, h]

theorem isSymbolChar_of_beginsNumber (h : beginsNumber (c :: w) = true) : isSymbolChar c = true := by
  rcases Bool.or_eq_true_iff.1 h with hd | hp
  · exact isSymbolChar_of_isDigit hd
  · rw [eq_of_beq (Bool.and_eq_true_iff.1 hp).1]
    decide

theorem beginsNumber_append (hr : ∀ d ∈ r.head?, isSymbolChar d = false) :
    (c.isDigit || (c == '.' && (w ++ r).head?.any Char.isDigit)) = beginsNumber (c :: w) := by
  cases w with
  | cons d w => rfl
  | nil =>
    cases r with
    | nil => rfl
    | cons d r =>
      have hd : d.isDigit = false := by
        by_contra hd
        rw [Bool.not_eq_false] at hd
        exact absurd (isSymbolChar_of_isDigit hd) (by rw [hr d rfl]; decide)
      simp [beginsNumber, hd]

theorem spelling_isInitial {m : Mark} (h : Mark.atStart? x = some m) : m.spelling <+: x :=
  isPrefixOf_iff_prefix.1 (find?_some (p := fun m : Mark => m.spelling.isPrefixOf x) h)

theorem spelling_cons (m : Mark) : ∃ c w, m.spelling = c :: w ∧ isSymbolChar c = false ∧
    c ∉ ['\n', ' ', '\t', '\r', ';', '\x22', '\x27', '\x60'] := by
  cases m <;> exact ⟨_, _, rfl, by decide, by decide⟩

theorem Lexes.ne_nil (h : Lexes k w r) : w ≠ [] := by
  cases h with
  | semicolon => decide
  | literal => simp
  | number hbegins => rintro rfl; cases hbegins
  | name hne => exact hne
  | @mark m =>
    obtain ⟨c, w, hw, -⟩ := spelling_cons m
    rw [hw]
    simp

theorem Lexes.ne_endOfSource (h : Lexes k w r) : k ≠ .endOfSource := by
  cases h with
  | name =>
    unfold TokenKind.ofName
    split <;> simp
  | _ => simp

theorem Lexes.trails_eq_false (h : Lexes k w r) : trails (w ++ r) = false := by
  have hsymbol : ∀ {c : Char} {w : Text}, isSymbolChar c = true → trails (c :: w) = false := by
    intro c w hc
    rw [Bool.eq_false_iff]
    intro htrails
    rcases trails_cons.1 htrails with ⟨rfl | rfl | rfl, -⟩ | rfl | ⟨rfl, -⟩ <;> cases hc
  cases h with
  | semicolon => rfl
  | @literal quote => cases quote <;> rfl
  | number hbegins =>
    cases w with
    | nil => cases hbegins
    | cons c w => exact hsymbol (isSymbolChar_of_beginsNumber hbegins)
  | name hne hall =>
    cases w with
    | nil => exact absurd rfl hne
    | cons c w => exact hsymbol (all_eq_true.1 hall c mem_cons_self)
  | @mark m _ _ hcomment =>
    obtain ⟨c, w, hw, -, hplain⟩ := spelling_cons m
    rw [hw, cons_append] at hcomment ⊢
    rw [Bool.eq_false_iff] at hcomment ⊢
    intro htrails
    rcases trails_cons.1 htrails with ⟨rfl | rfl | rfl, -⟩ | rfl | ⟨rfl, hr⟩
    · exact hplain (by decide)
    · exact hplain (by decide)
    · exact hplain (by decide)
    · exact hplain (by decide)
    · obtain ⟨y, hy⟩ := head?_eq_some_iff.1 hr
      exact hcomment (opensComment_iff.2 (.inr ⟨y, by rw [hy]⟩))

namespace State

variable {s s' t : State}

theorem emit_rest (hs : s.rest = w ++ r) : (s.emit k w).rest = r := by
  simp [emit, hs]

def announce (s : State) (label : Text) : State :=
  { s.emit (.literal .heredoc []) ("<<" ++ label) with heredoc := some (label, s.pos) }

/-! ## Steps of the reader -/

theorem step_eq_of_plain (hs : s.rest = c :: x) (hc : c ≠ '\n') (hcomment : opensComment (c :: x) = false) : s.step =
      if c = ' ' ∨ c = '\t' ∨ c = '\r' then .ok (s.skip x (s.pos.right 1) true)
      else if c = ';' then .ok (s.emit .endOfClause ";")
      else if c = '\x22' then s.literal c .double x
      else if c = '\x27' then s.literal c .single x
      else if c = '\x60' then s.literal c .back x
      else (heredocAt? s.rest).elim (s.word c x) fun label => .ok (s.announce label) := by
  unfold step
  split
  · next h => rw [hs] at h; cases h
  · next h => rw [hs] at h; exact absurd (cons.inj h).1 hc
  · next h => rw [← hs, h] at hcomment; cases hcomment
  · next h => rw [← hs, h] at hcomment; cases hcomment
  · next h =>
    rw [hs] at h
    obtain ⟨rfl, rfl⟩ := cons.inj h
    unfold heredocAt? heredoc?
    split_ifs <;> first | rfl | cases heredocLabel? (drop 2 s.rest) <;> rfl

theorem step_comment (hs : s.rest = '/' :: '*' :: y) :
    s.step = ((afterComment 1 (s.pos.right 2) y).map fun p => .ok (s.skip p.2 p.1 true)).getD
      (.error ⟨.unterminatedComment, s.pos⟩) := by
  obtain ⟨rest, pos, blank, tokens, heredoc⟩ := s
  cases hs
  cases h : afterComment 1 (pos.right 2) y <;> simp [step, h]

theorem step_remark (hs : s.rest = '-' :: '-' :: (x ++ r)) (hx : '\n' ∉ x) (hr : EndsLine r) :
    s.step = .ok (s.skip r (s.pos.right (x.length + 2)) false) := by
  have hdrop : (x ++ r).dropWhile (· != '\n') = r := by
    rw [dropWhile_append_of_pos fun c hc => by simpa using fun h : c = '\n' => hx (h ▸ hc)]
    cases r with
    | nil => rfl
    | cons c r => simp [hr c rfl]
  obtain ⟨rest, pos, blank, tokens, heredoc⟩ := s
  cases hs
  have hlength : ('-' :: '-' :: (x ++ r)).length - r.length = x.length + 2 := by
    simp only [length_cons, length_append]
    omega
  simp only [step, hdrop, hlength]

def ended (e : State) (p : Position) : State :=
  if e.tokens.head?.any (·.isMark .comma) then { e with tokens := e.tokens.tail, blank := true }
  else if pipeNext e.rest then { e with blank := true }
  else { e with blank := false, tokens := ⟨.endOfClause, "\n", p, e.blank⟩ :: e.tokens }

variable {p : Position} {n : Nat} {e : State}

theorem ended_rest : (e.ended p).rest = e.rest := by
  unfold ended
  split_ifs <;> rfl

theorem ended_heredoc : (e.ended p).heredoc = e.heredoc := by
  unfold ended
  split_ifs <;> rfl

theorem newline_eq : s.newline r = (collect { s with rest := r, pos := s.pos.down 1 }).map (·.ended s.pos) := by
  unfold newline
  cases collect { s with rest := r, pos := s.pos.down 1 } with
  | error e => rfl
  | ok e =>
    obtain ⟨rest, pos, blank, tokens, heredoc⟩ := e
    cases tokens with
    | nil =>
      simp only [bind, Except.bind, pure, Except.pure, Except.map, ended]
      split_ifs <;> simp_all
    | cons t ts =>
      simp only [bind, Except.bind, pure, Except.pure, Except.map, ended]
      split_ifs <;> simp_all

def complete (s : State) (label : Text) (t : Token) (ts : List Token) (raws : List Text) (r : Text) : State :=
  let body : Text := ['\n'].intercalate (raws.map withoutReturn)
  { s with
    rest := r, pos := s.pos.down (raws.length + 1), heredoc := none
    tokens := { t with kind := .literal .heredoc body, raw := t.raw ++ '\n' :: body ++ '\n' :: label } :: ts }

theorem collect_of_collects {label : Text} {pos : Position} {t : Token} {ts : List Token} {raws : List Text}
    (hh : s.heredoc = some (label, pos)) (ht : s.tokens = t :: ts) (h : Collects label s.rest raws r) :
    s.collect = .ok (s.complete label t ts raws r) := by
  have hlines := heredocLines_eq_some_iff.2 ⟨raws, h, rfl, rfl⟩
  obtain ⟨rest, place, blank, tokens, heredoc⟩ := s
  cases hh
  cases ht
  simp only [collect, hlines, complete]

theorem collect_cases (h : s.collect = .ok e) : e = s ∧ (s.heredoc = none ∨ s.tokens = []) ∨
    ∃ label pos t ts raws r, s.heredoc = some (label, pos) ∧ s.tokens = t :: ts ∧ Collects label s.rest raws r ∧
      e = s.complete label t ts raws r := by
  unfold collect at h
  split at h
  · next label pos t ts hh ht =>
    split at h
    · cases h
    · next lines n r hlines =>
      cases h
      obtain ⟨raws, hraws, rfl, rfl⟩ := heredocLines_eq_some_iff.1 hlines
      exact .inr ⟨label, pos, t, ts, raws, r, hh, ht, hraws, rfl⟩
  · next hnot =>
    cases h
    refine .inl ⟨rfl, ?_⟩
    cases hh : s.heredoc with
    | none => exact .inl rfl
    | some p =>
      cases ht : s.tokens with
      | nil => exact .inr rfl
      | cons t ts => exact (hnot _ _ _ _ hh ht).elim

inductive Reads (s : State) : State → Prop
  | blank {c : Char} {r : Text} (hs : s.rest = c :: r) (hc : c = ' ' ∨ c = '\t' ∨ c = '\r') : Reads s (s.skip r (s.pos.right 1) true)
  | comment {u r : Text} (hs : s.rest = '/' :: '*' :: (u ++ r)) (hu : ClosesComment u) :
      Reads s (s.skip r ((s.pos.right 2).after u) true)
  | remark {u r : Text} (hs : s.rest = '-' :: '-' :: (u ++ r)) (hu : '\n' ∉ u) (hr : EndsLine r) :
      Reads s (s.skip r (s.pos.right (u.length + 2)) false)
  | token {k : TokenKind} {w r : Text} (hs : s.rest = w ++ r) (hw : Lexes k w r) : Reads s (s.emit k w)
  | announce {label r : Text} (hs : s.rest = "<<" ++ (label ++ r)) (hl : heredocLabel? (label ++ r) = some label) :
      Reads s (s.announce label)
  | line {e : State} {r : Text} (hs : s.rest = '\n' :: r)
      (he : collect { s with rest := r, pos := s.pos.down 1 } = .ok e) : Reads s (e.ended s.pos)

theorem literal_reads {quote : Quote} (hquote : quote ≠ .heredoc) (hs : s.rest = quote.char :: x)
    (h : s.literal quote.char quote x = .ok s') : s.Reads s' := by
  unfold literal at h
  cases hbody : quotedBody quote.char x with
  | none =>
    rw [hbody] at h
    cases h
  | some p =>
    rw [hbody] at h
    cases h
    obtain ⟨hx, hline, hr⟩ := (quotedBody_eq_some_iff (by cases quote <;> decide)).1 hbody
    have hrest : s.rest = quote.char :: (p.1.doubling quote.char ++ [quote.char]) ++ p.2 := by simp [hs, hx]
    have hbefore : before s.rest p.2 = quote.char :: (p.1.doubling quote.char ++ [quote.char]) := by
      rw [before, hrest, length_append, Nat.add_sub_cancel, take_left]
    rw [hbefore]
    exact .token hrest (.literal hquote hline hr)

theorem word_reads (hs : s.rest = c :: x) (hcomment : opensComment s.rest = false) (hheredoc : heredocAt? s.rest = none)
    (h : s.word c x = .ok s') : s.Reads s' := by
  unfold word at h
  split_ifs at h with hnumber hsymbol
  · cases h
    obtain ⟨r, hr, hend⟩ := numberWord_split true s.rest
    cases hw : numberWord true s.rest with
    | nil => exact absurd (hs ▸ hw) (numberWord_ne_nil (isSymbolChar_of_beginsNumber hnumber) x)
    | cons d w =>
      rw [hw, hs, cons_append] at hr
      obtain ⟨rfl, rfl⟩ := cons.inj hr
      refine .token hs (.number (by rwa [beginsNumber_append hend] at hnumber) ?_)
      rw [cons_append, ← hs, hw]
  · obtain ⟨w, hw⟩ : ∃ w, s.rest.takeWhile isSymbolChar = c :: w := ⟨_, by rw [hs, takeWhile_cons_of_pos hsymbol]⟩
    have hsplit : s.rest.takeWhile isSymbolChar ++ s.rest.dropWhile isSymbolChar = s.rest := takeWhile_append_dropWhile
    have hend : ∀ d ∈ (s.rest.dropWhile isSymbolChar).head?, isSymbolChar d = false := by
      intro d hd
      simpa [Option.mem_def.1 hd] using head?_dropWhile_not isSymbolChar s.rest
    have hbegins : beginsNumber (c :: w) = false := by
      rw [hw, hs, cons_append] at hsplit
      rwa [← (cons.inj hsplit).2, beginsNumber_append (hs ▸ hend), Bool.not_eq_true] at hnumber
    have hname : s.Reads (s.emit (.ofName (upper (s.rest.takeWhile isSymbolChar))) (s.rest.takeWhile isSymbolChar)) :=
      .token hsplit.symm (.name (by rw [hw]; simp) all_takeWhile (hw ▸ hbegins) hend)
    unfold TokenKind.ofName at hname
    cases hk : Keyword.ofText? (upper (s.rest.takeWhile isSymbolChar)) <;> simp only [hk] at h hname <;> cases h <;>
      exact hname
  · cases hm : Mark.atStart? s.rest with
    | none =>
      rw [hm] at h
      cases h
    | some m =>
      rw [hm] at h
      cases h
      obtain ⟨r, hr⟩ := spelling_isInitial hm
      exact .token hr.symm (.mark (by rwa [hr]) (by rwa [hr]) (by rwa [hr]))

theorem step_reads (hne : s.rest ≠ []) (h : s.step = .ok s') : s.Reads s' := by
  obtain ⟨c, x, hs⟩ := exists_cons_of_ne_nil hne
  by_cases hline : c = '\n'
  · subst hline
    unfold step at h
    rw [hs] at h
    have h : s.newline x = .ok s' := h
    rw [newline_eq] at h
    cases he : collect { s with rest := x, pos := s.pos.down 1 } with
    | error e =>
      rw [he] at h
      cases h
    | ok e =>
      rw [he] at h
      cases h
      exact .line hs he
  by_cases hcomment : opensComment (c :: x) = true
  · rcases opensComment_iff.1 hcomment with ⟨y, hy⟩ | ⟨y, hy⟩
    · rw [hy] at hs
      rw [step_comment hs] at h
      cases hend : afterComment 1 (s.pos.right 2) y with
      | none =>
        rw [hend] at h
        cases h
      | some p =>
        rw [hend] at h
        cases h
        obtain ⟨u, rfl, hp, hu⟩ := afterComment_split hend
        rw [hp]
        exact .comment hs hu
    · rw [hy] at hs
      obtain ⟨u, r, rfl, hu, hr⟩ := exists_line y
      rw [step_remark hs hu hr] at h
      cases h
      exact .remark hs hu hr
  rw [Bool.not_eq_true] at hcomment
  rw [step_eq_of_plain hs hline hcomment] at h
  split_ifs at h with hblank hsemi hdouble hsingle hback
  · cases h
    exact .blank hs hblank
  · cases h
    exact .token (hs.trans (by rw [hsemi]; rfl)) .semicolon
  · subst hdouble
    exact literal_reads (show Quote.double ≠ .heredoc by simp) hs h
  · subst hsingle
    exact literal_reads (show Quote.single ≠ .heredoc by simp) hs h
  · subst hback
    exact literal_reads (show Quote.back ≠ .heredoc by simp) hs h
  · cases hl : heredocAt? s.rest with
    | none =>
      rw [hl] at h
      exact word_reads hs (hs ▸ hcomment) hl h
    | some label =>
      rw [hl] at h
      cases h
      unfold heredocAt? at hl
      split_ifs at hl with hlt
      obtain ⟨y, hy⟩ := isPrefixOf_iff_prefix.1 hlt
      have hdrop : s.rest.drop 2 = y := by rw [← hy]; rfl
      rw [hdrop] at hl
      obtain ⟨r, rfl, -⟩ := heredocLabel?_eq_some_iff.1 hl
      exact .announce hy.symm hl

theorem step_eq_word (hs : s.rest = c :: x) (hc : isSymbolChar c = true) : s.step = s.word c x := by
  have hne : ∀ d : Char, isSymbolChar d = false → c ≠ d := by
    rintro d hd rfl
    rw [hd] at hc
    cases hc
  have hopen : opensComment (c :: x) = false := by
    rw [Bool.eq_false_iff, Ne, opensComment_iff]
    rintro (⟨y, hy⟩ | ⟨y, hy⟩) <;> exact hne _ (by decide) (cons.inj hy).1
  have hlines : heredocAt? s.rest = none := by
    have hlt : ('<' == c) = false := beq_eq_false_iff_ne.2 (hne '<' (by decide)).symm
    simp [heredocAt?, hs, isPrefixOf, hlt]
  rw [step_eq_of_plain hs (hne _ (by decide)) hopen, hlines]
  simp [hne ' ' (by decide), hne '\t' (by decide), hne '\r' (by decide), hne ';' (by decide), hne '\x22' (by decide),
    hne '\x27' (by decide), hne '\x60' (by decide)]

theorem step_of_lexes (h : Lexes k w r) (hs : s.rest = w ++ r) : s.step = .ok (s.emit k w) := by
  cases h with
  | semicolon =>
    obtain ⟨rest, pos, blank, tokens, heredoc⟩ := s
    cases hs
    rfl
  | @literal quote body _ hquote hline hr =>
    have hread := (quotedBody_eq_some_iff (q := quote.char) (by cases quote <;> decide)).2 ⟨rfl, hline, hr⟩
    have hstep : s.step = s.literal quote.char quote (Text.doubling quote.char body ++ quote.char :: r) := by
      obtain ⟨rest, pos, blank, tokens, heredoc⟩ := s
      cases hs
      cases quote <;> first | exact absurd rfl hquote | simp [step, Quote.char]
    rw [hstep, State.literal, hread]
    simp only [Text.before, hs, List.length_append, Nat.add_sub_cancel, List.take_left]
  | number hbegins hend =>
    have hr : ∀ d ∈ r.head?, isSymbolChar d = false := by
      obtain ⟨r', hsplit, hr'⟩ := numberWord_split true (w ++ r)
      rw [hend] at hsplit
      rwa [List.append_cancel_left hsplit]
    cases w with
    | nil => cases hbegins
    | cons c w =>
      rw [step_eq_word (x := w ++ r) hs (isSymbolChar_of_beginsNumber hbegins), State.word,
        beginsNumber_append hr, if_pos hbegins, hs, hend]
  | name hne hall hbegins hr =>
    cases w with
    | nil => exact absurd rfl hne
    | cons c w =>
      have hc : isSymbolChar c = true := List.all_eq_true.1 hall c List.mem_cons_self
      have hword : s.rest.takeWhile isSymbolChar = c :: w := by
        rw [hs, List.takeWhile_append_of_pos (List.all_eq_true.1 hall)]
        cases r with
        | nil => simp
        | cons d r => simp [hr d rfl]
      rw [step_eq_word (x := w ++ r) hs hc, State.word, beginsNumber_append hr, hbegins, hword]
      unfold TokenKind.ofName
      cases hk : Keyword.ofText? (Text.upper (c :: w)) <;> simp [hc, hk]
  | @mark m _ hlongest hcomment hsingle =>
    obtain ⟨c, w, hw, hc, hplain⟩ := spelling_cons m
    rw [hw, List.cons_append] at hs hcomment
    have hrest : s.rest = m.spelling ++ r := by rw [hs, hw, List.cons_append]
    simp only [List.mem_cons, List.not_mem_nil, or_false, not_or] at hplain
    rw [step_eq_of_plain hs hplain.1 hcomment, hrest, hsingle]
    have hdigit : (c.isDigit || (c == '.' && (w ++ r).head?.any Char.isDigit)) = false := by
      rw [Bool.eq_false_iff]
      intro h
      rw [isSymbolChar_of_beginsNumber (w := w ++ r) h] at hc
      cases hc
    simp only [hplain, or_self, if_false, Option.elim_none, State.word, hdigit, hc, hrest, hlongest, Bool.false_eq_true]

theorem Reads.step (h : s.Reads s') : s.step = .ok s' := by
  cases h with
  | @blank c r hs hc =>
    have hline : c ≠ '\n' := by rcases hc with rfl | rfl | rfl <;> decide
    have hcomment : opensComment (c :: r) = false := by rcases hc with rfl | rfl | rfl <;> rfl
    rw [step_eq_of_plain hs hline hcomment, if_pos hc]
  | comment hs hu =>
    rw [step_comment hs, hu]
    rfl
  | remark hs hu hr => exact step_remark hs hu hr
  | token hs hw => exact step_of_lexes hw hs
  | @announce label r hs hl =>
    have hlines : heredocAt? s.rest = some label := by
      rw [heredocAt?, hs]
      exact hl
    rw [step_eq_of_plain (c := '<') hs (by decide) rfl, hlines]
    rfl
  | @line e r hs he =>
    have hstep : s.step = s.newline r := by
      obtain ⟨rest, pos, blank, tokens, heredoc⟩ := s
      cases hs
      rfl
    rw [hstep, newline_eq, he]
    rfl

theorem Reads.rest (h : s.Reads s') : ∃ u, u ≠ [] ∧ s.rest = u ++ s'.rest := by
  cases h with
  | @blank c r hs => exact ⟨[c], by simp, hs⟩
  | @comment u r hs => exact ⟨'/' :: '*' :: u, by simp, hs⟩
  | @remark u r hs => exact ⟨'-' :: '-' :: u, by simp, hs⟩
  | @token k w r hs hw => exact ⟨w, hw.ne_nil, by rw [emit_rest hs, hs]⟩
  | @announce label r hs =>
    refine ⟨"<<".toList ++ label, by simp, ?_⟩
    rw [State.announce, emit_rest (hs.trans (List.append_assoc ..).symm), hs, List.append_assoc]
  | @line e r hs he =>
    rw [ended_rest, hs]
    rcases collect_cases he with ⟨rfl, -⟩ | ⟨label, pos, t, ts, raws, r', -, -, hraws, rfl⟩
    · exact ⟨['\n'], by simp, rfl⟩
    · obtain ⟨u, hu⟩ := hraws.suffix
      exact ⟨'\n' :: u, by simp, congrArg ('\n' :: ·) hu.symm⟩

theorem Reads.length_lt (h : s.Reads s') : s'.rest.length < s.rest.length := by
  obtain ⟨u, hne, hu⟩ := h.rest
  have hpos := length_pos_iff.2 hne
  rw [hu, length_append]
  omega

/-- **Between its announcement and the end of that line a literal of lines is the last token**, and nothing comes but blanks
and a comment. -/
def Announced (s : State) : Prop :=
  ∀ p ∈ s.heredoc, isLabel p.1 = true ∧ trails s.rest = true ∧
    ∃ blank ts, s.tokens = ⟨.literal .heredoc [], "<<" ++ p.1, p.2, blank⟩ :: ts

theorem Announced.collect (h : s.Announced) (he : collect { s with rest := r, pos := p } = .ok e) :
    s.heredoc = none ∧ e = { s with rest := r, pos := p } ∨
    ∃ label pos blank ts raws r', s.heredoc = some (label, pos) ∧ isLabel label = true ∧
      s.tokens = ⟨.literal .heredoc [], "<<" ++ label, pos, blank⟩ :: ts ∧ Collects label r raws r' ∧
      e = complete { s with rest := r, pos := p } label ⟨.literal .heredoc [], "<<" ++ label, pos, blank⟩ ts raws r' := by
  rcases collect_cases he with ⟨rfl, hnone⟩ | ⟨label, pos, t, ts, raws, r', hh, ht, hraws, rfl⟩
  · refine .inl ⟨?_, rfl⟩
    cases hh : s.heredoc with
    | none => rfl
    | some p =>
      obtain ⟨-, -, blank, ts, hts⟩ := h p hh
      rcases hnone with hnone | hnil
      · exact absurd (hh.symm.trans hnone) (by simp)
      · exact absurd (hts.symm.trans hnil) (by simp)
  · obtain ⟨hlabel, -, blank, us, hus⟩ := h _ hh
    obtain ⟨rfl, rfl⟩ := cons.inj (ht.symm.trans hus)
    exact .inr ⟨label, pos, blank, ts, raws, r', hh, hlabel, ht, hraws, rfl⟩

theorem Announced.heredoc_eq_none (h : s.Announced) (hs : trails s.rest = false) : s.heredoc = none := by
  refine Option.eq_none_iff_forall_not_mem.2 fun p hp => ?_
  rw [(h p hp).2.1] at hs
  cases hs

theorem Announced.of_none (hs : s.heredoc = none) : s.Announced := by
  simp [Announced, hs]

theorem Announced.reads (h : s.Announced) (hs : s.Reads s') : s'.Announced := by
  cases hs with
  | @blank c r hrest hc =>
    intro p hp
    obtain ⟨hlabel, htrails, hts⟩ := h p hp
    rw [hrest, trails_cons] at htrails
    refine ⟨hlabel, ?_, hts⟩
    rcases htrails with ⟨-, htrails⟩ | rfl | ⟨rfl, -⟩
    · exact htrails
    · simp at hc
    · simp at hc
  | comment hrest => exact .of_none (h.heredoc_eq_none (by rw [hrest]; rfl))
  | @remark u r hrest hu hr =>
    intro p hp
    obtain ⟨hlabel, -, hts⟩ := h p hp
    refine ⟨hlabel, ?_, hts⟩
    cases r with
    | nil => rfl
    | cons c r => exact trails_cons.2 (.inr (.inl (hr c rfl)))
  | token hrest hw => exact .of_none (h.heredoc_eq_none (by rw [hrest]; exact hw.trails_eq_false))
  | @announce label r hrest hl =>
    rintro p ⟨⟩
    obtain ⟨y, hy, hlabel, htrails⟩ := heredocLabel?_eq_some_iff.1 hl
    obtain rfl := append_cancel_left hy
    refine ⟨hlabel, ?_, _, _, rfl⟩
    rwa [announce, emit_rest (hrest.trans (append_assoc ..).symm)]
  | @line e r hrest he =>
    refine .of_none (ended_heredoc.trans ?_)
    rcases h.collect he with ⟨hnone, rfl⟩ | ⟨label, pos, blank, ts, raws, r', -, -, -, -, rfl⟩
    · exact hnone
    · rfl

/-! ## Whole texts -/

def Reaches : State → State → Prop := Relation.ReflTransGen Reads

theorem Reaches.suffix (h : Reaches s t) : t.rest <:+ s.rest := by
  induction h with
  | refl => exact suffix_rfl
  | tail _ hlast ih =>
    obtain ⟨u, -, hu⟩ := hlast.rest
    exact (hu ▸ suffix_append u _).trans ih

theorem run_of_rest_nil (hs : s.rest = []) : run n s = .ok s := by
  cases n with
  | zero => rfl
  | succ n => rw [run, hs]; rfl

theorem run_of_reads (h : s.Reads s') : run (n + 1) s = run n s' := by
  obtain ⟨u, hne, hu⟩ := h.rest
  have hrest : s.rest.isEmpty = false := by cases u <;> simp_all
  rw [run, hrest, h.step]
  rfl

theorem Reaches.run (h : Reaches s t) (hn : s.rest.length ≤ n) : ∃ m, t.rest.length ≤ m ∧ run n s = run m t := by
  induction h with
  | refl => exact ⟨n, hn, rfl⟩
  | tail _ hlast ih =>
    obtain ⟨m, hm, hrun⟩ := ih
    have hlt := hlast.length_lt
    obtain ⟨m, rfl⟩ : ∃ k, m = k + 1 := ⟨m - 1, by omega⟩
    exact ⟨m, by omega, hrun.trans (run_of_reads hlast)⟩

theorem reaches_of_run (h : run n s = .ok t) : Reaches s t ∧ t.rest.length ≤ s.rest.length - n := by
  induction n generalizing s with
  | zero =>
    cases h
    exact ⟨.refl, le_refl _⟩
  | succ n ih =>
    by_cases hnil : s.rest = []
    · rw [run_of_rest_nil hnil] at h
      cases h
      exact ⟨.refl, by simp [hnil]⟩
    · have hempty : s.rest.isEmpty = false := by simpa using hnil
      cases hstep : s.step with
      | error e =>
        rw [run, hempty, hstep] at h
        cases h
      | ok s1 =>
        have hreads := step_reads hnil hstep
        rw [run_of_reads hreads] at h
        obtain ⟨hreach, hle⟩ := ih h
        have hlt := hreads.length_lt
        exact ⟨.head hreads hreach, by omega⟩

end State
end Lexer

theorem Token.lex_of_reaches {src : Text} {s : State} (h : (State.init src).Reaches s) (hs : s.rest = []) :
    Token.lex src = s.finish := by
  obtain ⟨m, -, hrun⟩ := h.run (Nat.le_refl src.length)
  rw [Token.lex, hrun, State.run_of_rest_nil hs]
  rfl

theorem Token.lex_eq_ok_iff {src : Text} {ts : List Token} :
    Token.lex src = .ok ts ↔ ∃ s : State, (State.init src).Reaches s ∧ s.rest = [] ∧ s.heredoc = none ∧
      ts = s.tokens.reverse ++ [⟨.endOfClause, [], s.pos, s.blank⟩, ⟨.endOfSource, [], s.pos, false⟩] := by
  constructor
  · intro h
    unfold Token.lex at h
    cases hrun : (State.init src).run src.length with
    | error e =>
      rw [hrun] at h
      cases h
    | ok s =>
      rw [hrun] at h
      obtain ⟨hreach, hle⟩ := State.reaches_of_run hrun
      have hnil : s.rest = [] := length_eq_zero_iff.1 (Nat.le_zero.1 (by simpa [State.init] using hle))
      have h : s.finish = .ok ts := h
      unfold State.finish at h
      split at h
      · cases h
      · next hheredoc =>
        cases h
        exact ⟨s, hreach, hnil, hheredoc, by simp⟩
  · rintro ⟨s, hreach, hnil, hheredoc, rfl⟩
    rw [Token.lex_of_reaches hreach hnil]
    simp [State.finish, hheredoc]

end Rexx
