import Rexx.Proofs.Grammar.Clauses

/-!
# `Grammar.Statement` — what a statement is, by its first tokens

A statement is a label, an assignment, NO-INTERPRET, one of IF, DO and SELECT, or a clause of one line.
-/

namespace Rexx.Grammar

open List

variable {α β : Type} {r r' : Reader α} {f f' : α → Reader β} {rest rest' l l' : List Token} {t t' : Token}
variable {sc sc' : Scope} {p : α → Prop} {n : Nat} {s : Stmt} {ts : List Token} {k : Keyword}

theorem endsClause_of_isWord (h : t.IsWord) : Scope.top.endsClause t = false := by
  obtain ⟨hclause, hsource⟩ := h
  unfold Scope.endsClause
  split <;> simp_all [Scope.top]

/-! ## What a statement is -/

def Gives {α : Type} (p : α → Prop) (r : Reader α) : Prop := ∀ ts a us, r ts = .ok (a, us) → p a

theorem Gives.pure {a : α} (h : p a) : Gives p (Pure.pure a) := by
  rintro ts b us ⟨⟩
  exact h

theorem Gives.bind {p : β → Prop} (h : ∀ a, Gives p (f a)) : Gives p (r >>= f) := by
  intro ts b us hread
  obtain ⟨a, vs, -, hread⟩ := bind_eq_ok.1 hread
  exact h a vs b us hread

theorem Gives.fail (cause : SyntaxCause) : Gives p (fail cause) := by
  intro ts a us hread
  cases hread

theorem Gives.ite {c : Prop} [Decidable c] (h : Gives p r) (h' : Gives p r') : Gives p (if c then r else r') := by
  split
  · exact h
  · exact h'

def ifAfterThen (sc : Scope) (pos : Position) (x : Expr) (n : Nat) : Reader Stmt := do
  if (← current).kind == .endOfClause && closedByEndIf 1 0 true false (← get) then
    let thens ← blockBody [.«else», .endIf] n
    if ← atKeyword .«else» then
      skip 1
      if ← atKeyword .«if» then
        let at_ := (← current).pos
        skip 1
        return .ifThen pos x thens [← ifStatement sc at_ n]
      let elses ← blockBody [.endIf] n
      expectKeyword .endIf
      return .ifThen pos x thens elses
    expectKeyword .endIf
    return .ifThen pos x thens []
  skipEnds
  let thens ← statement sc.beforeElse n
  let afterThen ← get
  skipEnds
  if !(← atKeyword .«else») then
    set afterThen
    return .ifThen pos x [thens] []
  skip 1
  skipEnds
  return .ifThen pos x [thens] [← statement sc n]

theorem ifStatement_succ (sc : Scope) (pos : Position) (n : Nat) :
    ifStatement sc pos (n + 1) = expression (sc.stopping ["THEN"]) >>= fun x => skipEnds >>= fun _ =>
      expectKeyword .«then» >>= fun _ => ifAfterThen sc pos x n := by
  rw [ifStatement]
  rfl

theorem gives_ifAfterThen (sc : Scope) (pos : Position) (x : Expr) (n : Nat) :
    Gives (fun s => ∃ thens elses, s = .ifThen pos x thens elses) (ifAfterThen sc pos x n) := by
  refine .bind fun _ => .bind fun _ => .ite ?_ ?_
  · refine .bind fun thens => .bind fun b => .ite ?_ ?_
    · refine .bind fun _ => .bind fun b => .ite ?_ ?_
      · exact .bind fun _ => .bind fun _ => .bind fun _ => .pure ⟨_, _, rfl⟩
      · exact .bind fun _ => .bind fun _ => .pure ⟨_, _, rfl⟩
    · exact .bind fun _ => .pure ⟨_, _, rfl⟩
  · refine .bind fun _ => .bind fun thens => .bind fun _ => .bind fun _ => .bind fun b => .ite ?_ ?_
    · exact .bind fun _ => .pure ⟨_, _, rfl⟩
    · exact .bind fun _ => .bind fun _ => .bind fun _ => .pure ⟨_, _, rfl⟩

variable {name : Text} {us : List Token}

theorem ifAfterThen_word {pos : Position} {x : Expr} (ht : t.IsWord)
    (h : ifAfterThen sc pos x n (t :: ts) = .ok (s, us)) : ∃ s' elses, s = .ifThen pos x [s'] elses := by
  have hend : (t.kind == .endOfClause) = false := by simpa using ht.1
  rw [ifAfterThen, bind_of_read (current_read _), bind_of_read (get_read _), headD_cons, hend] at h
  refine (?_ : Gives (fun s => ∃ s' elses, s = .ifThen pos x [s'] elses) _) _ _ _ h
  refine .bind fun _ => .bind fun thens => .bind fun _ => .bind fun _ => .bind fun b => .ite ?_ ?_
  · exact .bind fun _ => .pure ⟨_, _, rfl⟩
  · exact .bind fun _ => .bind fun _ => .bind fun _ => .pure ⟨_, _, rfl⟩

theorem gives_ifStatement (sc : Scope) (pos : Position) (n : Nat) :
    Gives (fun s => ∃ x thens elses, s = .ifThen pos x thens elses) (ifStatement sc pos n) := by
  cases n with
  | zero => rw [ifStatement]; exact .fail _
  | succ n =>
    refine .bind fun x => .bind fun _ => .bind fun _ => ?_
    intro ts s us h
    exact ⟨x, gives_ifAfterThen sc pos x n ts s us h⟩

def doAfterHead (sc : Scope) (pos : Position) (head : Option (Control × Option Guard)) (n : Nat) : Reader Stmt := do
  let body ← blockBody [.«end»] n
  expectKeyword .«end»
  let var := head.bind fun (control, _) => control.var?
  let t ← current
  match t.name? with
  | some name =>
    if !sc.endsClause t then
      if some name ≠ var then fail (.endMismatch name)
      skip 1
  | none => pure ()
  match head with
  | none => return .group pos body
  | some (control, guard) => return .loop pos control guard body

theorem doStatement_succ (sc : Scope) (pos : Position) (n : Nat) :
    doStatement sc pos (n + 1) = loopHead sc >>= fun head => doAfterHead sc pos head n := by
  rfl

def doBlock (pos : Position) (head : Option (Control × Option Guard)) (body : List Stmt) : Stmt :=
  head.elim (.group pos body) fun p => .loop pos p.1 p.2 body

theorem gives_doAfterHead (sc : Scope) (pos : Position) (head : Option (Control × Option Guard)) (n : Nat) :
    Gives (fun s => ∃ body, s = doBlock pos head body) (doAfterHead sc pos head n) := by
  refine .bind fun body => .bind fun _ => .bind fun t => ?_
  cases head with
  | _ =>
    cases t.name? with
    | none => exact .pure ⟨body, rfl⟩
    | some name =>
      refine .ite (.ite ?_ ?_) (.pure ⟨body, rfl⟩)
      · exact .bind fun _ => .bind fun _ => .pure ⟨body, rfl⟩
      · exact .bind fun _ => .pure ⟨body, rfl⟩

theorem gives_doStatement (sc : Scope) (pos : Position) (n : Nat) :
    Gives (fun s => ∃ head body, s = doBlock pos head body) (doStatement sc pos n) := by
  cases n with
  | zero => rw [doStatement]; exact .fail _
  | succ n =>
    refine .bind fun head => ?_
    intro ts s us h
    exact ⟨head, gives_doAfterHead sc pos head n ts s us h⟩

theorem loopHead_ends {head : Option (Control × Option Guard)} (h : loopHead sc ts = .ok (head, us)) :
    sc.endsClause (us.headD nowhere) = true := by
  rw [loopHead, bind_of_read (atEnd_read _ _)] at h
  cases hend : sc.endsClause (ts.headD nowhere) with
  | true =>
    rw [hend] at h
    cases h
    exact hend
  | false =>
    simp only [hend] at h
    obtain ⟨control, vs, -, h⟩ := bind_eq_ok.1 h
    obtain ⟨guard, ws, -, h⟩ := bind_eq_ok.1 h
    rw [bind_of_read (current_read _)] at h
    cases hlast : sc.endsClause (ws.headD nowhere) with
    | true =>
      simp only [hlast] at h
      cases h
      exact hlast
    | false =>
      simp only [hlast] at h
      obtain ⟨_, _, hfail, -⟩ := bind_eq_ok.1 h
      cases hfail

structure Leads (k : Keyword) (t : Token) (ts : List Token) : Prop where
  kind : t.kind = .keyword k
  notEqual : (ts.headD nowhere).isMark .equal = false
  notColon : (ts.headD nowhere).isMark .colon = false

theorem Leads.unlike {k' : Keyword} (h : Leads k t ts) (hne : k ≠ k') : ¬ Leads k' t ts :=
  fun h' => hne (TokenKind.keyword.inj (h.kind.symm.trans h'.kind))

theorem atKeyword_of_leads (h : Leads k t ts) : atKeyword k (t :: ts) = .ok (true, t :: ts) := by
  rw [atKeyword_read, h.notEqual, h.notColon, Token.isKeyword, h.kind]
  simp

theorem atKeyword_of_not_leads (h : ¬ Leads k t ts) : atKeyword k (t :: ts) = .ok (false, t :: ts) := by
  rw [atKeyword_read]
  cases hb : t.isKeyword k && !(ts.headD nowhere).isMark .equal && !(ts.headD nowhere).isMark .colon with
  | false => rfl
  | true =>
    simp only [Bool.and_eq_true, Bool.not_eq_true', Token.isKeyword, beq_iff_eq] at hb
    exact absurd ⟨hb.1.1, hb.1.2, hb.2⟩ h

theorem expectKeyword_read (h : Leads k t ts) : expectKeyword k (t :: ts) = .ok (⟨⟩, ts) := by
  rw [expectKeyword, bind_of_read (atKeyword_of_leads h)]
  rfl

theorem expectKeyword_ok {u : Unit} (h : expectKeyword k (t :: ts) = .ok (u, us)) : Leads k t ts ∧ us = ts := by
  by_cases hleads : Leads k t ts
  · rw [expectKeyword_read hleads] at h
    cases h
    exact ⟨hleads, rfl⟩
  · rw [expectKeyword, bind_of_read (atKeyword_of_not_leads hleads)] at h
    cases h

def plainStatement (sc : Scope) (n : Nat) (t : Token) : Reader Stmt := do
  if let some k ← noInterpretLength then
    skip k
    return .clause t.pos .noInterpret
  match t.kind with
  | .symbol name => return .clause t.pos (← symbolClause sc name)
  | .keyword .«if» =>
    skip 1
    ifStatement sc t.pos n
  | .keyword .«do» =>
    skip 1
    doStatement sc t.pos n
  | .keyword .select =>
    skip 1
    let (whens, other) ← selectParts sc n
    if whens.isEmpty then throw ⟨.selectWithoutWhen, t.pos⟩
    return .select t.pos whens other
  | .keyword k =>
    skip 1
    return .clause t.pos (← instruction sc t.pos k)
  | _ => return .clause t.pos (.command (← expression sc))

theorem statement_plain (sc : Scope) (n : Nat)
    (h : t.name? = none ∨ (ts.headD nowhere).isMark .equal = false ∧ (ts.headD nowhere).isMark .colon = false) :
    statement sc (n + 1) (t :: ts) = plainStatement sc n t (t :: ts) := by
  rw [statement, bind_of_read (current_read _), bind_of_read (ahead_one_read t ts), headD_cons]
  rcases h with h | ⟨hequal, hcolon⟩
  · rw [h]
    rfl
  · rw [hequal, hcolon]
    cases t.name? <;> rfl

theorem statement_assigns (n : Nat) (hname : t.name? = some name) (hequal : (ts.headD nowhere).isMark .equal = true) :
    statement sc (n + 1) (t :: ts) =
      (expression sc >>= fun x => Pure.pure (Stmt.clause t.pos (.assign name x))) (ts.drop 1) := by
  have hcolon : (ts.headD nowhere).isMark .colon = false := by
    rw [Token.isMark, beq_iff_eq] at hequal
    rw [Token.isMark, hequal]
    rfl
  rw [statement, bind_of_read (current_read _), bind_of_read (ahead_one_read t ts), headD_cons, hname, hequal, hcolon]
  rfl

theorem statement_label (hname : t.name? = some name)
    (hcolon : (ts.headD nowhere).isMark .colon = true) (h : statement sc (n + 1) (t :: ts) = .ok (s, us)) :
    s = .clause t.pos (.label name) := by
  rw [statement, bind_of_read (current_read _), bind_of_read (ahead_one_read t ts), headD_cons, hname, hcolon] at h
  cases hnested : sc.nested with
  | true =>
    simp only [hnested] at h
    obtain ⟨_, _, hfail, -⟩ := bind_eq_ok.1 h
    cases hfail
  | false =>
    simp only [hnested] at h
    cases h
    rfl

theorem opening_cases (t : Token) (ts : List Token) :
    (∃ name, t.name? = some name ∧ (ts.headD nowhere).isMark .colon = true) ∨
      (∃ name, t.name? = some name ∧ (ts.headD nowhere).isMark .equal = true) ∨
      (t.name? = none ∨ (ts.headD nowhere).isMark .equal = false ∧ (ts.headD nowhere).isMark .colon = false) := by
  cases hname : t.name? with
  | none => exact .inr (.inr (.inl rfl))
  | some name =>
    cases hcolon : (ts.headD nowhere).isMark .colon with
    | true => exact .inl ⟨name, rfl, rfl⟩
    | false =>
      cases hequal : (ts.headD nowhere).isMark .equal with
      | true => exact .inr (.inl ⟨name, rfl, rfl⟩)
      | false => exact .inr (.inr (.inr ⟨rfl, rfl⟩))

theorem statement_cases (h : statement sc (n + 1) (t :: ts) = .ok (s, us)) :
    (∃ c, s = .clause t.pos c) ∨ (Leads .«if» t ts ∧ ifStatement sc t.pos n ts = .ok (s, us)) ∨
      (Leads .«do» t ts ∧ doStatement sc t.pos n ts = .ok (s, us)) ∨
      (Leads .select t ts ∧ ∃ parts, s = .select t.pos parts.1 parts.2 ∧ parts.1 ≠ [] ∧
        selectParts sc n ts = .ok (parts, us)) := by
  rcases opening_cases t ts with ⟨name, hname, hcolon⟩ | ⟨name, hname, hequal⟩ | hplain
  · exact .inl ⟨_, statement_label hname hcolon h⟩
  · rw [statement_assigns n hname hequal] at h
    obtain ⟨x, vs, -, hread⟩ := bind_eq_ok.1 h
    cases hread
    exact .inl ⟨_, rfl⟩
  · rw [statement_plain sc n hplain, plainStatement, bind_of_read (noInterpretLength_read _)] at h
    cases hcount : noInterpretCount ((t :: ts).getD 0 nowhere) ((t :: ts).getD 1 nowhere) ((t :: ts).getD 2 nowhere)
        ((t :: ts).getD 3 nowhere) with
    | some k =>
      rw [hcount] at h
      cases h
      exact .inl ⟨_, rfl⟩
    | none =>
      rw [hcount] at h
      cases hkind : t.kind with
      | keyword k =>
        have hown : (ts.headD nowhere).isMark .equal = false ∧ (ts.headD nowhere).isMark .colon = false := by
          rcases hplain with hname | hown
          · simp [Token.name?, hkind] at hname
          · exact hown
        have hleads : t.kind = .keyword k → Leads k t ts := fun hk => ⟨hk, hown.1, hown.2⟩
        cases k with
        | «if» =>
          simp only [hkind] at h
          exact .inr (.inl ⟨hleads hkind, h⟩)
        | «do» =>
          simp only [hkind] at h
          exact .inr (.inr (.inl ⟨hleads hkind, h⟩))
        | select =>
          simp only [hkind] at h
          rw [bind_of_read (skip_read 1 _)] at h
          obtain ⟨parts, vs, hparts, h⟩ := bind_eq_ok.1 h
          obtain ⟨whens, other⟩ := parts
          cases whens with
          | nil => 
            obtain ⟨_, _, hthrow, -⟩ := bind_eq_ok.1 h
            cases hthrow
          | cons w ws =>
            cases h
            exact .inr (.inr (.inr ⟨hleads hkind, _, rfl, by simp, hparts⟩))
        | _ =>
          simp only [hkind] at h
          rw [bind_of_read (skip_read 1 _)] at h
          obtain ⟨c, vs, -, h⟩ := bind_eq_ok.1 h
          cases h
          exact .inl ⟨_, rfl⟩
      | _ =>
        simp only [hkind] at h
        obtain ⟨x, vs, -, h⟩ := bind_eq_ok.1 h
        cases h
        exact .inl ⟨_, rfl⟩

/-! ## The parts of SELECT -/

def whenAfterThen (sc : Scope) (x : Expr) (n : Nat) : Reader (List (Expr × List Stmt) × Option (List Stmt)) := do
  let body ←
    if (← current).kind == .endOfClause then blockBody [.when, .otherwise, .«end»] n
    else List.singleton <$> statement sc n
  let (whens, other) ← selectParts sc n
  return ((x, body) :: whens, other)

section SelectParts

variable {n : Nat} {vs ts : List Token} {whens : List (Expr × List Stmt)}

section

variable (hskip : skipEnds vs = .ok (⟨⟩, t :: ts))
include hskip

theorem selectParts_when (h : Leads .when t ts) :
    selectParts sc (n + 1) vs = (expression (sc.stopping ["THEN"]) >>= fun x => skipEnds >>= fun _ =>
      expectKeyword .«then» >>= fun _ => whenAfterThen sc x n) ts := by
  rw [selectParts, bind_of_read hskip, bind_of_read (atKeyword_of_leads h)]
  rfl

theorem selectParts_otherwise (h : Leads .otherwise t ts) :
    selectParts sc (n + 1) vs = (blockBody [.«end»] n >>= fun body => selectParts sc n >>= fun parts =>
      Pure.pure (parts.1, some body)) ts := by
  rw [selectParts, bind_of_read hskip, bind_of_read (atKeyword_of_not_leads (h.unlike (by decide))),
    if_neg Bool.false_ne_true, bind_of_read (atKeyword_of_leads h), if_pos rfl, bind_of_read (skip_read 1 _)]
  rfl

theorem selectParts_end (h : Leads .«end» t ts) : selectParts sc (n + 1) vs = .ok (([], none), ts) := by
  rw [selectParts, bind_of_read hskip, bind_of_read (atKeyword_of_not_leads (h.unlike (by decide))),
    if_neg Bool.false_ne_true, bind_of_read (atKeyword_of_not_leads (h.unlike (by decide))), if_neg Bool.false_ne_true,
    bind_of_read (atKeyword_of_leads h), if_pos rfl, bind_of_read (skip_read 1 _)]
  rfl

theorem leads_when_of_selectParts {us : List Token} {when : Expr × List Stmt}
    (h : selectParts sc (n + 1) vs = .ok ((when :: whens, none), us)) : Leads .when t ts := by
  by_contra hwhen
  by_cases hotherwise : Leads .otherwise t ts
  · rw [selectParts_otherwise hskip hotherwise] at h
    obtain ⟨body, _, -, h⟩ := bind_eq_ok.1 h
    obtain ⟨parts, _, -, h⟩ := bind_eq_ok.1 h
    obtain ⟨whens', other⟩ := parts
    cases h
  · by_cases hend : Leads .«end» t ts
    · rw [selectParts_end hskip hend] at h
      cases h
    · rw [selectParts, bind_of_read hskip, bind_of_read (atKeyword_of_not_leads hwhen), if_neg Bool.false_ne_true, bind_of_read (atKeyword_of_not_leads hotherwise), if_neg Bool.false_ne_true, bind_of_read (atKeyword_of_not_leads hend)] at h
      cases h

end

theorem whenAfterThen_ok {us : List Token} {x y : Expr} {body : List Stmt}
    {other : Option (List Stmt)} (h : whenAfterThen sc y n (t :: ts) = .ok (((x, body) :: whens, other), us)) :
    x = y ∧ (t.IsWord → body ≠ []) := by
  rw [whenAfterThen, bind_of_read (current_read _), List.headD_cons] at h
  have hlast : ∀ body' us', (selectParts sc n >>= fun parts => Pure.pure ((y, body') :: parts.1, parts.2)) us' =
      .ok (((x, body) :: whens, other), us) → x = y ∧ body = body' := by
    intro body' us' h
    obtain ⟨parts, _, -, h⟩ := bind_eq_ok.1 h
    cases h
    exact ⟨rfl, rfl⟩
  cases hend : t.kind == .endOfClause with
  | true =>
    simp only [hend] at h
    obtain ⟨body', us', -, h⟩ := bind_eq_ok.1 h
    exact ⟨(hlast _ _ h).1, fun ht => absurd (by simpa using hend) ht.1⟩
  | false =>
    simp only [hend] at h
    obtain ⟨body', us', hbody, h⟩ := bind_eq_ok.1 h
    obtain ⟨rfl, rfl⟩ := hlast _ _ h
    rw [map_eq_pure_bind] at hbody
    obtain ⟨s, _, -, hbody⟩ := bind_eq_ok.1 hbody
    cases hbody
    simp [List.singleton]

end SelectParts

def closers : List Keyword := [.«else», .endIf, .«end», .when, .otherwise]

theorem statement_not_leads {us : List Token} (hk : k ∈ closers)
    (h : statement sc (n + 1) (t :: ts) = .ok (s, us)) : ¬ Leads k t ts := by
  intro hleads
  rw [statement_plain sc n (.inr ⟨hleads.notEqual, hleads.notColon⟩), plainStatement,
    bind_of_read (noInterpretLength_read _)] at h
  simp only [noInterpretCount, getD_cons_zero, hleads.kind] at h
  simp only [closers, mem_cons, not_mem_nil, or_false] at hk
  rcases hk with rfl | rfl | rfl | rfl | rfl <;> cases h

theorem statement_clause (hsc : sc.Alike sc') (hrests : Rests rest rest') (hl : Same (t :: l) (t' :: l')) (n' : Nat)
    {c : Clause} {pos : Position} {us : List Token} (hlabel : ∀ name, c ≠ .label name)
    (hread : statement sc (n + 1) (t :: l ++ rest) = .ok (.clause pos c, us)) :
    ∃ m m', us = m ++ rest ∧ m <:+ t :: l ∧ Same m m' ∧
      statement sc' (n' + 1) (t' :: l' ++ rest') = .ok (.clause t'.pos c, m' ++ rest') := by
  obtain ⟨_, _, hcons, ht, hw, hl⟩ := hl.of_cons
  cases hcons
  have hkind := kind_eq_of_lexeme ht
  have hnext : ∀ m, ((l ++ rest).headD nowhere).isMark m = ((l' ++ rest').headD nowhere).isMark m := by
    intro m
    rcases hl.cases_on with ⟨rfl, rfl⟩ | ⟨u, u', p, p', rfl, rfl, hu, -, -⟩
    · obtain ⟨e, tail, rfl, he⟩ := hrests.first
      obtain ⟨e', tail', rfl, he'⟩ := hrests.second
      exact (isMark_endOfClause he m).trans (isMark_endOfClause he' m).symm
    · exact isMark_eq (kind_eq_of_lexeme hu) m
  -- a reader of clauses that keeps to the words after the first, or to all of them
  have hclause : ∀ (r r' : Reader Clause) (k k' : List Token), k <:+ t :: l → Keeps rest rest' k k' r r' →
      (r >>= fun c => Pure.pure (Stmt.clause t.pos c)) (k ++ rest) = .ok (.clause pos c, us) →
      ∃ m m', us = m ++ rest ∧ m <:+ t :: l ∧ Same m m' ∧
        (r' >>= fun c => Pure.pure (Stmt.clause t'.pos c)) (k' ++ rest') = .ok (.clause t'.pos c, m' ++ rest') := by
    intro r r' k k' hk hkeeps hread
    obtain ⟨c', vs, hr, hread⟩ := bind_eq_ok.1 hread
    cases hread
    obtain ⟨m, m', rfl, hm, hsame, hr'⟩ := hkeeps c us hr
    exact ⟨m, m', rfl, hm.trans hk, hsame, bind_eq_ok.2 ⟨c, _, hr', rfl⟩⟩
  have hexpression : ∀ (make : Expr → Clause) {k k' : List Token}, Same k k' →
      Keeps rest rest' k k' (expression sc >>= fun x => Pure.pure (make x)) (expression sc' >>= fun x => Pure.pure (make x)) :=
    fun make _ _ hk => Agree.keeps (Q := fun _ _ => True) hrests ((Agree.expression hsc).bind fun _ _ _ => .pure trivial) hk
  rw [cons_append] at hread
  rcases opening_cases t (l ++ rest) with ⟨name, hname, hcolon⟩ | ⟨name, hname, hequal⟩ | hplain
  · cases statement_label hname hcolon hread
    exact absurd rfl (hlabel name)
  · rw [statement_assigns n hname hequal] at hread
    rw [hnext] at hequal
    rw [cons_append, statement_assigns n' (name?_eq hkind ▸ hname) hequal]
    rcases hl.cases_on with ⟨rfl, rfl⟩ | ⟨u, u', p, p', rfl, rfl, hu, hwu, hp⟩
    · obtain ⟨e', tail', rfl, he'⟩ := hrests.second
      rw [nil_append, headD_cons, isMark_endOfClause he'] at hequal
      cases hequal
    · have hsuffix : p <:+ t :: u :: p := (suffix_cons _ _).trans (suffix_cons _ _)
      rw [cons_append, drop_one, tail_cons] at hread ⊢
      simpa only [bind_assoc, pure_bind] using hclause _ _ p p' hsuffix (hexpression (.assign name) hp)
        (by simpa only [bind_assoc, pure_bind] using hread)
  · have hplain' : t'.name? = none ∨ ((l' ++ rest').headD nowhere).isMark .equal = false ∧
        ((l' ++ rest').headD nowhere).isMark .colon = false := by
      rwa [← name?_eq hkind, ← hnext, ← hnext]
    rw [statement_plain sc n hplain] at hread
    rw [cons_append, statement_plain sc' n' hplain']
    unfold plainStatement at hread ⊢
    obtain ⟨count, hcount, hcount', hdrop⟩ := Pairing.noInterpret (P := hrests.pairing (t :: l))
      ⟨t :: l, t' :: l', rfl, rfl, suffix_rfl, hl.cons ht hw⟩
    rw [← cons_append, bind_of_read hcount] at hread
    rw [← cons_append, bind_of_read hcount', ← hkind]
    cases count with
    | some k =>
      simp only at hread ⊢
      rw [bind_of_read (skip_read k _)] at hread ⊢
      cases hread
      obtain ⟨⟨m, m', hus, hus', hm, hsame⟩, -, -⟩ := hdrop k rfl
      rw [hus']
      exact ⟨m, m', hus, hm, hsame, rfl⟩
    | none =>
      cases hk : t.kind with
      | symbol name =>
        simp only [hk] at hread ⊢
        exact hclause _ _ (t :: l) (t' :: l') suffix_rfl
          (Agree.keeps hrests (.symbolClause hsc rfl hw) (hl.cons ht hw)) hread
      | keyword k =>
        cases k with
        | «if» =>
          simp only [hk] at hread
          obtain ⟨_, _, _, hread⟩ := Gives.bind (fun _ => gives_ifStatement sc t.pos n) _ _ _ hread
          cases hread
        | «do» =>
          simp only [hk] at hread
          obtain ⟨head, _, hread⟩ := Gives.bind (fun _ => gives_doStatement sc t.pos n) _ _ _ hread
          cases head <;> cases hread
        | select =>
          simp only [hk] at hread
          rw [bind_of_read (skip_read 1 _)] at hread
          obtain ⟨parts, vs, -, hread⟩ := bind_eq_ok.1 hread
          obtain ⟨whens, other⟩ := parts
          cases whens with
          | nil =>
            obtain ⟨_, _, hthrow, -⟩ := bind_eq_ok.1 hread
            cases hthrow
          | cons w ws => cases hread
        | _ =>
          simp only [hk] at hread ⊢
          rw [bind_of_read (skip_read 1 _)] at hread ⊢
          exact hclause (instruction sc t.pos _) (instruction sc' t'.pos _) l l' (suffix_cons _ _)
            (Agree.keeps hrests (.instruction hsc False.elim _) hl) hread
      | _ =>
        simp only [hk] at hread ⊢
        simpa only [bind_assoc, pure_bind] using hclause _ _ (t :: l) (t' :: l') suffix_rfl
          (hexpression .command (hl.cons ht hw)) (by simpa only [bind_assoc, pure_bind] using hread)

end Rexx.Grammar
