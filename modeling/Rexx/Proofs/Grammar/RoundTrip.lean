import Rexx.Proofs.Grammar.Rendering
import Rexx.Proofs.Grammar.Statement

/-!
# `Grammar.RoundTrip` — reading an expression that was written

What was written as an expression is read as the same expression (`Program.parse_render`). The proof goes by how
tightly an expression binds.
-/

namespace Rexx.Grammar

open Rexx.Expr Grammar List Scope Token

variable {sc : Scope} {r n k : Nat} {L : Level} {x y : Expr} {t : Token} {ts us rest : List Token}
  {m : Mark} {op : BinaryOp} {name : Text} {xs : List Expr}

/-! ## Scopes in which no word ends an expression -/

def Scope.Open (sc : Scope) : Prop := sc.stops = [] ∧ sc.elseEnds = false

theorem Scope.Open.isStop (h : sc.Open) (t : Token) : sc.isStop t = false := by
  unfold Scope.isStop
  cases t.name? with
  | none => rfl
  | some name => simp [h.1, h.2]

theorem Scope.open_top : top.Open := ⟨rfl, rfl⟩

theorem Scope.open_enclosed (sc : Scope) : sc.enclosed.Open := ⟨rfl, rfl⟩

/-! ## Readers by rank -/

def levelAt? (r : Nat) : Option Level := [.pipe, .or, .and, .compare, .concat, .add, .multiply, .power][r]?

def readerAt (sc : Scope) (r n : Nat) : Reader Expr :=
  match levelAt? r with
  | some level => levelExpr sc n level
  | none => if r = 8 then prefixExpr sc n else term sc n

theorem Level.rank_le (L : Level) : L.rank ≤ 7 := by cases L <;> decide

theorem readerAt_rank (L : Level) : readerAt sc L.rank n = levelExpr sc n L := by
  cases L <;> rfl

theorem operand_succ (L : Level) : operand sc (n + 1) L = readerAt sc (L.rank + 1) n := by
  cases L <;> rfl

def depthAt (r k : Nat) : Nat := 20 * k + 3 * (9 - r)

/-- Tokens that cannot go on with an expression of a rank: no operator of that rank or a tighter one begins there, and no
argument list. -/
structure Closes (sc : Scope) (r : Nat) (rest : List Token) : Prop where
  noLink : ∀ L : Level, r ≤ L.rank → link? sc L (rest.headD nowhere) = none
  noArguments : ((rest.headD nowhere).isMark .leftParen && !(rest.headD nowhere).blank) = false

def Reads (sc : Scope) (r : Nat) (x : Expr) (ts : List Token) : Prop :=
  ∀ n rest, depthAt r ts.length ≤ n → Closes sc r rest → readerAt sc r n (ts ++ rest) = .ok (x, rest)

def Chains (sc : Scope) (L : Level) (x : Expr) (ts : List Token) : Prop :=
  ∀ n rest, depthAt L.rank ts.length ≤ n → Closes sc (L.rank + 1) rest →
    ∃ n', n ≤ n' + 1 + ts.length ∧ levelExpr sc n L (ts ++ rest) = links sc n' L x rest

theorem links_of_none (h : link? sc L (rest.headD nowhere) = none) (hn : 0 < n) : links sc n L x rest = .ok (x, rest) := by
  cases n with
  | zero => cases hn
  | succ n =>
    rw [links, bind_of_read (current_read rest), h]
    rfl

theorem Chains.reads (h : Chains sc L x ts) : Reads sc L.rank x ts := by
  intro n rest hn hrest
  obtain ⟨n', hn', hread⟩ := h n rest hn ⟨fun L hL => hrest.noLink L ((Nat.le_succ _).trans hL), hrest.noArguments⟩
  rw [readerAt_rank, hread]
  refine links_of_none (hrest.noLink L le_rfl) ?_
  have hrank := L.rank_le
  unfold depthAt at hn
  omega

theorem Reads.chains (h : Reads sc (L.rank + 1) x ts) : Chains sc L x ts := by
  intro n rest hn hrest
  have hrank := L.rank_le
  obtain ⟨m, rfl⟩ : ∃ m, n = m + 2 := ⟨n - 2, by unfold depthAt at hn; omega⟩
  have hoperand : operand sc (m + 1) L (ts ++ rest) = .ok (x, rest) := by
    rw [operand_succ]
    exact h m rest (by unfold depthAt at hn ⊢; omega) hrest
  refine ⟨m + 1, by omega, ?_⟩
  rw [levelExpr, bind_of_read hoperand]

theorem exists_rank (h : r < 8) : ∃ L : Level, L.rank = r := by
  interval_cases r
  · exact ⟨.pipe, rfl⟩
  · exact ⟨.or, rfl⟩
  · exact ⟨.and, rfl⟩
  · exact ⟨.compare, rfl⟩
  · exact ⟨.concat, rfl⟩
  · exact ⟨.add, rfl⟩
  · exact ⟨.multiply, rfl⟩
  · exact ⟨.power, rfl⟩

theorem Reads.looser (h : Reads sc r x ts) (hr : r ≤ 8) {r' : Nat} (hle : r' ≤ r) : Reads sc r' x ts := by
  induction r, hle using Nat.le_induction with
  | base => exact h
  | succ r hr' ih =>
    obtain ⟨L, rfl⟩ := exists_rank (show r < 8 by omega)
    exact ih h.chains.reads (by omega)

/-! ## What links tokens make -/

def levelOf? : Mark → Option Level
  | .pipe => some .pipe
  | .or | .xor => some .or
  | .and => some .and
  | .equal | .notEqual | .lessGreater | .greaterLess | .bangEqual | .greater | .less | .atLeast | .notLess | .atMost
  | .notGreater | .strictEqual | .strictNotEqual | .strictGreater | .strictLess | .strictAtLeast | .strictAtMost =>
    some .compare
  | .concat => some .concat
  | .plus | .minus => some .add
  | .times | .divide | .percent | .remainder => some .multiply
  | .power => some .power
  | .backslash | .bang | .leftParen | .rightParen | .comma | .colon => none

theorem levelOf?_of_operator? (h : L.operator? m = some op) : levelOf? m = some L := by
  cases L <;> cases m <;> first | rfl | cases h

theorem link?_of_mark (ht : t.kind = .mark m) (hm : m ≠ .leftParen) (hL : levelOf? m ≠ some L) :
    link? sc L t = none := by
  have hop : L.operator? m = none := by
    cases hop : L.operator? m with
    | none => rfl
    | some op => exact absurd (levelOf?_of_operator? hop) hL
  have hterm : sc.startsTerm t = false := by
    unfold startsTerm
    rw [ht]
    cases m <;> first | rfl | exact absurd rfl hm
  unfold link?
  rw [ht]
  by_cases hpipe : m = .pipe
  · subst hpipe
    exact if_neg fun h => hL (by rw [h]; rfl)
  · simp [hop, hterm]

theorem link?_of_operator (ht : t.kind = .mark m) (hop : L.operator? m = some op) :
    link? sc L t = some (.written op) := by
  unfold link?
  rw [ht]
  by_cases hpipe : m = .pipe
  · subst hpipe
    cases L <;> cases hop
  · simp [hop]

theorem closes_mark (ht : t.kind = .mark m) (hm : m ≠ .leftParen)
    (hr : ∀ L, levelOf? m = some L → L.rank < r) : Closes sc r (t :: rest) where
  noLink L hL := by
    refine link?_of_mark ht hm fun h => ?_
    have hlt := hr L h
    omega
  noArguments := by
    simp [isMark, ht, hm]

theorem closes_operator (ht : t.kind = .mark m) (hop : L.operator? m = some op) :
    Closes sc (L.rank + 1) (t :: rest) := by
  refine closes_mark ht ?_ ?_
  · rintro rfl
    cases L <;> cases hop
  · intro L' hL'
    rw [levelOf?_of_operator? hop] at hL'
    cases hL'
    exact Nat.lt_succ_self _

theorem closes_rightParen (ht : t.kind = .mark .rightParen) : Closes sc r (t :: rest) :=
  closes_mark ht (by decide) (by simp [levelOf?])

theorem closes_comma (ht : t.kind = .mark .comma) : Closes sc r (t :: rest) :=
  closes_mark ht (by decide) (by simp [levelOf?])

theorem closes_pipe (ht : t.kind = .mark .pipe) : Closes sc 1 (t :: rest) := by
  refine closes_mark ht (by decide) ?_
  rintro L ⟨⟩
  decide

theorem closes_endOfClause (ht : t.kind = .endOfClause) : Closes sc r (t :: rest) where
  noLink L _ := by simp [link?, startsTerm, ht]
  noArguments := by simp [isMark, ht]

theorem closes_leftParen (ht : t.kind = .mark .leftParen) (hb : t.blank = true) :
    Closes sc (Level.concat.rank + 1) (t :: rest) where
  noLink L hL := by
    have hop : L.operator? .leftParen = none := by cases L <;> rfl
    have hconcat : L ≠ .concat := by
      rintro rfl
      omega
    simp [link?, ht, hop, hconcat]
  noArguments := by simp [hb]

/-! ## Operators between operands -/

theorem Chains.append (hx : Chains sc L x ts) (hclose : ∀ rest, Closes sc (L.rank + 1) (t :: us ++ rest))
    (hlink : ∀ n rest, depthAt (L.rank + 1) (t :: us).length ≤ n → Closes sc (L.rank + 1) rest →
      links sc (n + 2) L x (t :: us ++ rest) = links sc (n + 1) L y rest) : Chains sc L y (ts ++ t :: us) := by
  intro n rest hn hrest
  have hrank := L.rank_le
  simp only [depthAt, length_append, length_cons] at hn
  obtain ⟨n1, hn1, hread⟩ := hx n (t :: us ++ rest) (by unfold depthAt; omega) (hclose rest)
  obtain ⟨m, rfl⟩ : ∃ m, n1 = m + 2 := ⟨n1 - 2, by omega⟩
  refine ⟨m + 1, by simp only [length_append, length_cons]; omega, ?_⟩
  rw [append_assoc, hread]
  exact hlink m rest (by simp only [depthAt, length_cons]; omega) hrest

theorem Chains.binary (hx : Chains sc L x ts) (ht : t.kind = .mark m)
    (hop : L.operator? m = some op) (hy : Reads sc (L.rank + 1) y us) :
    Chains sc L (.binary op x y) (ts ++ t :: us) := by
  refine hx.append (fun _ => closes_operator ht hop) fun n rest hn hrest => ?_
  simp only [depthAt, length_cons] at hn
  have hoperand : operand sc (n + 1) L (us ++ rest) = .ok (y, rest) := by
    rw [operand_succ]
    exact hy n rest (by unfold depthAt; omega) hrest
  rw [cons_append, links, bind_of_read (current_read _), headD_cons, link?_of_operator ht hop]
  show (skip 1 >>= fun _ => operand sc (n + 1) L >>= fun right => _) _ = _
  rw [bind_of_read (skip_read 1 _), drop_one, tail_cons, bind_of_read hoperand]

theorem Chains.beside (hx : Chains sc .concat x ts) (ht : t.kind = .mark .leftParen) (hb : t.blank = true)
    (hy : Reads sc (Level.concat.rank + 1) y (t :: us)) :
    Chains sc .concat (.binary (.concat true) x y) (ts ++ t :: us) := by
  refine hx.append (fun _ => closes_leftParen ht hb) fun n rest hn hrest => ?_
  have hoperand : operand sc (n + 1) .concat (t :: us ++ rest) = .ok (y, rest) := hy n rest hn hrest
  have hlink : link? sc .concat t = some (.beside true) := by
    simp [link?, ht, hb, Level.operator?, startsTerm]
  rw [links, bind_of_read (current_read _), cons_append, headD_cons, hlink]
  exact bind_of_read hoperand

/-! ## Terms -/

theorem readerAt_nine : readerAt sc 9 n = term sc n := rfl

theorem readerAt_eight : readerAt sc 8 n = prefixExpr sc n := rfl

theorem Reads.prefixed (h : Reads sc 9 x (t :: ts)) (ht : prefixOp? t = none) : Reads sc 8 x (t :: ts) := by
  intro n rest hn hrest
  obtain ⟨m, rfl⟩ : ∃ m, n = m + 1 := ⟨n - 1, by unfold depthAt at hn; omega⟩
  have hterm := h m rest (by unfold depthAt at hn ⊢; omega) ⟨fun L hL => absurd hL (by cases L <;> decide), hrest.noArguments⟩
  rw [readerAt_eight, prefixExpr, cons_append, bind_of_read (current_read _), headD_cons, ht]
  exact hterm

theorem Reads.unary {op : UnaryOp} (h : Reads sc 8 x ts) (ht : prefixOp? t = some op) :
    Reads sc 8 (.unary op x) (t :: ts) := by
  intro n rest hn hrest
  simp only [depthAt, length_cons] at hn
  obtain ⟨m, rfl⟩ : ∃ m, n = m + 1 := ⟨n - 1, by omega⟩
  have hoperand := h m rest (by unfold depthAt; omega) hrest
  rw [readerAt_eight] at hoperand ⊢
  rw [prefixExpr, cons_append, bind_of_read (current_read _), headD_cons, ht]
  show (skip 1 >>= fun _ => prefixExpr sc m >>= fun y => pure (Expr.unary op y)) _ = _
  rw [bind_of_read (skip_read 1 _), drop_one, tail_cons, bind_of_read hoperand]
  rfl

theorem Reads.of_term (h : ∀ n rest, Closes sc 9 rest → term sc (n + 1) (t :: rest) = .ok (x, rest)) :
    Reads sc 9 x [t] := by
  intro n rest hn hrest
  obtain ⟨m, rfl⟩ : ∃ m, n = m + 1 := ⟨n - 1, by simp [depthAt] at hn; omega⟩
  exact h m rest hrest

theorem reads_number {text : Text} (ht : t.kind = .number text) : Reads sc 9 (.literal text none) [t] := by
  refine .of_term fun n rest _ => ?_
  rw [term, bind_of_read (current_read _), headD_cons]
  simp only [ht]
  rfl

def BeginsTerm (sc : Scope) (t : Token) (x : Expr) (call : List Expr → Expr) : Prop :=
  ∀ n rest, term sc (n + 1) (t :: rest) = (atArguments >>= fun b =>
    if b then arguments sc n >>= fun args => pure (call args) else pure x) rest

variable {l : Lexeme} {p q : Token} {call : List Expr → Expr} {o : Token}

theorem BeginsTerm.reads (h : BeginsTerm sc t x call) : Reads sc 9 x [t] := by
  refine .of_term fun n rest hrest => ?_
  rw [h, bind_of_read (atArguments_read _), hrest.noArguments]
  rfl

theorem beginsTerm_literal {quote : Quote} (ht : t.kind = .literal quote name) :
    BeginsTerm sc t (.literal name (some quote)) (.call name true) := by
  intro n rest
  rw [term, bind_of_read (current_read _), headD_cons]
  simp only [ht]
  rfl

theorem kind_ofName (ht : t.kind = .ofName name) :
    (∃ k : Keyword, t.kind = .keyword k ∧ k.spelling = name) ∨ t.kind = .symbol name := by
  unfold TokenKind.ofName at ht
  cases hk : Keyword.ofText? name with
  | none =>
    rw [hk] at ht
    exact .inr ht
  | some k =>
    rw [hk] at ht
    exact .inl ⟨k, ht, by simpa using find?_some hk⟩

theorem name?_ofName (ht : t.kind = .ofName name) : t.name? = some name := by
  rcases kind_ofName ht with ⟨k, hk, rfl⟩ | hs
  · simp [name?, hk]
  · simp [name?, hs]

theorem beginsTerm_name (hsc : sc.Open) (ht : t.kind = .ofName name) :
    BeginsTerm sc t (.symbol name) (.call name false) := by
  intro n rest
  have htext : t.text = name := by
    rcases kind_ofName ht with ⟨k, hk, rfl⟩ | hs
    · simp [Token.text, hk]
    · simp [Token.text, hs]
  rw [term, bind_of_read (current_read _), headD_cons]
  rcases kind_ofName ht with ⟨k, hk, -⟩ | hs
  · simp only [hk, hsc.isStop, htext]
    rfl
  · simp only [hs, hsc.isStop, htext]
    rfl

def beginsExpr (t : Token) : Bool :=
  match t.kind with
  | .number _ | .literal _ _ | .symbol _ | .keyword _ => true
  | .mark m => m == .leftParen || (prefixOp? t).isSome
  | _ => false

theorem endsExpr_of_beginsExpr (hsc : sc.Open) (ht : beginsExpr t = true) : sc.endsExpr t = false := by
  unfold endsExpr endsClause
  rw [hsc.isStop, hsc.2]
  unfold beginsExpr prefixOp? at ht
  cases hk : t.kind with
  | mark m =>
    rw [hk] at ht
    cases m <;> first | exact absurd ht Bool.false_ne_true | simp [isMark, hk]
  | keyword k => cases k <;> simp [isMark, hk]
  | symbol name => simp [isMark, hk]
  | number text => simp [isMark, hk]
  | literal quote body => simp [isMark, hk]
  | endOfClause => simp [hk] at ht
  | endOfSource => simp [hk] at ht

theorem Reads.whole_of (h : Reads sc 0 x (t :: ts)) (ht : sc.endsExpr t = false)
    (hn : depthAt 0 (ts.length + 1) + 1 ≤ n) (hrest : Closes sc 0 rest) :
    whole sc n (t :: (ts ++ rest)) = .ok (x, rest) := by
  obtain ⟨m, rfl⟩ : ∃ m, n = m + 1 := ⟨n - 1, by omega⟩
  rw [whole, bind_of_read (current_read _), headD_cons, ht]
  exact h m rest (by rw [length_cons]; omega) hrest

theorem Reads.whole (hsc : sc.Open) (h : Reads sc 0 x (t :: ts)) (ht : beginsExpr t = true)
    (hn : depthAt 0 (ts.length + 1) + 1 ≤ n) (hrest : Closes sc 0 rest) :
    whole sc n (t :: (ts ++ rest)) = .ok (x, rest) :=
  h.whole_of (endsExpr_of_beginsExpr hsc ht) hn hrest

theorem Reads.enclosed (hp : p.kind = .mark .leftParen) (hq : q.kind = .mark .rightParen)
    (h : Reads sc.enclosed 0 x (t :: ts)) (ht : beginsExpr t = true) :
    Reads sc 9 x (p :: (t :: ts ++ [q])) := by
  intro n rest hn _
  simp only [depthAt, length_cons, length_append] at hn
  obtain ⟨m, rfl⟩ : ∃ m, n = m + 1 := ⟨n - 1, by omega⟩
  have hwhole : Grammar.whole sc.enclosed m (t :: (ts ++ q :: rest)) = .ok (x, q :: rest) :=
    h.whole (open_enclosed sc) ht (by unfold depthAt; omega) (closes_rightParen hq)
  have hshape : p :: (t :: ts ++ [q]) ++ rest = p :: t :: (ts ++ q :: rest) := by simp
  have hmark : q.isMark .rightParen = true := by simp [isMark, hq]
  rw [hshape, readerAt_nine, term, bind_of_read (current_read _), headD_cons]
  simp only [hp]
  rw [bind_of_read (skip_read 1 _), drop_one, tail_cons, bind_of_read hwhole,
    bind_of_read (expectMark_read hmark rest)]
  rfl

/-! ## Arguments -/

def ReadsArguments (sc : Scope) (xs : List Expr) (ts : List Token) : Prop :=
  ∀ n q rest, 20 * ts.length + 30 ≤ n → q.kind = .mark .rightParen →
    argumentList sc n (ts ++ q :: rest) = .ok (xs, q :: rest)

theorem Reads.lastArgument (hsc : sc.Open) (h : Reads sc 0 x (t :: ts)) (ht : beginsExpr t = true) :
    ReadsArguments sc [x] (t :: ts) := by
  intro n q rest hn hq
  rw [length_cons] at hn
  obtain ⟨m, rfl⟩ : ∃ m, n = m + 1 := ⟨n - 1, by omega⟩
  have hwhole : Grammar.whole sc m (t :: (ts ++ q :: rest)) = .ok (x, q :: rest) :=
    h.whole hsc ht (by unfold depthAt; omega) (closes_rightParen hq)
  have hcomma : q.isMark .comma = false := by simp [isMark, hq]
  rw [argumentList, cons_append, bind_of_read hwhole, bind_of_read (takeMark_read _ _), headD_cons, hcomma]
  rfl

theorem Reads.argument {c : Token} (hsc : sc.Open) (h : Reads sc 0 x (t :: ts))
    (ht : beginsExpr t = true) (hc : c.kind = .mark .comma) (hxs : ReadsArguments sc xs us) :
    ReadsArguments sc (x :: xs) (t :: ts ++ c :: us) := by
  intro n q rest hn hq
  simp only [length_append, length_cons] at hn
  obtain ⟨m, rfl⟩ : ∃ m, n = m + 1 := ⟨n - 1, by omega⟩
  have hwhole : Grammar.whole sc m (t :: (ts ++ c :: (us ++ q :: rest))) = .ok (x, c :: (us ++ q :: rest)) :=
    h.whole hsc ht (by unfold depthAt; omega) (closes_comma hc)
  have hcomma : c.isMark .comma = true := by simp [isMark, hc]
  have hshape : t :: ts ++ c :: us ++ q :: rest = t :: (ts ++ c :: (us ++ q :: rest)) := by simp
  rw [hshape, argumentList, bind_of_read hwhole, bind_of_read (takeMark_read _ _), headD_cons, hcomma, if_pos rfl,
    if_pos rfl, drop_one, tail_cons, bind_of_read (hxs m q rest (by omega) hq)]
  rfl

def ReadsApplied (sc : Scope) (xs : List Expr) (ts : List Token) : Prop :=
  (xs = [] ∧ ts = []) ∨ ((∀ t ∈ ts.head?, t.isMark .rightParen = false) ∧ ts ≠ [] ∧ ReadsArguments sc xs ts)

theorem ReadsApplied.arguments (h : ReadsApplied sc.enclosed xs ts)
    (hp : p.kind = .mark .leftParen) (hq : q.kind = .mark .rightParen) (hn : 20 * ts.length + 32 ≤ n) :
    arguments sc n (p :: (ts ++ q :: rest)) = .ok (xs, rest) := by
  obtain ⟨m, rfl⟩ : ∃ m, n = m + 1 := ⟨n - 1, by omega⟩
  have hopen : p.isMark .leftParen = true := by simp [isMark, hp]
  have hclose : q.isMark .rightParen = true := by simp [isMark, hq]
  rw [arguments, bind_of_read (expectMark_read hopen _)]
  rcases h with ⟨rfl, rfl⟩ | ⟨hfirst, hne, hread⟩
  · rw [nil_append, bind_of_read (takeMark_read _ _), headD_cons, hclose]
    rfl
  · obtain ⟨t, us, rfl⟩ := exists_cons_of_ne_nil hne
    have hread := hread m q rest (by omega) hq
    rw [cons_append] at hread ⊢
    rw [bind_of_read (takeMark_read _ _), headD_cons, hfirst t rfl]
    show (argumentList sc.enclosed m >>= fun args => expectMark .rightParen >>= fun _ => pure args)
      (t :: (us ++ q :: rest)) = _
    rw [bind_of_read hread, bind_of_read (expectMark_read hclose rest)]
    rfl

def Applies (sc : Scope) (xs : List Expr) (ts : List Token) : Prop :=
  ∃ p us q, ts = p :: (us ++ [q]) ∧ p.kind = .mark .leftParen ∧ p.blank = false ∧ q.kind = .mark .rightParen ∧
    ReadsApplied sc.enclosed xs us

theorem Applies.reads (h : Applies sc xs ts) (hn : 20 * ts.length ≤ n) (rest : List Token) :
    atArguments (ts ++ rest) = .ok (true, ts ++ rest) ∧ arguments sc n (ts ++ rest) = .ok (xs, rest) := by
  obtain ⟨p, us, q, rfl, hp, hb, hq, hargs⟩ := h
  simp only [length_cons, length_append] at hn
  rw [cons_append, append_assoc, atArguments_read]
  exact ⟨by simp [isMark, hp, hb], hargs.arguments hp hq (by omega)⟩

theorem BeginsTerm.reads_call (ht : BeginsTerm sc t x call) (h : Applies sc xs ts) :
    Reads sc 9 (call xs) (t :: ts) := by
  intro n rest hn _
  simp only [depthAt, length_cons] at hn
  obtain ⟨m, rfl⟩ : ∃ m, n = m + 1 := ⟨n - 1, by omega⟩
  obtain ⟨hat, hargs⟩ := h.reads (n := m) (by omega) rest
  rw [readerAt_nine, cons_append, ht, bind_of_read hat, if_pos rfl, bind_of_read hargs]
  rfl

/-! ## Values handed on -/

theorem links_pipe (hsc : sc.Open) (ho : o.kind = .mark .pipe) (ht : t.kind = .ofName name) :
    links sc (n + 1) .pipe x (o :: t :: rest) = (atArguments >>= fun b =>
      if b then arguments sc n >>= fun args => links sc n .pipe (.pipeCall x name args)
      else links sc n .pipe (.pipe x name)) rest := by
  have hlink : link? sc .pipe o = some .pipe := by simp [link?, ho]
  rw [links, bind_of_read (current_read _), headD_cons, hlink]
  simp only
  rw [bind_of_read (skip_read 1 _), drop_one, tail_cons, bind_of_read (current_read _), headD_cons,
    name?_ofName ht]
  simp only [hsc.isStop]
  rfl

theorem Chains.pipe (hsc : sc.Open) (hx : Chains sc .pipe x ts) (ho : o.kind = .mark .pipe)
    (ht : t.kind = .ofName name) : Chains sc .pipe (.pipe x name) (ts ++ [o, t]) := by
  refine hx.append (fun _ => closes_pipe ho) fun n rest _ hrest => ?_
  show links sc (n + 2) .pipe x (o :: t :: rest) = _
  rw [links_pipe hsc ho ht, bind_of_read (atArguments_read _), hrest.noArguments]
  rfl

theorem Chains.pipeCall (hsc : sc.Open) (hx : Chains sc .pipe x ts)
    (ho : o.kind = .mark .pipe) (ht : t.kind = .ofName name) (h : Applies sc xs us) :
    Chains sc .pipe (.pipeCall x name xs) (ts ++ o :: t :: us) := by
  refine hx.append (fun _ => closes_pipe ho) fun n rest hn _ => ?_
  simp only [depthAt, length_cons] at hn
  obtain ⟨hat, hargs⟩ := h.reads (n := n + 1) (by omega) rest
  show links sc (n + 2) .pipe x (o :: t :: (us ++ rest)) = _
  rw [links_pipe hsc ho ht, bind_of_read hat, if_pos rfl, bind_of_read hargs]

/-! ## All expressions -/

def Begins (ts : List Token) : Prop := ∃ t us, ts = t :: us ∧ beginsExpr t = true

theorem Begins.append (h : Begins ts) (us : List Token) : Begins (ts ++ us) := by
  obtain ⟨t, vs, rfl, ht⟩ := h
  exact ⟨t, vs ++ us, rfl, ht⟩

structure Faithful (sc : Scope) (x : Expr) (ts : List Token) : Prop where
  begins : Begins ts
  reads : ∀ r ≤ x.rank, Reads sc r x ts
  chains : ∀ L : Level, L.rank = x.rank → Chains sc L x ts

theorem Reads.of_nine (h : Reads sc 9 x (t :: ts)) (ht : prefixOp? t = none) (hr : r ≤ 9) : Reads sc r x (t :: ts) := by
  rcases Nat.lt_or_ge r 9 with hlt | hge
  · exact (h.prefixed ht).looser le_rfl (by omega)
  · obtain rfl : r = 9 := by omega
    exact h

theorem Faithful.of_term (h : Reads sc 9 x (t :: ts)) (ht : beginsExpr t = true) (hp : prefixOp? t = none)
    (hx : x.rank = 9) : Faithful sc x (t :: ts) where
  begins := ⟨t, ts, rfl, ht⟩
  reads r hr := h.of_nine hp (by omega)
  chains L hL := by
    have hrank := L.rank_le
    omega

theorem Level.rank_injective {L' : Level} (h : L.rank = L'.rank) : L = L' := by
  cases L <;> cases L' <;> first | rfl | exact absurd h (by decide)

theorem Faithful.of_chains (h : Chains sc L x ts) (hb : Begins ts) (hx : x.rank = L.rank) : Faithful sc x ts where
  begins := hb
  reads r hr := by
    have hrank := L.rank_le
    exact h.reads.looser (by omega) (by omega)
  chains L' hL' := by
    obtain rfl : L' = L := Level.rank_injective (hL'.trans hx)
    exact h

def ReadsBack (sp : Spelling) (x : Expr) : Prop :=
  ∀ sc : Scope, sc.Open → ∀ ts, ts.map Token.lexeme = x.lexemes sp → Faithful sc x ts

theorem kind_of_lexeme (h : t.lexeme = l) : t.kind = l.kind := by rw [← h]; rfl

theorem blank_of_lexeme (h : t.lexeme = l) : t.blank = l.blank := by rw [← h]; rfl

section Operands

variable {sp : Spelling} {name : Text} {xs : List Expr}

theorem ReadsBack.parenthesised (h : ReadsBack sp x) (sc : Scope)
    (hus : us.map lexeme = Lexeme.enclosed true (x.lexemes sp)) :
    ∃ p vs, us = p :: vs ∧ p.kind = .mark .leftParen ∧ p.blank = true ∧ ∀ r ≤ 9, Reads sc r x us := by
  obtain ⟨p, vs, rfl, hp, hvs⟩ := map_eq_cons_iff.1 hus
  obtain ⟨ts, qs, rfl, hts, hqs⟩ := map_eq_append_iff.1 hvs
  obtain ⟨q, rfl, hq⟩ := map_eq_singleton_iff.1 hqs
  have hx := h sc.enclosed (open_enclosed sc) ts hts
  obtain ⟨t, ts, rfl, ht⟩ := hx.begins
  have hterm := (hx.reads 0 (Nat.zero_le _)).enclosed (kind_of_lexeme hp) (kind_of_lexeme hq) ht
  refine ⟨p, _, rfl, kind_of_lexeme hp, blank_of_lexeme hp, fun r hr => hterm.of_nine ?_ hr⟩
  simp [prefixOp?, kind_of_lexeme hp, Lexeme.ofMark]

theorem ReadsBack.operand (h : ReadsBack sp x) (hsc : sc.Open) (hr : r ≤ 9)
    (hus : us.map lexeme = Lexeme.enclosed (x.rank < r) (x.lexemes sp)) {r' : Nat} (hr' : r' ≤ r) :
    Reads sc r' x us := by
  by_cases hlt : x.rank < r
  · rw [decide_eq_true hlt] at hus
    obtain ⟨p, vs, rfl, -, -, hread⟩ := h.parenthesised sc hus
    exact hread r' (by omega)
  · rw [decide_eq_false hlt] at hus
    exact (h sc hsc us hus).reads r' (by omega)

theorem ReadsBack.leftOperand (h : ReadsBack sp x) (hsc : sc.Open)
    (hus : us.map lexeme = Lexeme.enclosed (x.rank < L.rank) (x.lexemes sp)) : Begins us ∧ Chains sc L x us := by
  have hrank := L.rank_le
  by_cases hlt : x.rank < L.rank
  · rw [decide_eq_true hlt] at hus
    obtain ⟨p, vs, rfl, hp, -, hread⟩ := h.parenthesised sc hus
    exact ⟨⟨p, vs, rfl, by simp [beginsExpr, hp]⟩, (hread (L.rank + 1) (by omega)).chains⟩
  · rw [decide_eq_false hlt] at hus
    have hx := h sc hsc us hus
    refine ⟨hx.begins, ?_⟩
    rcases Nat.lt_or_ge L.rank x.rank with hgt | hge
    · exact (hx.reads (L.rank + 1) hgt).chains
    · exact hx.chains L (by omega)

theorem prefixOp?_prefixMark {op : UnaryOp} (ht : t.kind = .mark (sp.prefixMark op)) : prefixOp? t = some op := by
  unfold prefixOp?
  rw [ht]
  cases op with
  | not => rcases sp.notMark_spells with h | h <;> rw [Spelling.prefixMark, h]
  | neg => rfl
  | plus => rfl

def ReadsBackArguments (sp : Spelling) (xs : List Expr) : Prop :=
  ∀ sc : Scope, sc.Open → ∀ ts, ts.map Token.lexeme = Expr.argumentLexemes sp xs → ReadsApplied sc xs ts

theorem ReadsBackArguments.applies (hxs : ReadsBackArguments sp xs) (sc : Scope)
    (h : ts.map lexeme = Lexeme.openArguments :: (argumentLexemes sp xs ++ [Lexeme.ofMark .rightParen])) :
    Applies sc xs ts := by
  obtain ⟨p, us, rfl, hp, hus⟩ := map_eq_cons_iff.1 h
  obtain ⟨vs, qs, rfl, hvs, hqs⟩ := map_eq_append_iff.1 hus
  obtain ⟨q, rfl, hq⟩ := map_eq_singleton_iff.1 hqs
  exact ⟨p, vs, q, rfl, kind_of_lexeme hp, blank_of_lexeme hp, kind_of_lexeme hq,
    hxs sc.enclosed (open_enclosed sc) vs hvs⟩

theorem beginsExpr_ofName (ht : t.kind = .ofName name) : beginsExpr t = true ∧ prefixOp? t = none := by
  rcases kind_ofName ht with ⟨k, hk, -⟩ | hs
  · simp [beginsExpr, prefixOp?, hk]
  · simp [beginsExpr, prefixOp?, hs]

section

variable (hx : ReadsBack sp x)
include hx

theorem readsBack_binary {op : BinaryOp} (hy : ReadsBack sp y) : ReadsBack sp (.binary op x y) := by
  intro sc hsc ts hts
  rw [lexemes] at hts
  by_cases hop : op = .concat true
  · rw [if_pos hop] at hts
    obtain ⟨ls, rs, rfl, hls, hrs⟩ := map_eq_append_iff.1 hts
    obtain ⟨hbegins, hchain⟩ := hx.leftOperand hsc hls
    obtain ⟨p, us, rfl, hp, hb, hread⟩ := hy.parenthesised sc hrs
    subst hop
    exact .of_chains (hchain.beside hp hb (hread _ (by decide))) (hbegins.append _) rfl
  · rw [if_neg hop] at hts
    obtain ⟨ls, os, rfl, hls, hos⟩ := map_eq_append_iff.1 hts
    obtain ⟨o, rs, rfl, ho, hrs⟩ := map_eq_cons_iff.1 hos
    obtain ⟨hbegins, hchain⟩ := hx.leftOperand hsc hls
    have hrank := op.level.rank_le
    have hread := hy.operand hsc (by omega) hrs le_rfl
    exact .of_chains (hchain.binary (kind_of_lexeme ho) (sp.mark_spells op hop) hread) (hbegins.append _) rfl

theorem readsBack_unary {op : UnaryOp} : ReadsBack sp (.unary op x) := by
  intro sc hsc ts hts
  obtain ⟨o, us, rfl, ho, hus⟩ := map_eq_cons_iff.1 hts
  have hop := prefixOp?_prefixMark (kind_of_lexeme ho)
  have hrank : 8 ≤ sp.prefixRank ∧ sp.prefixRank ≤ 9 := by unfold Spelling.prefixRank; split <;> omega
  have hunary := (hx.operand hsc hrank.2 hus hrank.1).unary hop
  refine ⟨⟨o, us, rfl, ?_⟩, fun r hr => hunary.looser le_rfl hr, fun L hL => ?_⟩
  · simp [beginsExpr, kind_of_lexeme ho, Lexeme.ofMark, hop]
  · have hL' := L.rank_le
    rw [hL, rank] at hL'
    omega

omit hx in
theorem readsBack_call {quoted : Bool} (hxs : ReadsBackArguments sp xs) : ReadsBack sp (.call name quoted xs) := by
  intro sc hsc ts hts
  obtain ⟨t, us, rfl, ht, hus⟩ := map_eq_cons_iff.1 hts
  have hargs := hxs.applies sc hus
  have ht := kind_of_lexeme ht
  cases quoted with
  | false =>
    obtain ⟨hbegins, hprefix⟩ := beginsExpr_ofName ht
    exact .of_term ((beginsTerm_name hsc ht).reads_call hargs) hbegins hprefix rfl
  | true =>
    refine .of_term ((beginsTerm_literal ht).reads_call hargs) ?_ ?_ rfl
    · simp [beginsExpr, ht]
    · simp [prefixOp?, ht]

theorem readsBack_pipe : ReadsBack sp (.pipe x name) := by
  intro sc hsc ts hts
  obtain ⟨ls, os, rfl, hls, hos⟩ := map_eq_append_iff.1 hts
  obtain ⟨o, os, rfl, ho, hos⟩ := map_eq_cons_iff.1 hos
  obtain ⟨t, rfl, ht⟩ := map_eq_singleton_iff.1 hos
  obtain ⟨hbegins, hchain⟩ := hx.leftOperand (L := .pipe) hsc hls
  exact .of_chains (hchain.pipe hsc (kind_of_lexeme ho) (kind_of_lexeme ht)) (hbegins.append _) rfl

theorem readsBack_pipeCall (hxs : ReadsBackArguments sp xs) : ReadsBack sp (.pipeCall x name xs) := by
  intro sc hsc ts hts
  obtain ⟨ls, os, rfl, hls, hos⟩ := map_eq_append_iff.1 hts
  obtain ⟨o, os, rfl, ho, hos⟩ := map_eq_cons_iff.1 hos
  obtain ⟨t, us, rfl, ht, hus⟩ := map_eq_cons_iff.1 hos
  obtain ⟨hbegins, hchain⟩ := hx.leftOperand (L := .pipe) hsc hls
  exact .of_chains (hchain.pipeCall hsc (kind_of_lexeme ho) (kind_of_lexeme ht) (hxs.applies sc hus)) (hbegins.append _) rfl

omit hx in
theorem not_rightParen (ht : beginsExpr t = true) : t.isMark .rightParen = false := by
  cases hmark : t.isMark .rightParen with
  | false => rfl
  | true =>
    rw [beginsExpr, prefixOp?, show t.kind = .mark .rightParen from eq_of_beq hmark] at ht
    exact absurd ht Bool.false_ne_true

theorem readsBackArguments_singleton : ReadsBackArguments sp [x] := by
  intro sc hsc ts hts
  have hf := hx sc hsc ts hts
  obtain ⟨t, us, rfl, ht⟩ := hf.begins
  exact .inr ⟨by simpa using not_rightParen ht, by simp, (hf.reads 0 (Nat.zero_le _)).lastArgument hsc ht⟩

theorem readsBackArguments_cons (hxs : ReadsBackArguments sp (y :: xs)) : ReadsBackArguments sp (x :: y :: xs) := by
  intro sc hsc ts hts
  obtain ⟨ls, cs, rfl, hls, hcs⟩ := map_eq_append_iff.1 hts
  obtain ⟨c, us, rfl, hc, hus⟩ := map_eq_cons_iff.1 hcs
  have hf := hx sc hsc ls hls
  obtain ⟨t, vs, rfl, ht⟩ := hf.begins
  rcases hxs sc hsc us hus with ⟨hnil, -⟩ | ⟨-, -, hread⟩
  · cases hnil
  · exact .inr ⟨by simpa using not_rightParen ht, by simp,
      (hf.reads 0 (Nat.zero_le _)).argument hsc ht (kind_of_lexeme hc) hread⟩

end

end Operands

mutual

theorem readsBack (sp : Spelling) : ∀ x : Expr, ReadsBack sp x
  | .literal text none => by
    intro sc _ ts hts
    obtain ⟨t, rfl, ht⟩ := List.map_eq_singleton_iff.1 (by rwa [Expr.lexemes] at hts)
    have ht := kind_of_lexeme ht
    exact .of_term (reads_number ht) (by simp [beginsExpr, ht]) (by simp [prefixOp?, ht]) rfl
  | .literal text (some quote) => by
    intro sc _ ts hts
    obtain ⟨t, rfl, ht⟩ := List.map_eq_singleton_iff.1 (by rwa [Expr.lexemes] at hts)
    have ht := kind_of_lexeme ht
    exact .of_term (beginsTerm_literal ht).reads (by simp [beginsExpr, ht]) (by simp [prefixOp?, ht]) rfl
  | .symbol name => by
    intro sc hsc ts hts
    obtain ⟨t, rfl, ht⟩ := List.map_eq_singleton_iff.1 (by rwa [Expr.lexemes] at hts)
    obtain ⟨hbegins, hprefix⟩ := beginsExpr_ofName (kind_of_lexeme ht)
    exact .of_term (beginsTerm_name hsc (kind_of_lexeme ht)).reads hbegins hprefix rfl
  | .call _ _ args => readsBack_call (readsBackArguments sp args)
  | .binary _ l r => readsBack_binary (readsBack sp l) (readsBack sp r)
  | .unary _ x => readsBack_unary (readsBack sp x)
  | .pipe value _ => readsBack_pipe (readsBack sp value)
  | .pipeCall value _ args => readsBack_pipeCall (readsBack sp value) (readsBackArguments sp args)

theorem readsBackArguments (sp : Spelling) : ∀ xs : List Expr, ReadsBackArguments sp xs
  | [] => by
    intro sc _ ts hts
    rw [Expr.argumentLexemes] at hts
    exact .inl ⟨rfl, List.map_eq_nil_iff.1 hts⟩
  | [x] => readsBackArguments_singleton (readsBack sp x)
  | x :: y :: rest => readsBackArguments_cons (readsBack sp x) (readsBackArguments sp (y :: rest))

end

/-! ## An assignment -/

theorem readsBack_expression {eoc : Token} (sp : Spelling) (hts : ts.map lexeme = x.lexemes sp)
    (heoc : eoc.kind = .endOfClause) :
    expression .top (ts ++ eoc :: rest) = .ok (x, eoc :: rest) := by
  have hx := readsBack sp x .top open_top ts hts
  obtain ⟨t, us, rfl, ht⟩ := hx.begins
  refine (hx.reads 0 (Nat.zero_le _)).whole open_top ht ?_ (closes_endOfClause heoc)
  simp only [depthAt, depthFor, length_append, length_cons]
  omega

end Rexx.Grammar

namespace Rexx

open Grammar

theorem Grammar.programBody_single {t eoc eos : Token} {ts : List Token} {s : Stmt} {n : Nat}
    (ht : t.IsWord) (heoc : eoc.kind = .endOfClause) (heos : eos.kind = .endOfSource)
    (hstatement : statement .top (n + 1) (t :: ts) = .ok (s, [eoc, eos])) :
    programBody (n + 2) (t :: ts) = .ok ([s], [eos]) := by
  have hends : skipEnds (t :: ts) = .ok (⟨⟩, t :: ts) := by
    rw [skipEnds_read]
    simp [ht.1]
  have hlast : programBody (n + 1) [eoc, eos] = .ok ([], [eos]) := by
    rw [programBody, bind_of_read (skipEnds_read _)]
    simp [heoc, heos, bind_of_read (current_read _)]
    rfl
  have hend : Scope.top.endsClause eoc = true := by simp [Scope.endsClause, heoc]
  rw [programBody, bind_of_read hends, bind_of_read (current_read _)]
  simp only [List.headD_cons, beq_eq_false_iff_ne.2 ht.2]
  show (statement .top (n + 1) >>= fun s => _) _ = _
  rw [bind_of_read hstatement, bind_of_read (current_read _)]
  rw [List.headD_cons, hend, Bool.not_true, Bool.and_false, if_neg Bool.false_ne_true, bind_of_read hlast]
  rfl

theorem Grammar.programBody_assign {v eq eoc eos : Token} {ts : List Token} {name : Text} {x : Expr} {n : Nat}
    (hv : v.kind = .symbol name) (heq : eq.kind = .mark .equal) (heoc : eoc.kind = .endOfClause)
    (heos : eos.kind = .endOfSource)
    (hx : expression .top (ts ++ [eoc, eos]) = .ok (x, [eoc, eos])) :
    programBody (n + 2) (v :: eq :: (ts ++ [eoc, eos])) = .ok ([.clause v.pos (.assign name x)], [eos]) := by
  have hname : v.name? = some name := by simp [Token.name?, hv]
  refine programBody_single (isWord_of_name? hname) heoc heos ?_
  rw [statement_assigns n hname (by simp [Token.isMark, heq])]
  exact bind_of_read hx

/-- **Reading inverts writing**: what is written as an assignment of an expression is read as that assignment. -/
theorem Program.parse_render (sp : Spelling) (x : Expr) (name : Text) (hx : x.isRenderable = true) :
    Program.parse ("X = ".toList ++ x.render sp) name =
      .ok (Program.ofBody name (Text.lines ("X = ".toList ++ x.render sp)) [.clause ⟨1, 1⟩ (.assign "X" x)]) := by
  have hspaced := x.wellSpaced_lexemes sp hx
  have htext : "X = ".toList ++ x.render sp =
      (⟨.symbol "X", false⟩ :: Lexeme.ofMark .equal :: x.lexemes sp).flatMap Lexeme.text := by
    rw [List.flatMap_cons, List.flatMap_cons, Lexeme.flatMap_text hspaced (x.lexemes_ne_nil sp)]
    rfl
  obtain ⟨v, us, eoc, eos, hlex, hv, hpos, hus, heoc, heos⟩ :=
    Token.lex_text (l := ⟨.symbol "X", false⟩) (by decide) rfl (Lexeme.WellSpaced.ofMark .equal hspaced)
  obtain ⟨eq, ts, rfl, heq, hts⟩ := List.map_eq_cons_iff.1 hus
  rw [← htext] at hlex
  have hread : expression .top (ts ++ [eoc, eos]) = .ok (x, [eoc, eos]) := readsBack_expression sp hts heoc
  have hbody : programBody (depthFor (v :: (eq :: ts ++ [eoc, eos])).length) (v :: (eq :: ts ++ [eoc, eos])) =
      .ok ([.clause v.pos (.assign "X" x)], [eos]) := by
    obtain ⟨n, hn⟩ : ∃ n, depthFor (v :: (eq :: ts ++ [eoc, eos])).length = n + 2 := ⟨_, rfl⟩
    rw [hn]
    exact programBody_assign (kind_of_lexeme hv) (kind_of_lexeme heq) heoc heos hread
  unfold Program.parse
  rw [hlex]
  show Except.bind (programBody _ _) _ = _
  rw [hbody, hpos]
  rfl

def Expr.mixed : Expr :=
  .pipeCall
    (.binary (.concat true)
      (.unary .neg (.binary (.arith .pow) (.binary (.arith .add) (.symbol "IF") (.literal "1E+5" none)) (.symbol "Y")))
      (.call "it's" true [.literal "a\x22b" (some .double), .binary (.compare .ne) (.symbol "THEN") (.unary .not (.symbol "Z"))]))
    "TRANSLATE" [.symbol "_"]

theorem Program.parse_render_mixed :
    Expr.mixed.isRenderable = true ∧
    Expr.mixed.render .standard =
      "- ( ( IF + 1E+5 ) ** Y ) ( \x22it's\x22( \x22a\x22\x22b\x22 , THEN \\= \\ Z ) ) |> TRANSLATE( _ )".toList ∧
    Program.parse ("X = ".toList ++ Expr.mixed.render .standard) [] =
      .ok (Program.ofBody [] (Text.lines ("X = ".toList ++ Expr.mixed.render .standard))
        [.clause ⟨1, 1⟩ (.assign "X" Expr.mixed)]) :=
  ⟨by decide, by decide, Program.parse_render .standard Expr.mixed [] (by decide)⟩

end Rexx
