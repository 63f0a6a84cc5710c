import Rexx.Proofs.Token.Lines
import Rexx.Proofs.Grammar.Reading

/-!
# `Grammar.Agreement` — readers on two lists of tokens side by side

Readers look at the kinds of tokens and at the blanks before them, and they move over words only: never past the end
of a clause or of the source.
-/

namespace Rexx.Grammar

open Grammar Scope Token

variable {α β γ : Type} {ts ts' us vs : List Token} {t t' : Token}

/-! ## Words -/

theorem isWord_of_kind {k : TokenKind} (h : t.kind = k) (hclause : k ≠ .endOfClause) (hsource : k ≠ .endOfSource) :
    t.IsWord := ⟨h ▸ hclause, h ▸ hsource⟩

theorem isWord_of_isMark {m : Mark} (h : t.isMark m = true) : t.IsWord :=
  isWord_of_kind (beq_iff_eq.1 h) (by simp) (by simp)

theorem isWord_of_isKeyword {k : Keyword} (h : t.isKeyword k = true) : t.IsWord :=
  isWord_of_kind (beq_iff_eq.1 h) (by simp) (by simp)

theorem isWord_of_name? {name : Text} (h : t.name? = some name) : t.IsWord := by
  constructor <;> intro hkind <;> simp [name?, hkind] at h

theorem isWord_of_isWord {word : Text} (h : t.isWord word = true) : t.IsWord := isWord_of_name? (beq_iff_eq.1 h)

theorem isMark_eq (h : t.kind = t'.kind) (m : Mark) : t.isMark m = t'.isMark m := by rw [isMark, isMark, h]

theorem isKeyword_eq (h : t.kind = t'.kind) (k : Keyword) : t.isKeyword k = t'.isKeyword k := by
  rw [isKeyword, isKeyword, h]

theorem name?_eq (h : t.kind = t'.kind) : t.name? = t'.name? := by rw [name?, name?, h]

theorem isWord_eq (h : t.kind = t'.kind) (word : Text) : t.isWord word = t'.isWord word := by
  rw [isWord, isWord, name?_eq h]

/-! ## Scopes that end expressions at the same words -/

structure Scope.Alike (sc sc' : Scope) : Prop where
  stops : sc.stops = sc'.stops
  elseEnds : sc.elseEnds = sc'.elseEnds

variable {sc sc' : Scope}

namespace Scope.Alike

theorem refl (sc : Scope) : sc.Alike sc := ⟨rfl, rfl⟩

theorem stopping (h : sc.Alike sc') (words : List Text) : (sc.stopping words).Alike (sc'.stopping words) :=
  ⟨by simp [Scope.stopping, h.stops], h.elseEnds⟩

theorem enclosed (sc sc' : Scope) : sc.enclosed.Alike sc'.enclosed := ⟨rfl, rfl⟩

theorem endsClause (h : sc.Alike sc') (ht : t.kind = t'.kind) : sc.endsClause t = sc'.endsClause t' := by
  unfold Scope.endsClause
  rw [ht, h.elseEnds]

theorem isStop (h : sc.Alike sc') (ht : t.kind = t'.kind) : sc.isStop t = sc'.isStop t' := by
  unfold Scope.isStop
  rw [name?_eq ht, isKeyword_eq ht, h.stops, h.elseEnds]

theorem endsExpr (h : sc.Alike sc') (ht : t.kind = t'.kind) : sc.endsExpr t = sc'.endsExpr t' := by
  unfold Scope.endsExpr
  rw [h.endsClause ht, h.isStop ht, isMark_eq ht, isMark_eq ht]

end Scope.Alike

theorem isWord_of_not_endsClause (h : ¬ sc.endsClause t = true) : t.IsWord := by
  constructor <;> intro hkind <;> simp [endsClause, hkind] at h

theorem isWord_of_link? {level : Level} {link : Link} (h : link? sc level t = some link) : t.IsWord := by
  constructor <;> intro hkind <;> simp [link?, hkind, startsTerm] at h

theorem isWord_of_prefixOp? {op : UnaryOp} (h : prefixOp? t = some op) : t.IsWord := by
  constructor <;> intro hkind <;> simp [prefixOp?, hkind] at h

/-! ## Pairs of lists -/

structure Pairing where
  Pairs : List Token → List Token → Prop
  Strict : Prop
  Placed : Position → Prop
  heads : ∀ {ts ts' : List Token}, Pairs ts ts' → ∃ t t' us us', ts = t :: us ∧ ts' = t' :: us' ∧ t.kind = t'.kind ∧
    (Strict → t' = t ∧ Placed t.pos) ∧ (t.IsWord → t.blank = t'.blank ∧ Pairs us us')
  length_le : ∀ {ts ts' : List Token}, Pairs ts ts' → ts.length ≤ ts'.length

variable {P : Pairing}

structure Pairing.Like (P : Pairing) (t t' : Token) : Prop where
  kind : t.kind = t'.kind
  blank : t.IsWord → t.blank = t'.blank
  same : P.Strict → t' = t

theorem Pairing.first (P : Pairing) (h : P.Pairs ts ts') : ∃ t t' us us', ts = t :: us ∧ ts' = t' :: us' ∧ P.Like t t' ∧
    (t.IsWord → P.Pairs us us') := by
  obtain ⟨t, t', us, us', hts, hts', hkind, hstrict, hword⟩ := P.heads h
  exact ⟨t, t', us, us', hts, hts', ⟨hkind, fun hw => (hword hw).1, fun hs => (hstrict hs).1⟩, fun hw => (hword hw).2⟩

theorem length_of_cons (h : ts = t :: us) : ts.length = us.length + 1 := by rw [h, List.length_cons]

inductive Agrees (P : Pairing) (Q : α → List Token → Prop) :
    Except SyntaxError (α × List Token) → Except SyntaxError (α × List Token) → Prop
  | reads {a : α} {us us' : List Token} (left : P.Pairs us us') (post : Q a us) : Agrees P Q (.ok (a, us)) (.ok (a, us'))
  | refuses {e : SyntaxError} {x : Except SyntaxError (α × List Token)}
      (alike : P.Strict → e.cause ≠ .nestedTooDeeply ∧ P.Placed e.pos ∧ x = .error e) : Agrees P Q (.error e) x

/-- **The readers agree** on what is paired with `ts`; what is read has the property `Q`. -/
def Agree (P : Pairing) (Q : α → List Token → Prop) (r r' : Reader α) (ts : List Token) : Prop :=
  ∀ ts', P.Pairs ts ts' → Agrees P Q (r ts) (r' ts')

abbrev NoMore (ts : List Token) (_ : α) (us : List Token) : Prop := us.length ≤ ts.length

abbrev Fewer (ts : List Token) (_ : α) (us : List Token) : Prop := us.length < ts.length

abbrev Takes (ts : List Token) (p : α → Prop) (a : α) (us : List Token) : Prop := us.length ≤ ts.length ∧ p a

abbrev TakesWord (ts : List Token) (p : α → Prop) (a : α) (us : List Token) : Prop := us.length < ts.length ∧ p a

def FewerIfSome (ts : List Token) (a : Option α) (us : List Token) : Prop :=
  us.length ≤ ts.length ∧ (a.isSome = true → us.length < ts.length)

namespace Agree

variable {Q Q' : α → List Token → Prop} {R : β → List Token → Prop} {r r' : Reader α} {f f' : α → Reader β}
  {cause : SyntaxCause}

/-! ## Sequencing -/

theorem pure {a : α} (h : Q a ts) : Agree P Q (Pure.pure a) (Pure.pure a) ts := fun _ hts => .reads hts h

theorem bind (h : Agree P Q r r' ts) (hf : ∀ a us, Q a us → Agree P R (f a) (f' a) us) :
    Agree P R (r >>= f) (r' >>= f') ts := by
  intro ts' hts
  have hread := h ts' hts
  show Agrees P R (Except.bind (r ts) _) (Except.bind (r' ts') _)
  generalize r ts = x at hread ⊢
  generalize r' ts' = x' at hread ⊢
  cases hread with
  | reads hleft hpost => exact hf _ _ hpost _ hleft
  | refuses halike =>
    refine .refuses fun hstrict => ?_
    obtain ⟨hown, hplaced, rfl⟩ := halike hstrict
    exact ⟨hown, hplaced, rfl⟩

theorem mono (h : Agree P Q r r' ts) (hQ : ∀ a us, Q a us → Q' a us) : Agree P Q' r r' ts := by
  intro ts' hts
  have hread := h ts' hts
  generalize r ts = x at hread ⊢
  generalize r' ts' = x' at hread ⊢
  cases hread with
  | reads hleft hpost => exact .reads hleft (hQ _ _ hpost)
  | refuses halike => exact .refuses halike

theorem noMore (h : Agree P (NoMore us) r r' vs) (hle : us.length ≤ ts.length) : Agree P (NoMore ts) r r' vs :=
  h.mono fun _ _ hle' => Nat.le_trans hle' hle

theorem map {g : α → β} (h : Agree P Q r r' ts) (hQ : ∀ a us, Q a us → R (g a) us) : Agree P R (g <$> r) (g <$> r') ts := by
  exact h.bind fun a us hpost => .pure (hQ a us hpost)

variable {word : Text} {cause' : SyntaxCause} {e e' : SyntaxError} {q q' : Reader α}
  {item item' : Reader (Option α)}

theorem ite {c : Prop} [Decidable c] (hpos : c → Agree P Q r r' ts) (hneg : ¬ c → Agree P Q q q' ts) :
    Agree P Q (if c then r else q) (if c then r' else q') ts := by
  by_cases hc : c
  · rw [if_pos hc, if_pos hc]
    exact hpos hc
  · rw [if_neg hc, if_neg hc]
    exact hneg hc

theorem throw (h : P.Strict → e.cause ≠ .nestedTooDeeply ∧ P.Placed e.pos ∧ e' = e) :
    Agree P Q (throw e) (throw e') ts := by
  intro ts' _
  refine .refuses fun hstrict => ?_
  obtain ⟨hown, hplaced, rfl⟩ := h hstrict
  exact ⟨hown, hplaced, rfl⟩

theorem throw_bind (h : P.Strict → e.cause ≠ .nestedTooDeeply ∧ P.Placed e.pos ∧ e' = e) :
    Agree P R (MonadExcept.throw e >>= f) (MonadExcept.throw e' >>= f') ts :=
  (throw (Q := fun _ _ => False) h).bind fun _ _ hfalse => hfalse.elim

theorem failing (hown : cause ≠ .nestedTooDeeply) (hsame : P.Strict → cause' = cause) :
    Agree P Q (fail cause) (fail cause') ts := by
  intro ts' hts
  obtain ⟨t, t', us, us', rfl, rfl, -, hstrict, -⟩ := P.heads hts
  refine .refuses fun h => ?_
  obtain ⟨rfl, hplaced⟩ := hstrict h
  rw [hsame h]
  exact ⟨hown, hplaced, rfl⟩

theorem fail (hown : cause ≠ .nestedTooDeeply) :
    Agree P Q (fail cause) (fail cause) ts := failing hown fun _ => rfl

theorem failing_bind (hown : cause ≠ .nestedTooDeeply) (hsame : P.Strict → cause' = cause) :
    Agree P R (Grammar.fail cause >>= f) (Grammar.fail cause' >>= f') ts :=
  (failing (Q := fun _ _ => False) hown hsame).bind fun _ _ hfalse => hfalse.elim

theorem fail_bind (hown : cause ≠ .nestedTooDeeply) :
    Agree P R (Grammar.fail cause >>= f) (Grammar.fail cause >>= f') ts := failing_bind hown fun _ => rfl

/-! ## Looking and moving -/

theorem current {f f' : Token → Reader β} (h : ∀ t t' us, ts = t :: us → P.Like t t' → Agree P R (f t) (f' t') ts) :
    Agree P R (current >>= f) (current >>= f') ts := by
  intro ts' hts
  obtain ⟨t, t', us, us', rfl, rfl, ht, -⟩ := P.first hts
  exact h t t' us rfl ht _ hts

theorem look {q q' : Reader γ} (g g' : Token → γ) (hq : ∀ l, q l = .ok (g (l.headD nowhere), l))
    (hq' : ∀ l, q' l = .ok (g' (l.headD nowhere), l)) (hg : ∀ t t', P.Like t t' → g' t' = g t) {f f' : γ → Reader β}
    (h : ∀ t us, ts = t :: us → Agree P R (f (g t)) (f' (g t)) ts) : Agree P R (q >>= f) (q' >>= f') ts := by
  intro ts' hts
  obtain ⟨t, t', us, us', rfl, rfl, ht, -⟩ := P.first hts
  rw [bind_of_read (hq _), bind_of_read (hq' _), List.headD_cons, List.headD_cons, hg t t' ht]
  exact h t us rfl _ hts

theorem atWord {f f' : Bool → Reader β} (h : ∀ b, Agree P R (f b) (f' b) ts) :
    Agree P R (atWord word >>= f) (atWord word >>= f') ts :=
  look (·.isWord word) (·.isWord word) (atWord_read word) (atWord_read word) (fun _ _ ht => (isWord_eq ht.kind word).symm)
    fun _ _ _ => h _

theorem atEnd (hsc : sc.Alike sc') {f f' : Bool → Reader β}
    (h : ∀ t us, ts = t :: us → Agree P R (f (sc.endsClause t)) (f' (sc.endsClause t)) ts) :
    Agree P R (atEnd sc >>= f) (atEnd sc' >>= f') ts :=
  look sc.endsClause sc'.endsClause (atEnd_read sc) (atEnd_read sc') (fun _ _ ht => (hsc.endsClause ht.kind).symm) h

theorem untilEnd (hsc : sc.Alike sc') (hend : Agree P Q r r' ts)
    (h : ∀ t us, ts = t :: us → t.IsWord → Agree P Q q q' ts) :
    Agree P Q (Grammar.atEnd sc >>= fun b => if b = true then r else q)
      (Grammar.atEnd sc' >>= fun b => if b = true then r' else q') ts :=
  atEnd hsc fun t us hts => ite (fun _ => hend) fun hne => h t us hts (isWord_of_not_endsClause hne)

theorem atArguments {f f' : Bool → Reader β} (h : ∀ b, Agree P R (f b) (f' b) ts) :
    Agree P R (atArguments >>= f) (atArguments >>= f') ts := by
  refine look (fun t => t.isMark .leftParen && !t.blank) (fun t => t.isMark .leftParen && !t.blank) atArguments_read
    atArguments_read ?_ fun _ _ _ => h _
  intro t t' ht
  rw [← isMark_eq ht.kind]
  cases hmark : t.isMark .leftParen with
  | false => rfl
  | true => rw [ht.blank (isWord_of_isMark hmark)]

theorem skip {f f' : Unit → Reader β} (hts : ts = t :: us) (ht : t.IsWord) (h : Agree P R (f ⟨⟩) (f' ⟨⟩) us) :
    Agree P R (skip 1 >>= f) (skip 1 >>= f') ts := by
  subst hts
  intro ts' hts
  obtain ⟨u, u', us, us', ⟨⟩, rfl, -, hword⟩ := P.first hts
  exact h _ (hword ht)

theorem skipTwo {u : Token} {f f' : Unit → Reader β} (hts : ts = t :: u :: us) (ht : t.IsWord) (hu : u.IsWord)
    (h : Agree P R (f ⟨⟩) (f' ⟨⟩) us) : Agree P R (Grammar.skip 2 >>= f) (Grammar.skip 2 >>= f') ts := by
  subst hts
  intro ts' hts
  obtain ⟨_, _, _, us', ⟨⟩, rfl, -, hword⟩ := P.first hts
  obtain ⟨_, _, _, vs', ⟨⟩, rfl, -, hword'⟩ := P.first (hword ht)
  exact h _ (hword' hu)

theorem get {f f' : List Token → Reader β} (h : ∀ ts', P.Pairs ts ts' → Agree P R (f ts) (f' ts') ts) :
    Agree P R (get >>= f) (get >>= f') ts := by
  intro ts' hts
  exact h ts' hts ts' hts

theorem set {us' : List Token} {f f' : PUnit → Reader β} (hus : P.Pairs us us') (h : Agree P R (f ⟨⟩) (f' ⟨⟩) us) :
    Agree P R (set us >>= f) (set us' >>= f') ts := fun _ _ => h us' hus

theorem take {q : Reader Bool} (p : Token → Bool)
    (hq : ∀ l, q l = .ok (p (l.headD nowhere), if p (l.headD nowhere) then l.drop 1 else l))
    (hp : ∀ t, p t = true → t.IsWord) (hkind : ∀ t t' : Token, t.kind = t'.kind → p t = p t') {f f' : Bool → Reader β}
    (htrue : ∀ us, us.length < ts.length → Agree P R (f true) (f' true) us) (hfalse : Agree P R (f false) (f' false) ts) :
    Agree P R (q >>= f) (q >>= f') ts := by
  intro ts' hts
  obtain ⟨t, t', us, us', rfl, rfl, ht, hword⟩ := P.first hts
  rw [bind_of_read (hq _), bind_of_read (hq _), List.headD_cons, List.headD_cons, ← hkind t t' ht.kind]
  cases hwanted : p t with
  | false => exact hfalse _ hts
  | true => exact htrue us (by simp) _ (hword (hp t hwanted))

theorem takeMark {m : Mark} {f f' : Bool → Reader β}
    (htrue : ∀ us, us.length < ts.length → Agree P R (f true) (f' true) us) (hfalse : Agree P R (f false) (f' false) ts) :
    Agree P R (takeMark m >>= f) (takeMark m >>= f') ts :=
  take (·.isMark m) (takeMark_read m) (fun _ => isWord_of_isMark) (fun _ _ h => isMark_eq h m) htrue hfalse

theorem takeWord {f f' : Bool → Reader β}
    (htrue : ∀ us, us.length < ts.length → Agree P R (f true) (f' true) us) (hfalse : Agree P R (f false) (f' false) ts) :
    Agree P R (takeWord word >>= f) (takeWord word >>= f') ts :=
  take (·.isWord word) (takeWord_read word) (fun _ => isWord_of_isWord) (fun _ _ h => isWord_eq h word) htrue hfalse

theorem expectMark (m : Mark) : Agree P (Fewer ts) (expectMark m) (expectMark m) ts :=
  takeMark (fun _ hlt => pure hlt) (fail (by simp))

theorem ahead {f f' : Token → Reader β} (hlast : ∀ t us u u', ts = t :: us → ¬ t.IsWord → Agree P R (f u) (f' u') ts)
    (h : ∀ t u u' us, ts = t :: u :: us → t.IsWord → P.Like u u' → Agree P R (f u) (f' u') ts) :
    Agree P R (ahead 1 >>= f) (ahead 1 >>= f') ts := by
  intro ts' hts
  obtain ⟨t, t', us, us', rfl, rfl, -, hword⟩ := P.first hts
  by_cases ht : t.IsWord
  · obtain ⟨u, u', vs, vs', rfl, rfl, hu, -⟩ := P.first (hword ht)
    exact h t u u' vs rfl ht hu _ hts
  · exact hlast t us _ _ rfl ht _ hts

/-! ## Names, numbers and repetition -/

theorem symbolName (what place : Text) : Agree P (Fewer ts) (symbolName what place) (symbolName what place) ts := by
  refine current fun t t' us hts ht => ?_
  rw [← name?_eq ht.kind]
  cases hname : t.name? with
  | none => exact fail (by simp)
  | some name => exact skip hts (isWord_of_name? hname) (pure (by simp [hts]))

theorem anyName (what : Text) : Agree P (Fewer ts) (anyName what) (anyName what) ts := by
  refine current fun t t' us hts ht => ?_
  have htake : ∀ name : Text, t.IsWord → Agree P (Fewer ts) (Grammar.skip 1 >>= fun _ => Pure.pure name)
      (Grammar.skip 1 >>= fun _ => Pure.pure name) ts :=
    fun name hw => skip hts hw (pure (by simp [hts]))
  rw [← name?_eq ht.kind, ← ht.kind]
  split
  · next hname => exact htake _ (isWord_of_name? hname)
  · exact fail (by simp)
  · next hkind => exact htake _ (isWord_of_kind hkind (by simp) (by simp))
  · exact fail (by simp)

theorem wholeNumber : Agree P (Fewer ts) wholeNumber wholeNumber ts := by
  refine current fun t t' us hts ht => ?_
  rw [← ht.kind]
  split
  · next hkind =>
    refine ite (fun _ => ?_) fun _ => fail (by simp)
    exact skip hts (isWord_of_kind hkind (by simp) (by simp)) (pure (by simp [hts]))
  · exact fail (by simp)

theorem many (hitem : ∀ ts, Agree P (FewerIfSome ts) item item' ts) {n n' : Nat}
    (hn : ts.length < min n n') : Agree P (NoMore ts) (many item n) (many item' n') ts := by
  induction n generalizing n' ts with
  | zero => omega
  | succ n ih =>
    obtain ⟨n', rfl⟩ : ∃ k, n' = k + 1 := ⟨n' - 1, by omega⟩
    apply (hitem ts).bind
    rintro a us ⟨hle, hlt⟩
    cases a with
    | none => exact pure hle
    | some a =>
      have hlt : us.length < ts.length := hlt rfl
      exact (ih (by omega)).bind fun as vs hle' => pure (Nat.le_trans hle' hle)

theorem all (hitem : ∀ ts, Agree P (FewerIfSome ts) item item' ts) : Agree P (NoMore ts) (all item) (all item') ts :=
  get fun _ hts => many hitem (by have := P.length_le hts; omega)

end Agree

/-! ## Expressions -/

def Level.descent : Level → Nat
  | .pipe => 18
  | .or => 16
  | .and => 14
  | .compare => 12
  | .concat => 10
  | .add => 8
  | .multiply => 6
  | .power => 4

theorem Level.descent_le (level : Level) : level.descent ≤ 18 ∧ 4 ≤ level.descent := by
  cases level <;> decide

theorem Level.descent_tighter {level tighter : Level} (h : level.tighter? = some tighter) :
    tighter.descent + 2 = level.descent := by
  cases level <;> cases h <;> rfl

structure Deep (P : Pairing) (n : Nat) : Prop where
  levelExpr : ∀ {n' : Nat} {sc sc' : Scope} {level : Level} {ts : List Token}, sc.Alike sc' →
    24 * ts.length + level.descent ≤ min n n' →
    Agree P (Fewer ts) (levelExpr sc n level) (levelExpr sc' n' level) ts
  operand : ∀ {n' : Nat} {sc sc' : Scope} {level : Level} {ts : List Token}, sc.Alike sc' →
    24 * ts.length + level.descent ≤ min (n + 1) (n' + 1) →
    Agree P (Fewer ts) (operand sc n level) (operand sc' n' level) ts
  links : ∀ {n' : Nat} {sc sc' : Scope} {level : Level} {ts : List Token} (left : Expr), sc.Alike sc' →
    24 * ts.length + level.descent ≤ min n n' →
    Agree P (NoMore ts) (links sc n level left) (links sc' n' level left) ts
  prefixExpr : ∀ {n' : Nat} {sc sc' : Scope} {ts : List Token}, sc.Alike sc' → 24 * ts.length + 2 ≤ min n n' → Agree P (Fewer ts) ( prefixExpr sc n) ( prefixExpr sc' n') ts
  term : ∀ {n' : Nat} {sc sc' : Scope} {ts : List Token}, sc.Alike sc' → 24 * ts.length + 1 ≤ min n n' → Agree P (Fewer ts) (term sc n) (term sc' n') ts
  arguments : ∀ {n' : Nat} {sc sc' : Scope} {ts : List Token}, 24 * ts.length + 1 ≤ min n n' →
    Agree P (Fewer ts) (arguments sc n) (arguments sc' n') ts
  argumentList : ∀ {n' : Nat} {sc sc' : Scope} {ts : List Token}, sc.Alike sc' → 24 * ts.length + 20 ≤ min n n' → Agree P (Fewer ts) (argumentList sc n) (argumentList sc' n') ts
  whole : ∀ {n' : Nat} {sc sc' : Scope} {ts : List Token}, sc.Alike sc' → 24 * ts.length + 19 ≤ min n n' → Agree P (Fewer ts) (whole sc n) (whole sc' n') ts

namespace Deep

theorem zero : Deep P 0 where
  levelExpr {n' sc sc' level ts} _ h := by have := level.descent_le; omega
  operand {n' sc sc' level ts} _ h := by have := level.descent_le; omega
  links {n' sc sc' level ts} left _ h := by have := level.descent_le; omega
  prefixExpr _ h := by omega
  term _ h := by omega
  arguments h := by omega
  argumentList _ h := by omega
  whole _ h := by omega

variable {n n' : Nat} {level : Level}

section

variable (ih : Deep P n)
include ih

theorem succ_levelExpr (hsc : sc.Alike sc') (hn : 24 * ts.length + level.descent ≤ min (n + 1) n') :
    Agree P (Fewer ts) (Grammar.levelExpr sc (n + 1) level) (Grammar.levelExpr sc' n' level) ts := by
  have hdescent := level.descent_le
  obtain ⟨n', rfl⟩ : ∃ k, n' = k + 1 := ⟨n' - 1, by omega⟩
  apply (ih.operand hsc (by omega)).bind
  intro left us hlt
  exact (ih.links left hsc (by omega)).mono fun _ _ hle => Nat.lt_of_le_of_lt hle hlt

theorem succ_operand (hsc : sc.Alike sc') (hn : 24 * ts.length + level.descent ≤ min (n + 2) (n' + 1)) :
    Agree P (Fewer ts) (Grammar.operand sc (n + 1) level) (Grammar.operand sc' n' level) ts := by
  have hdescent := level.descent_le
  obtain ⟨n', rfl⟩ : ∃ k, n' = k + 1 := ⟨n' - 1, by omega⟩
  rw [Grammar.operand, Grammar.operand]
  cases htighter : level.tighter? with
  | some tighter =>
    have := Level.descent_tighter htighter
    exact ih.levelExpr hsc (by omega)
  | none => exact ih.prefixExpr hsc (by omega)

omit ih in
theorem link?_eq (hsc : sc.Alike sc') (ht : P.Like t t') (level : Level) : link? sc' level t' = link? sc level t := by
  have hterm : sc'.startsTerm t' = sc.startsTerm t := by
    unfold startsTerm
    rw [ht.kind, hsc.isStop ht.kind]
  by_cases hw : t.IsWord
  · unfold link?
    rw [ht.kind, hterm, ht.blank hw]
  · -- at the end of a clause or of the source nothing is linked
    have hnone : ∀ (sc : Scope) (u : Token), u.kind = t.kind → link? sc level u = none := by
      intro sc u hu
      rw [Option.eq_none_iff_forall_ne_some]
      intro link hlink
      have hu' := isWord_of_link? hlink
      rw [IsWord, hu] at hu'
      exact hw hu'
    rw [hnone sc' t' ht.kind.symm, hnone sc t rfl]

theorem succ_links (left : Expr) (hsc : sc.Alike sc') (hn : 24 * ts.length + level.descent ≤ min (n + 1) n') :
    Agree P (NoMore ts) (Grammar.links sc (n + 1) level left) (Grammar.links sc' n' level left) ts := by
  have hdescent := level.descent_le
  obtain ⟨n', rfl⟩ : ∃ k, n' = k + 1 := ⟨n' - 1, by omega⟩
  rw [Grammar.links]
  refine .current fun t t' us hts ht => ?_
  have hlen := length_of_cons hts
  rw [link?_eq hsc ht]
  cases hlink : link? sc level t with
  | none => exact .pure (Nat.le_refl _)
  | some link =>
    have hw := isWord_of_link? hlink
    cases link with
    | written op =>
      apply Agree.skip hts hw
      apply (ih.operand hsc (by omega)).bind
      intro right vs hlt
      exact .noMore (ih.links _ hsc (by omega)) (by omega)
    | beside blank =>
      -- no token is taken before the operand, which takes one
      apply (ih.operand hsc hn).bind
      intro right vs hlt
      exact .noMore (ih.links _ hsc (by omega)) (by omega)
    | pipe =>
      apply Agree.skip hts hw
      refine .current fun u u' vs hus hu => ?_
      have hlen' := length_of_cons hus
      rw [← name?_eq hu.kind, ← hsc.isStop hu.kind]
      cases hname : u.name? with
      | none => exact .fail (by simp)
      | some name =>
        refine .ite (fun _ => .fail_bind (by simp)) fun _ => ?_
        refine .skip hus (isWord_of_name? hname) (.atArguments fun b => .ite (fun _ => ?_) fun _ => ?_)
        · apply (ih.arguments (by omega)).bind
          intro args xs hlt
          exact .noMore (ih.links _ hsc (by omega)) (by omega)
        · exact .noMore (ih.links _ hsc (by omega)) (by omega)

theorem succ_prefixExpr (hsc : sc.Alike sc') (hn : 24 * ts.length + 2 ≤ min (n + 1) n') :
    Agree P (Fewer ts) (Grammar.prefixExpr sc (n + 1)) (Grammar.prefixExpr sc' n') ts := by
  obtain ⟨n', rfl⟩ : ∃ k, n' = k + 1 := ⟨n' - 1, by omega⟩
  rw [Grammar.prefixExpr]
  refine .current fun t t' us hts ht => ?_
  have hlen := length_of_cons hts
  have hsame : prefixOp? t' = prefixOp? t := by rw [prefixOp?, prefixOp?, ht.kind]
  rw [hsame]
  cases hop : prefixOp? t with
  | none => exact ih.term hsc (by omega)
  | some op =>
    apply Agree.skip hts (isWord_of_prefixOp? hop)
    apply (ih.prefixExpr hsc (by omega)).bind
    intro x vs hlt
    exact .pure (Nat.lt_trans hlt (by omega))

theorem afterName (hts : ts = t :: us) (ht : t.IsWord) (hn : 24 * ts.length ≤ min n n') (call : List Expr → Expr) (x : Expr) :
    Agree P (Fewer ts) (skip 1 >>= fun _ => atArguments >>= fun b => if b = true then Grammar.arguments sc n >>= fun args =>
        Pure.pure (call args) else Pure.pure x)
      (skip 1 >>= fun _ => atArguments >>= fun b => if b = true then Grammar.arguments sc' n' >>= fun args =>
        Pure.pure (call args) else Pure.pure x) ts := by
  have hlen := length_of_cons hts
  refine .skip hts ht (.atArguments fun b => .ite (fun _ => ?_) fun _ => .pure (by omega))
  exact (ih.arguments (by omega)).bind fun args ws hlt => .pure (Nat.lt_trans hlt (by omega))

omit ih in
theorem text_eq (h : t.kind = t'.kind) (ht : t.IsWord) : t'.text = t.text := by
  rw [text, text, ← h]
  cases hk : t.kind <;> first | rfl | exact absurd hk ht.1

theorem succ_term (hsc : sc.Alike sc') (hn : 24 * ts.length + 1 ≤ min (n + 1) n') :
    Agree P (Fewer ts) (Grammar.term sc (n + 1)) (Grammar.term sc' n') ts := by
  obtain ⟨n', rfl⟩ : ∃ k, n' = k + 1 := ⟨n' - 1, by omega⟩
  rw [Grammar.term]
  refine .current fun t t' us hts ht => ?_
  have hlen := length_of_cons hts
  have hrefuse : Agree P (Fewer ts)
      (Grammar.fail (α := Expr) (.unexpectedInExpression (if t.raw.isEmpty = true then t.text else t.raw)))
      (Grammar.fail (.unexpectedInExpression (if t'.raw.isEmpty = true then t'.text else t'.raw))) ts :=
    .failing (by simp) fun hstrict => by rw [ht.same hstrict]
  -- a name that is no stop
  have hname : t.IsWord → Agree P (Fewer ts)
      (if sc.isStop t = true then Grammar.fail (.unexpectedInExpression (if t.raw.isEmpty = true then t.text else t.raw)) else
        Grammar.skip 1 >>= fun _ => Grammar.atArguments >>= fun b => if b = true then Grammar.arguments sc n >>= fun args =>
          Pure.pure (Expr.call t.text false args) else Pure.pure (Expr.symbol t.text))
      (if sc'.isStop t' = true then Grammar.fail (.unexpectedInExpression (if t'.raw.isEmpty = true then t'.text else t'.raw))
        else Grammar.skip 1 >>= fun _ => Grammar.atArguments >>= fun b => if b = true then Grammar.arguments sc' n' >>= fun args =>
          Pure.pure (Expr.call t'.text false args) else Pure.pure (Expr.symbol t'.text)) ts := by
    intro hw
    rw [← hsc.isStop ht.kind]
    refine .ite (fun _ => hrefuse) fun _ => ?_
    rw [text_eq ht.kind hw]
    exact ih.afterName hts hw (by omega) (Expr.call t.text false) _
  rw [← ht.kind]
  cases hkind : t.kind with
  | number text => exact .skip hts (isWord_of_kind hkind (by simp) (by simp)) (.pure (by omega))
  | literal quote body =>
    exact ih.afterName hts (isWord_of_kind hkind (by simp) (by simp)) (by omega) (Expr.call body true) _
  | symbol name => exact hname (isWord_of_kind hkind (by simp) (by simp))
  | keyword k => exact hname (isWord_of_kind hkind (by simp) (by simp))
  | endOfClause => exact hrefuse
  | endOfSource => exact hrefuse
  | mark m =>
    by_cases hparen : m = .leftParen
    · subst hparen
      apply Agree.skip hts (isWord_of_kind hkind (by simp) (by simp))
      apply (ih.whole (.enclosed sc sc') (by omega)).bind
      intro x vs hlt
      exact (Agree.expectMark _).bind fun _ ws hlt' => .pure (Nat.lt_trans hlt' (by omega))
    · cases m <;> first | exact hrefuse | exact absurd rfl hparen

theorem succ_arguments (hn : 24 * ts.length + 1 ≤ min (n + 1) n') :
    Agree P (Fewer ts) (Grammar.arguments sc (n + 1)) (Grammar.arguments sc' n') ts := by
  obtain ⟨n', rfl⟩ : ∃ k, n' = k + 1 := ⟨n' - 1, by omega⟩
  rw [Grammar.arguments]
  apply (Agree.expectMark _).bind
  intro _ us hlt
  refine .takeMark (fun vs hlt' => .pure (Nat.lt_trans hlt' hlt)) ?_
  apply (ih.argumentList (.enclosed sc sc') (by omega)).bind
  intro args vs hlt'
  exact (Agree.expectMark _).bind fun _ ws hlt'' => .pure (Nat.lt_trans hlt'' (by omega))

theorem succ_argumentList (hsc : sc.Alike sc') (hn : 24 * ts.length + 20 ≤ min (n + 1) n') :
    Agree P (Fewer ts) (Grammar.argumentList sc (n + 1)) (Grammar.argumentList sc' n') ts := by
  obtain ⟨n', rfl⟩ : ∃ k, n' = k + 1 := ⟨n' - 1, by omega⟩
  apply (ih.whole hsc (by omega)).bind
  intro x us hlt
  refine .takeMark (fun vs hlt' => ?_) (.pure hlt)
  exact (ih.argumentList hsc (by omega)).bind fun xs ws hlt'' => .pure (Nat.lt_trans hlt'' (by omega))

theorem succ_whole (hsc : sc.Alike sc') (hn : 24 * ts.length + 19 ≤ min (n + 1) n') :
    Agree P (Fewer ts) (Grammar.whole sc (n + 1)) (Grammar.whole sc' n') ts := by
  obtain ⟨n', rfl⟩ : ∃ k, n' = k + 1 := ⟨n' - 1, by omega⟩
  rw [Grammar.whole]
  refine .current fun t t' us _ ht => ?_
  rw [← hsc.endsExpr ht.kind]
  refine .ite (fun _ => .fail_bind (by simp)) fun _ => ?_
  have hdescent : Level.descent .pipe = 18 := rfl
  exact ih.levelExpr hsc (by omega)

end

theorem all (n : Nat) : Deep P n := by
  induction n with
  | zero => exact .zero
  | succ n ih =>
    exact {
      levelExpr := ih.succ_levelExpr
      operand := ih.succ_operand
      links := ih.succ_links
      prefixExpr := ih.succ_prefixExpr
      term := ih.succ_term
      arguments := ih.succ_arguments
      argumentList := ih.succ_argumentList
      whole := ih.succ_whole }

end Deep

theorem depthFor_le {k n n' : Nat} (hn : n ≤ n') (hk : k ≤ 24) : 24 * n + k ≤ min (depthFor n) (depthFor n') := by
  unfold depthFor
  omega

namespace Agree

theorem expression (hsc : sc.Alike sc') : Agree P (Fewer ts) (expression sc) (expression sc') ts :=
  get fun _ hts => (Deep.all _).whole hsc (depthFor_le (P.length_le hts) (by simp))

theorem prefixTerm (hsc : sc.Alike sc') : Agree P (Fewer ts) ( prefixTerm sc) ( prefixTerm sc') ts :=
  get fun _ hts => (Deep.all _).prefixExpr hsc (depthFor_le (P.length_le hts) (by simp))

theorem expression? (hsc : sc.Alike sc') : Agree P (NoMore ts) (expression? sc) (expression? sc') ts :=
  untilEnd hsc (pure (Nat.le_refl _)) fun _ _ _ _ => (expression hsc).bind fun _ _ hlt => pure (Nat.le_of_lt hlt)

end Agree

end Rexx.Grammar
