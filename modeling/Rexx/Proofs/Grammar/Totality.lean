import Rexx.Proofs.Grammar.Statement
import Rexx.Proofs.Token.Places

/-!
# `Grammar.Totality` — every text is read or refused

The readers of statements, of blocks and of a whole program are confined to the tokens of the source, whatever clause,
block, template or expression its end cuts off.
-/

namespace Rexx.Grammar

open List

variable {α β : Type} {source beyond ts us : List Token} {t : Token}

/-! ## What is left of a source -/

def Closed (source : List Token) : Prop :=
  ∃ body last, source = body ++ [last] ∧ last.kind = .endOfSource ∧ ∀ t ∈ body, t.kind ≠ .endOfSource

structure Remains (source ts : List Token) : Prop where
  closed : Closed source
  suffix : ts <:+ source
  ne_nil : ts ≠ []

theorem Remains.next (h : Remains source (t :: ts)) :
    (t.kind = .endOfSource ∧ ts = []) ∨ (t.kind ≠ .endOfSource ∧ Remains source ts) := by
  obtain ⟨body, last, heq, hlast, hbody⟩ := h.closed
  obtain ⟨before, hbefore⟩ := h.suffix
  rcases eq_nil_or_concat ts with rfl | ⟨mid, u, rfl⟩
  · have hsame : before ++ [t] = body ++ [last] := hbefore.trans heq
    have hlast' : t = last := by
      have := (append_inj' hsame rfl).2
      exact (cons.inj this).1
    exact .inl ⟨hlast' ▸ hlast, rfl⟩
  · refine .inr ⟨?_, h.closed, (suffix_cons _ _).trans h.suffix, by simp⟩
    have hsame : (before ++ t :: mid) ++ [u] = body ++ [last] := by
      rw [← heq, ← hbefore]
      simp
    have hbefore' := (append_inj' hsame rfl).1
    apply hbody
    rw [← hbefore']
    simp

theorem Remains.tail (h : Remains source (t :: ts)) (ht : t.kind ≠ .endOfSource) : Remains source ts := by
  rcases h.next with ⟨hend, -⟩ | ⟨-, hrest⟩
  · exact absurd hend ht
  · exact hrest

theorem Remains.last (h : Remains source ts) : ∃ t ∈ ts, t.kind = .endOfSource := by
  induction ts with
  | nil => exact absurd rfl h.ne_nil
  | cons t ts ih =>
    rcases h.next with ⟨hend, -⟩ | ⟨-, hrest⟩
    · exact ⟨t, mem_cons_self .., hend⟩
    · obtain ⟨u, hu, hend⟩ := ih hrest
      exact ⟨u, mem_cons_of_mem _ hu, hend⟩

theorem Remains.placed (h : Remains source (t :: ts)) : ∃ u ∈ source, u.pos = t.pos :=
  ⟨t, h.suffix.subset (mem_cons_self ..), rfl⟩

/-! ## Confined readers -/

def Pairing.closed (source beyond : List Token) : Pairing where
  Pairs ts ts' := Remains source ts ∧ ts' = ts ++ beyond
  Strict := True
  Placed p := ∃ t ∈ source, t.pos = p
  heads := by
    rintro ts _ ⟨hts, rfl⟩
    obtain ⟨t, us, rfl⟩ := List.exists_cons_of_ne_nil hts.ne_nil
    exact ⟨t, t, us, us ++ beyond, rfl, rfl, rfl, fun _ => ⟨rfl, hts.placed⟩, fun hw => ⟨rfl, hts.tail hw.2, rfl⟩⟩
  length_le := by
    rintro ts _ ⟨-, rfl⟩
    rw [List.length_append]
    exact Nat.le_add_right _ _

inductive Confines (source beyond : List Token) (Q : α → List Token → Prop) :
    Except SyntaxError (α × List Token) → Except SyntaxError (α × List Token) → Prop
  | reads {a : α} {us : List Token} (left : Remains source us) (post : Q a us) :
      Confines source beyond Q (.ok (a, us)) (.ok (a, us ++ beyond))
  | refuses {e : SyntaxError} (own : e.cause ≠ .nestedTooDeeply) (placed : ∃ t ∈ source, t.pos = e.pos) :
      Confines source beyond Q (.error e) (.error e)

/-- The reader `r` on what is left of a source, and `r'` when tokens stand `beyond` it, do the same; what is read has the
property `Q`. -/
def Confined (source beyond : List Token) (Q : α → List Token → Prop) (r r' : Reader α) (ts : List Token) : Prop :=
  Remains source ts → Confines source beyond Q (r ts) (r' (ts ++ beyond))

namespace Agree

variable {Q K : α → List Token → Prop} {R : β → List Token → Prop} {r r' : Reader α} {P : Pairing}

theorem confined (h : Agree (.closed source beyond) Q r r' ts) : Confined source beyond Q r r' ts := by
  intro hts
  have hboth := h (ts ++ beyond) ⟨hts, rfl⟩
  generalize r ts = x at hboth ⊢
  generalize r' (ts ++ beyond) = x' at hboth ⊢
  cases hboth with
  | reads hleft hpost =>
    obtain ⟨hleft, rfl⟩ := hleft
    exact .reads hleft hpost
  | refuses halike =>
    obtain ⟨hown, hplaced, rfl⟩ := halike trivial
    exact .refuses hown hplaced

theorem remaining (h : Remains source ts → Agree (.closed source beyond) Q r r' ts) :
    Agree (.closed source beyond) Q r r' ts := fun ts' hts => h hts.1 ts' hts

theorem sharpen (h : Agree P Q r r' ts) (hr : ∀ a us, r ts = .ok (a, us) → K a us) :
    Agree P (fun a us => Q a us ∧ K a us) r r' ts := by
  intro ts' hts
  have hboth := h ts' hts
  generalize hx : r ts = x at hboth ⊢
  generalize r' ts' = x' at hboth ⊢
  cases hboth with
  | reads hleft hpost => exact .reads hleft ⟨hpost, hr _ _ hx⟩
  | refuses halike => exact .refuses halike

/-! ## Keywords and ends of clauses -/

theorem atKeyword {k : Keyword} {f f' : Bool → Reader β}
    (htrue : ∀ t us, ts = t :: us → t.IsWord → Agree P R (f true) (f' true) ts)
    (hfalse : Agree P R (f false) (f' false) ts) : Agree P R (atKeyword k >>= f) (atKeyword k >>= f') ts := by
  intro ts' hts
  obtain ⟨t, t', us, us', rfl, rfl, ht, hword⟩ := P.first hts
  rw [bind_of_read (atKeyword_read k t us), bind_of_read (atKeyword_read k t' us'), ← isKeyword_eq ht.kind]
  cases hk : t.isKeyword k with
  | false => exact hfalse _ hts
  | true =>
    have hw := isWord_of_isKeyword hk
    -- the token after the keyword is paired as well
    obtain ⟨u, u', vs, vs', rfl, rfl, hu, -⟩ := P.first (hword hw)
    simp only [headD_cons, ← isMark_eq hu.kind]
    cases true && !u.isMark .equal && !u.isMark .colon with
    | false => exact hfalse _ hts
    | true => exact htrue t _ rfl hw _ hts

theorem expectKeyword (k : Keyword) : Agree P (Fewer ts) (expectKeyword k) (expectKeyword k) ts := by
  refine atKeyword (fun t us hts ht => ?_) (fail (by simp))
  exact skip hts ht (pure (by simp [hts]))

theorem atAnyKeyword {ks : List Keyword} {f f' : Bool → Reader β} (h : ∀ b, Agree P R (f b) (f' b) ts) :
    Agree P R (atAnyKeyword ks >>= f) (atAnyKeyword ks >>= f') ts := by
  have hlooks : Agree P (fun _ us => us = ts) (Grammar.atAnyKeyword ks) (Grammar.atAnyKeyword ks) ts := by
    induction ks with
    | nil => exact pure rfl
    | cons k ks ih =>
      exact atKeyword (fun _ _ _ _ => pure rfl) ih
  apply hlooks.bind
  rintro b us rfl
  exact h b

theorem skipEnds {f f' : Unit → Reader β}
    (h : ∀ us, us.length ≤ ts.length → Agree (.closed source beyond) R (f ⟨⟩) (f' ⟨⟩) us) :
    Agree (.closed source beyond) R (skipEnds >>= f) (skipEnds >>= f') ts := by
  rintro _ ⟨hts, rfl⟩
  rw [bind_of_read (skipEnds_read _), bind_of_read (skipEnds_read _)]
  -- the end of the source is not passed
  obtain ⟨last, hmem, hlast⟩ : ∃ last ∈ ts, last.kind = .endOfSource := hts.last
  have hne : ts.dropWhile (fun t => t.kind == .endOfClause) ≠ [] := by
    intro hnil
    have hall := dropWhile_eq_nil_iff.1 hnil last hmem
    simp [hlast] at hall
  rw [dropWhile_append, if_neg (by simpa using hne)]
  have hsuffix := dropWhile_suffix (l := ts) fun t => t.kind == .endOfClause
  exact h _ hsuffix.length_le _ ⟨⟨hts.closed, hsuffix.trans hts.suffix, hne⟩, rfl⟩

end Agree

end Rexx.Grammar

namespace Rexx

/-! ## Statements within statements -/

namespace Stmt

def lists : Stmt → List (List Stmt)
  | .clause _ _ => []
  | .ifThen _ _ thens elses => [thens, elses]
  | .group _ body => [body]
  | .loop _ _ _ body => [body]
  | .select _ whens otherwise => whens.map Prod.snd ++ otherwise.toList

def Child (t s : Stmt) : Prop := ∃ l ∈ s.lists, t ∈ l

/-- One statement is the other or stands in it at any depth. -/
def Occurs (t s : Stmt) : Prop := Relation.ReflTransGen Child t s

end Stmt

namespace Grammar

def WordAt (source : List Token) (pos : Position) : Prop := ∃ t ∈ source, t.IsWord ∧ t.pos = pos

end Grammar

open Grammar

namespace Stmt

def InBranch (Q : Bool → Stmt → Prop) (nested : Bool) (l : List Stmt) : Prop :=
  (∀ s ∈ l, Q true s) ∨ ∃ s, l = [s] ∧ Q nested s

def InParts (Q : Bool → Stmt → Prop) (nested : Bool) (parts : List (Expr × List Stmt) × Option (List Stmt)) : Prop :=
  (∀ w ∈ parts.1, InBranch Q nested w.2) ∧ ∀ body ∈ parts.2, ∀ s ∈ body, Q true s

/-- **A property that statements inherit**: a statement that begins with a word of the source has it if those in it have
it. -/
structure Inherited (source : List Token) (Q : Bool → Stmt → Prop) : Prop where
  clause {nested : Bool} {pos : Position} {c : Clause} : WordAt source pos → NoLabel c → Q nested (.clause pos c)
  label {pos : Position} (name : Text) : WordAt source pos → Q false (.clause pos (.label name))
  ifThen {nested : Bool} {pos : Position} {x : Expr} {thens elses : List Stmt} : WordAt source pos →
    InBranch Q nested thens → InBranch Q nested elses → Q nested (.ifThen pos x thens elses)
  block {nested : Bool} {s : Stmt} {body : List Stmt} : WordAt source s.pos → s.lists = [body] → (∀ t ∈ body, Q true t) →
    Q nested s
  select {nested : Bool} {pos : Position} {parts : List (Expr × List Stmt) × Option (List Stmt)} : WordAt source pos →
    InParts Q nested parts → Q nested (.select pos parts.1 parts.2)

variable {source : List Token} {nested : Bool}

def Worded (source : List Token) (s : Stmt) : Prop := ∀ t : Stmt, t.Occurs s → WordAt source t.pos

theorem Worded.of_lists {s : Stmt} (hs : WordAt source s.pos) (h : ∀ l ∈ s.lists, ∀ t ∈ l, t.Worded source) :
    s.Worded source := by
  intro t ht
  rcases Relation.ReflTransGen.cases_tail ht with rfl | ⟨u, htu, l, hl, hu⟩
  · exact hs
  · exact h l hl u hu t htu

theorem InBranch.all {p : Stmt → Prop} {l : List Stmt} (h : InBranch (fun _ => p) nested l) : ∀ s ∈ l, p s := by
  obtain h | ⟨s, rfl, h⟩ := h
  · exact h
  · exact List.forall_mem_singleton.2 h

theorem worded_inherited : Inherited source fun _ => Worded source where
  clause h _ := .of_lists h fun _ hl => by cases hl
  label _ h := .of_lists h fun _ hl => by cases hl
  ifThen h hthens helses := by
    refine .of_lists h fun l hl => ?_
    rcases List.mem_cons.1 hl with rfl | hl
    · exact hthens.all
    · exact List.mem_singleton.1 hl ▸ helses.all
  block h hlists hbody := by
    refine .of_lists h fun l hl => ?_
    rw [hlists] at hl
    exact List.mem_singleton.1 hl ▸ hbody
  select h hparts := by
    refine .of_lists h fun l hl => ?_
    rcases List.mem_append.1 hl with hl | hl
    · obtain ⟨w, hw, rfl⟩ := List.mem_map.1 hl
      exact (hparts.1 w hw).all
    · exact hparts.2 l (Option.mem_toList.1 hl)

end Stmt

namespace Grammar

variable {source beyond ts us : List Token} {t : Token} {sc : Scope} {Q : Bool → Stmt → Prop}

/-! ## Blocks -/

theorem Remains.wordAt (h : Remains source (t :: ts)) (ht : t.IsWord) : WordAt source t.pos :=
  ⟨t, h.suffix.subset (List.mem_cons_self ..), ht, rfl⟩

theorem isWord_of_expression {x : Expr} (h : expression sc (t :: us) = .ok (x, ts)) : t.IsWord := by
  by_contra hw
  have hends : sc.endsExpr t = true := by
    have hclause : sc.endsClause t = true := by
      by_contra hne
      exact hw (isWord_of_not_endsClause hne)
    simp [Scope.endsExpr, hclause]
  obtain ⟨n, hn⟩ : ∃ n, depthFor (t :: us).length = n + 1 := ⟨_, rfl⟩
  rw [expression, bind_of_read (get_read _), hn, whole, bind_of_read (current_read _), List.headD_cons, hends] at h
  obtain ⟨_, _, hfail, -⟩ := bind_eq_ok.1 h
  cases hfail

theorem Remains.closedByEndIf (h : Remains source ts) (opened deep : Nat) (first chained : Bool) :
    closedByEndIf opened deep first chained (ts ++ beyond) = closedByEndIf opened deep first chained ts := by
  induction ts generalizing opened deep first chained with
  | nil => exact absurd rfl h.ne_nil
  | cons t ts ih =>
    rcases h.next with ⟨hend, rfl⟩ | ⟨-, hrest⟩
    · simp [Grammar.closedByEndIf, hend]
    · have hhead : (ts ++ beyond).headD nowhere = ts.headD nowhere := by
        obtain ⟨u, us, rfl⟩ := List.exists_cons_of_ne_nil hrest.ne_nil
        rfl
      rw [List.cons_append, Grammar.closedByEndIf, Grammar.closedByEndIf]
      simp only [hhead, ih hrest]

structure Bounded (source beyond : List Token) (Q : Bool → Stmt → Prop) (n : Nat) : Prop where
  inherited : Stmt.Inherited source Q
  statement : ∀ {n' : Nat} {sc : Scope} {ts : List Token}, 24 * ts.length + 1 ≤ min n n' →
    Agree (.closed source beyond) (TakesWord ts (Q sc.nested)) (statement sc n) (statement sc n') ts
  blockBody : ∀ {n' : Nat} {ends : List Keyword} {ts : List Token}, 24 * ts.length + 2 ≤ min n n' →
    Agree (.closed source beyond) (Takes ts (∀ s ∈ ·, Q true s)) (blockBody ends n)
      (blockBody ends n') ts
  ifStatement : ∀ {n' : Nat} {sc : Scope} {pos : Position} {ts : List Token}, WordAt source pos → 24 * ts.length + 1 ≤ min n n' → Agree (.closed source beyond) (Takes ts (Q sc.nested))
      (ifStatement sc pos n) (ifStatement sc pos n') ts
  doStatement : ∀ {n' : Nat} {sc : Scope} {pos : Position} {ts : List Token}, WordAt source pos → 24 * ts.length + 3 ≤ min n n' → Agree (.closed source beyond) (Takes ts (Q sc.nested))
      (doStatement sc pos n) (doStatement sc pos n') ts
  selectParts : ∀ {n' : Nat} {sc : Scope} {ts : List Token}, 24 * ts.length + 1 ≤ min n n' →
    Agree (.closed source beyond) (Takes ts (Stmt.InParts Q sc.nested)) (selectParts sc n)
      (selectParts sc n') ts

namespace Bounded

theorem zero (hQ : Stmt.Inherited source Q) : Bounded source beyond Q 0 where
  inherited := hQ
  statement h := by omega
  blockBody h := by omega
  ifStatement _ h := by omega
  doStatement _ h := by omega
  selectParts h := by omega

variable {n n' : Nat} {pos : Position} (ih : Bounded source beyond Q n)

include ih

theorem plain (hts : ts = t :: us) (hn : 24 * ts.length ≤ min n n') :
    Agree (.closed source beyond) (TakesWord ts (Q sc.nested)) (plainStatement sc n t) (plainStatement sc n' t) ts := by
  have hlen := length_of_cons hts
  refine .remaining fun hremains => ?_
  have hplaced : ∃ u ∈ source, u.pos = t.pos := (hts ▸ hremains).placed
  have hword : t.IsWord → WordAt source t.pos := (hts ▸ hremains).wordAt
  intro ts' hpair
  obtain ⟨k, hk, hk', hdrop⟩ := Pairing.noInterpret hpair
  unfold plainStatement
  rw [bind_of_read hk, bind_of_read hk']
  cases k with
  | some j =>
    obtain ⟨hleft, hlt, hhead⟩ := hdrop j rfl
    exact .reads hleft ⟨hlt, ih.inherited.clause (hword (hhead t (by rw [hts]; rfl))) trivial⟩
  | none =>
    refine (?_ : Agree _ _ _ _ ts) ts' hpair
    have hclause : ∀ k : Keyword, t.IsWord → Agree (.closed source beyond) (TakesWord ts (Q sc.nested))
        (skip 1 >>= fun _ => instruction sc t.pos k >>= fun c => Pure.pure (Stmt.clause t.pos c))
        (skip 1 >>= fun _ => instruction sc t.pos k >>= fun c => Pure.pure (Stmt.clause t.pos c)) ts := by
      intro k ht
      refine .skip hts ht ((Agree.instruction (.refl sc) (fun _ => ⟨hplaced, rfl⟩) k).bind fun c vs hvs => ?_)
      exact .pure ⟨by omega, ih.inherited.clause (hword ht) hvs.2⟩
    have hcommand : Agree (.closed source beyond) (TakesWord ts (Q sc.nested))
        (expression sc >>= fun x => Pure.pure (Stmt.clause t.pos (.command x)))
        (expression sc >>= fun x => Pure.pure (Stmt.clause t.pos (.command x))) ts := by
      refine ((Agree.expression (.refl sc)).sharpen (K := fun _ _ => t.IsWord) ?_).bind fun x vs hvs => ?_
      · intro x vs hread
        rw [hts] at hread
        exact isWord_of_expression hread
      · exact .pure ⟨hvs.1, ih.inherited.clause (hword hvs.2) trivial⟩
    cases hkind : t.kind with
    | symbol name =>
      have ht : t.IsWord := isWord_of_kind hkind (by simp) (by simp)
      refine (Agree.symbolClause (.refl sc) hts ht).bind fun c vs hvs => ?_
      exact .pure ⟨hvs.1, ih.inherited.clause (hword ht) hvs.2⟩
    | keyword k =>
      have ht : t.IsWord := isWord_of_kind hkind (by simp) (by simp)
      cases k with
      | «if» =>
        exact .skip hts ht ((ih.ifStatement (hword ht) (by omega)).mono fun s vs hvs => ⟨by omega, hvs.2⟩)
      | «do» =>
        exact .skip hts ht ((ih.doStatement (hword ht) (by omega)).mono fun s vs hvs => ⟨by omega, hvs.2⟩)
      | select =>
        refine .skip hts ht ((ih.selectParts (by omega)).bind fun parts vs hvs => .ite (fun _ => ?_) fun _ => ?_)
        · exact .throw_bind fun _ => ⟨by simp, hplaced, rfl⟩
        · exact .pure ⟨by omega, ih.inherited.select (hword ht) hvs.2⟩
      | _ => exact hclause _ ht
    | _ => exact hcommand

theorem succ_statement (hn : 24 * ts.length + 1 ≤ min (n + 1) n') :
    Agree (.closed source beyond) (TakesWord ts (Q sc.nested)) (Grammar.statement sc (n + 1)) (Grammar.statement sc n') ts := by
  obtain ⟨n', rfl⟩ : ∃ k, n' = k + 1 := ⟨n' - 1, by omega⟩
  rintro _ ⟨hremains, rfl⟩
  obtain ⟨t, us, rfl⟩ := List.exists_cons_of_ne_nil hremains.ne_nil
  have hplain : Agrees (.closed source beyond) (TakesWord (t :: us) (Q sc.nested))
      (plainStatement sc n t (t :: us)) (plainStatement sc n' t (t :: us ++ beyond)) :=
    ih.plain rfl (by omega) _ ⟨hremains, rfl⟩
  cases hname : t.name? with
  | none =>
    -- whatever follows, it is no label and no assignment
    rw [statement_plain sc n (.inl hname), List.cons_append, statement_plain sc n' (.inl hname)]
    exact hplain
  | some name =>
    have ht := isWord_of_name? hname
    have hword := hremains.wordAt ht
    have hus := hremains.tail ht.2
    obtain ⟨u, vs, rfl⟩ := List.exists_cons_of_ne_nil hus.ne_nil
    rcases opening_cases t (u :: vs) with ⟨name, hname, hcolon⟩ | ⟨name, hname, hequal⟩ | hopening
    · have hu : u.isMark .colon = true := hcolon
      refine (?_ : Agree (.closed source beyond) _ _ _ (t :: u :: vs)) _ ⟨hremains, rfl⟩
      refine .current fun t' t'' _ heq ht' => .ahead (fun _ _ _ _ heq' hw => ?_) fun _ u' u'' _ heq' _ hu' => ?_
      · cases heq'
        exact absurd ht hw
      · cases heq
        cases heq'
        rw [ht'.same trivial, hu'.same trivial, hname]
        simp only [hu, if_true]
        refine .ite (fun _ => .fail_bind (by simp)) fun hnested => .skipTwo rfl ht (isWord_of_isMark hu) ?_
        exact .pure ⟨by simp, Bool.eq_false_iff.2 hnested ▸ ih.inherited.label name hword⟩
    · have hu : u.isMark .equal = true := hequal
      have hequal' : ((u :: vs ++ beyond).headD nowhere).isMark .equal = true := hequal
      rw [statement_assigns n hname hequal, List.cons_append, statement_assigns n' hname hequal']
      refine (?_ : Agree (.closed source beyond) _ _ _ vs) _ ⟨hus.tail (isWord_of_isMark hu).2, rfl⟩
      refine (Agree.expression (.refl sc)).bind fun x ws hws => .pure ⟨Nat.lt_trans hws (by simp), ?_⟩
      exact ih.inherited.clause hword trivial
    · have hopening' : t.name? = none ∨ ((u :: vs ++ beyond).headD nowhere).isMark .equal = false ∧
          ((u :: vs ++ beyond).headD nowhere).isMark .colon = false := hopening
      rw [statement_plain sc n hopening, List.cons_append, statement_plain sc n' hopening']
      exact hplain

theorem succ_blockBody {ends : List Keyword} (hn : 24 * ts.length + 2 ≤ min (n + 1) n') :
    Agree (.closed source beyond) (Takes ts (∀ s ∈ ·, Q true s))
      (Grammar.blockBody ends (n + 1)) (Grammar.blockBody ends n') ts := by
  obtain ⟨n', rfl⟩ : ∃ k, n' = k + 1 := ⟨n' - 1, by omega⟩
  refine .skipEnds fun us hus => .current fun t t' vs _ ht => .atAnyKeyword fun b => ?_
  rw [← ht.kind]
  refine .ite (fun _ => .pure ⟨hus, by simp⟩) fun _ => (ih.statement (by omega)).bind fun s ws hws => ?_
  refine .current fun u u' xs _ hu => ?_
  rw [hu.same trivial]
  refine .ite (fun _ => .fail_bind (by simp)) fun _ => (ih.blockBody (by omega)).bind fun body zs hzs => ?_
  exact .pure ⟨by omega, List.forall_mem_cons.2 ⟨hws.2, hzs.2⟩⟩

theorem ifAfterThen (hpos : WordAt source pos) {x : Expr} (hn : 24 * ts.length + 2 ≤ min n n') :
    Agree (.closed source beyond) (Takes ts (Q sc.nested)) (ifAfterThen sc pos x n) (ifAfterThen sc pos x n') ts := by
  refine .current fun t t' us _ ht => .get ?_
  rintro _ ⟨hremains, rfl⟩
  rw [hremains.closedByEndIf, ← ht.kind]
  refine .ite (fun _ => (ih.blockBody hn).bind fun thens vs hvs => ?_) fun _ => .skipEnds fun us hus => ?_
  · -- ENDIF after THEN or after ELSE
    have hclose : ∀ (elses : List Stmt) (ws : List Token), ws.length ≤ ts.length → Stmt.InBranch Q sc.nested elses →
        Agree (.closed source beyond) (Takes ts (Q sc.nested))
          (Grammar.expectKeyword .endIf >>= fun _ => Pure.pure (Stmt.ifThen pos x thens elses))
          (Grammar.expectKeyword .endIf >>= fun _ => Pure.pure (Stmt.ifThen pos x thens elses)) ws :=
      fun elses ws hws helses => (Agree.expectKeyword _).bind fun _ xs hxs =>
        .pure ⟨Nat.le_trans (Nat.le_of_lt hxs) hws, ih.inherited.ifThen hpos (.inl hvs.2) helses⟩
    refine .atKeyword (fun u ws hus hu => .skip hus hu ?_) (hclose [] vs hvs.1 (.inl (by simp)))
    have hlen := length_of_cons hus
    refine .atKeyword (fun w xs hws hw => ?_) ?_
    · have hlen' := length_of_cons hws
      refine .remaining fun hleft => .current fun w' w'' _ hws' hw' => ?_
      cases hws.symm.trans hws'
      rw [hw'.same trivial]
      refine .skip hws hw ((ih.ifStatement ((hws ▸ hleft).wordAt hw) (by omega)).bind fun s zs hzs => ?_)
      exact .pure ⟨by omega, ih.inherited.ifThen hpos (.inl hvs.2) (.inr ⟨s, rfl, hzs.2⟩)⟩
    · refine (ih.blockBody (by omega)).bind fun elses xs hxs => ?_
      exact hclose elses xs (by omega) (.inl hxs.2)
  · refine (ih.statement (by omega)).bind fun thens vs hvs => .get fun vs' hpair => ?_
    refine .skipEnds fun ws hws => .atKeyword (fun u xs hxs hu => .skip hxs hu ?_) ?_
    · have hlen := length_of_cons hxs
      refine .skipEnds fun zs hzs => (ih.statement (by omega)).bind fun elses as has => ?_
      exact .pure ⟨by omega, ih.inherited.ifThen hpos (.inr ⟨thens, rfl, hvs.2⟩) (.inr ⟨elses, rfl, has.2⟩)⟩
    · -- without ELSE the ends of clauses are given back
      exact .set hpair (.pure ⟨by omega, ih.inherited.ifThen hpos (.inr ⟨thens, rfl, hvs.2⟩) (.inl (by simp))⟩)

theorem succ_ifStatement (hpos : WordAt source pos) (hn : 24 * ts.length + 1 ≤ min (n + 1) n') :
    Agree (.closed source beyond) (Takes ts (Q sc.nested))
      (Grammar.ifStatement sc pos (n + 1)) (Grammar.ifStatement sc pos n') ts := by
  obtain ⟨n', rfl⟩ : ∃ k, n' = k + 1 := ⟨n' - 1, by omega⟩
  refine (Agree.expression (.refl _)).bind fun x us hus => .skipEnds fun vs hvs => ?_
  refine (Agree.expectKeyword _).bind fun _ ws hws => ?_
  exact (ih.ifAfterThen hpos (by omega)).mono fun s zs hzs => ⟨by omega, hzs.2⟩

theorem succ_doStatement (hpos : WordAt source pos) (hn : 24 * ts.length + 3 ≤ min (n + 1) n') :
    Agree (.closed source beyond) (Takes ts (Q sc.nested))
      (Grammar.doStatement sc pos (n + 1)) (Grammar.doStatement sc pos n') ts := by
  obtain ⟨n', rfl⟩ : ∃ k, n' = k + 1 := ⟨n' - 1, by omega⟩
  refine (Agree.loopHead (.refl _)).bind fun head us hus => ?_
  refine (ih.blockBody (by omega)).bind fun body vs hvs => (Agree.expectKeyword _).bind fun _ ws hws => ?_
  refine .current fun t t' xs hxs ht => ?_
  have hlen := length_of_cons hxs
  rw [ht.same trivial]
  cases hname : t.name? with
  | none => cases head <;> exact .pure ⟨by omega, ih.inherited.block hpos rfl hvs.2⟩
  | some name =>
    refine .ite (fun _ => .ite (fun _ => .fail_bind (by simp)) fun _ => .skip hxs (isWord_of_name? hname) ?_) fun _ => ?_
    · cases head <;> exact .pure ⟨by omega, ih.inherited.block hpos rfl hvs.2⟩
    · cases head <;> exact .pure ⟨by omega, ih.inherited.block hpos rfl hvs.2⟩

theorem whenAfterThen {x : Expr} (hn : 24 * ts.length + 2 ≤ min n n') :
    Agree (.closed source beyond) (Takes ts (Stmt.InParts Q sc.nested)) (whenAfterThen sc x n) (whenAfterThen sc x n') ts := by
  have hparts : ∀ (body : List Stmt) (us : List Token), us.length ≤ ts.length ∧ Stmt.InBranch Q sc.nested body →
      Agree (.closed source beyond) (Takes ts (Stmt.InParts Q sc.nested))
        (Grammar.selectParts sc n >>= fun parts => Pure.pure ((x, body) :: parts.1, parts.2))
        (Grammar.selectParts sc n' >>= fun parts => Pure.pure ((x, body) :: parts.1, parts.2)) us := by
    intro body us hbody
    refine (ih.selectParts (by omega)).bind fun parts vs hvs => ?_
    exact .pure ⟨Nat.le_trans hvs.1 hbody.1, List.forall_mem_cons.2 ⟨hbody.2, hvs.2.1⟩, hvs.2.2⟩
  refine .current fun t t' us _ ht => ?_
  rw [← ht.kind]
  refine .ite (fun _ => (ih.blockBody hn).bind fun body us hbody => hparts body us ⟨hbody.1, .inl hbody.2⟩) fun _ => ?_
  refine ((ih.statement (by omega)).map fun s vs hvs => ?_).bind hparts
  exact ⟨Nat.le_of_lt hvs.1, .inr ⟨s, rfl, hvs.2⟩⟩

theorem succ_selectParts (hn : 24 * ts.length + 1 ≤ min (n + 1) n') :
    Agree (.closed source beyond) (Takes ts (Stmt.InParts Q sc.nested))
      (Grammar.selectParts sc (n + 1)) (Grammar.selectParts sc n') ts := by
  obtain ⟨n', rfl⟩ : ∃ k, n' = k + 1 := ⟨n' - 1, by omega⟩
  refine .skipEnds fun us hus => .atKeyword (fun t vs hts ht => .skip hts ht ?_) ?_
  · have hlen := length_of_cons hts
    refine (Agree.expression (.refl _)).bind fun x ws hws => .skipEnds fun xs hxs => ?_
    refine (Agree.expectKeyword _).bind fun _ zs hzs => ?_
    exact (ih.whenAfterThen (by omega)).mono fun parts as has => ⟨by omega, has.2⟩
  refine .atKeyword (fun t vs hts ht => .skip hts ht ?_) (.atKeyword (fun t vs hts ht => .skip hts ht ?_) (.fail (by simp)))
  · have hlen := length_of_cons hts
    refine (ih.blockBody (by omega)).bind fun body ws hws => ?_
    refine (ih.selectParts (by omega)).bind fun parts xs hxs => ?_
    exact .pure ⟨by omega, hxs.2.1, fun other hother => by cases hother; exact hws.2⟩
  · have hlen := length_of_cons hts
    exact .pure ⟨by omega, by simp [Stmt.InParts]⟩

omit ih in
theorem all (hQ : Stmt.Inherited source Q) (n : Nat) : Bounded source beyond Q n := by
  induction n with
  | zero => exact .zero hQ
  | succ n ih =>
    exact {
      inherited := hQ
      statement := ih.succ_statement
      blockBody := ih.succ_blockBody
      ifStatement := ih.succ_ifStatement
      doStatement := ih.succ_doStatement
      selectParts := ih.succ_selectParts }

end Bounded

/-! ## Programs -/

theorem Agree.programBody {n n' : Nat} (hQ : Stmt.Inherited source Q) (hn : 24 * ts.length + 2 ≤ min n n') :
    Agree (.closed source beyond) (fun body us => us.length = 1 ∧ ∀ s ∈ body, Q false s) (programBody n)
      (programBody n') ts := by
  induction n generalizing n' ts with
  | zero => omega
  | succ n ih =>
    obtain ⟨n', rfl⟩ : ∃ k, n' = k + 1 := ⟨n' - 1, by omega⟩
    refine skipEnds fun us hus => remaining fun hremains => current fun t t' vs hts ht => ?_
    rw [← ht.kind]
    refine ite (fun hend => ?_) fun _ => ((Bounded.all hQ n).statement (by omega)).bind fun s ws hws => ?_
    · rw [hts] at hremains
      rcases hremains.next with ⟨-, rfl⟩ | ⟨hne, -⟩
      · exact pure ⟨by rw [hts]; rfl, by simp⟩
      · exact absurd (beq_iff_eq.1 hend) hne
    · refine current fun u u' xs _ hu => ?_
      rw [hu.same trivial]
      refine ite (fun _ => fail_bind (by simp)) fun _ => (ih (by omega)).bind fun body zs hzs => ?_
      exact pure ⟨hzs.1, List.forall_mem_cons.2 ⟨hws.2, hzs.2⟩⟩

theorem Confined.programBody {n n' : Nat} (hn : 24 * ts.length + 2 ≤ min n n') :
    Confined source beyond (fun _ us => us.length = 1) (programBody n) (programBody n') ts :=
  ((Agree.programBody Stmt.worded_inherited hn).mono fun _ _ h => h.1).confined

theorem Remains.of_lex {src : Text} (h : Token.lex src = .ok ts) : Remains ts ts := by
  obtain ⟨e, he, -⟩ | ⟨body, eoc, eof, hlex, heoc, heof, hbody⟩ := Token.lex_cases src
  · rw [he] at h
    cases h
  · rw [hlex] at h
    cases h
    refine ⟨⟨body ++ [eoc], eof, by simp, heof, fun t ht => ?_⟩, List.suffix_rfl, by simp⟩
    rcases List.mem_append.1 ht with ht | ht
    · exact hbody t ht
    · rw [List.mem_singleton.1 ht, heoc]
      simp

theorem programBody_inherits {src : Text} {body : List Stmt} (hQ : Stmt.Inherited ts Q) (hlex : Token.lex src = .ok ts)
    (h : programBody (depthFor ts.length) ts = .ok (body, us)) : ∀ s ∈ body, Q false s := by
  have hread : Agree (.closed ts []) _ _ _ ts := Agree.programBody hQ (depthFor_le (Nat.le_refl ts.length) (by simp))
  replace hread := hread.confined (Remains.of_lex hlex)
  rw [h] at hread
  generalize programBody (depthFor ts.length) (ts ++ []) = x at hread
  cases hread with
  | reads _ hpost => exact hpost.2

end Grammar

theorem Grammar.Remains.eq_last {body us : List Token} {last : Token} (h : Remains (body ++ [last]) us)
    (hone : us.length = 1) : us = [last] := by
  obtain ⟨before, hbefore⟩ := h.suffix
  obtain ⟨u, rfl⟩ := List.length_eq_one_iff.1 hone
  exact (List.append_inj' hbefore rfl).2

/-- **Every text is read or refused.** The characters are taken one step after the other from the front of what is left,
and no more steps are needed than there are characters. They give a list of tokens that ends with the end of a clause
and the end of the source, which stands nowhere before, or they are refused. -/
theorem Program.parse_within_source (src name : Text) :
    (∀ n s, (Lexer.State.init src).run n = .ok s → s.rest <:+ src ∧ s.rest.length ≤ src.length - n) ∧
    (∀ n, src.length ≤ n → (Lexer.State.init src).run n = (Lexer.State.init src).run src.length) ∧
    ((∃ e, Token.lex src = .error e ∧ e.cause.IsLexical ∧ Program.parse src name = .error e) ∨
      ∃ body eoc eof, Token.lex src = .ok (body ++ [eoc, eof]) ∧ eoc.kind = .endOfClause ∧ eof.kind = .endOfSource ∧
        (∀ t ∈ body, t.kind ≠ .endOfSource) ∧
        ((∃ stmts, Program.parse src name = .ok (Program.ofBody name (Text.lines src) stmts) ∧
            ∀ beyond n, depthFor (body ++ [eoc, eof]).length ≤ n →
              programBody n (body ++ [eoc, eof] ++ beyond) = .ok (stmts, eof :: beyond)) ∨
          ∃ e, Program.parse src name = .error e ∧ e.cause ≠ .nestedTooDeeply ∧
            (∃ t ∈ body ++ [eoc, eof], t.pos = e.pos) ∧
            ∀ beyond n, depthFor (body ++ [eoc, eof]).length ≤ n →
              programBody n (body ++ [eoc, eof] ++ beyond) = .error e)) := by
  refine ⟨?_, ?_, ?_⟩
  · intro n s hrun
    obtain ⟨hsuffix, hle, -⟩ := Lexer.State.run_progress hrun
    exact ⟨hsuffix, hle⟩
  · intro n hn
    exact Lexer.State.run_of_length_le hn (Nat.le_refl _)
  rcases Token.lex_cases src with ⟨e, hlex, hcause⟩ | ⟨body, eoc, eof, hlex, heoc, heof, hbody⟩
  · refine .inl ⟨e, hlex, hcause, ?_⟩
    rw [Program.parse, hlex]
    rfl
  refine .inr ⟨body, eoc, eof, hlex, heoc, heof, hbody, ?_⟩
  have hsource : body ++ [eoc, eof] = (body ++ [eoc]) ++ [eof] := by simp
  have hremains : Remains (body ++ [eoc, eof]) (body ++ [eoc, eof]) := by
    refine ⟨⟨body ++ [eoc], eof, hsource, heof, ?_⟩, List.suffix_rfl, by simp⟩
    intro t ht
    rcases List.mem_append.1 ht with ht | ht
    · exact hbody t ht
    · rw [List.mem_singleton.1 ht, heoc]
      simp
  have hconfined : ∀ beyond n, depthFor (body ++ [eoc, eof]).length ≤ n →
      Confines (body ++ [eoc, eof]) beyond (fun _ us => us.length = 1)
        (programBody (depthFor (body ++ [eoc, eof]).length) (body ++ [eoc, eof]))
        (programBody n (body ++ [eoc, eof] ++ beyond)) := by
    intro beyond n hn
    unfold depthFor at hn ⊢
    exact Confined.programBody (by omega) hremains
  have hparse : Program.parse src name = (programBody (depthFor (body ++ [eoc, eof]).length) (body ++ [eoc, eof])).bind
      fun p => .ok (Program.ofBody name (Text.lines src) p.1) := by
    rw [Program.parse, hlex]
    rfl
  rw [hparse]
  cases hread : programBody (depthFor (body ++ [eoc, eof]).length) (body ++ [eoc, eof]) with
  | ok p =>
    refine .inl ⟨p.1, rfl, ?_⟩
    intro beyond n hn
    have hboth := hconfined beyond n hn
    rw [hread] at hboth
    generalize programBody n (body ++ [eoc, eof] ++ beyond) = x at hboth ⊢
    cases hboth with
    | reads hleft hone =>
      rw [hsource] at hleft
      rw [hleft.eq_last hone]
      rfl
  | error e =>
    have hown : e.cause ≠ .nestedTooDeeply ∧ ∃ t ∈ body ++ [eoc, eof], t.pos = e.pos := by
      have hboth := hconfined [] _ (Nat.le_refl _)
      rw [hread] at hboth
      generalize programBody _ (body ++ [eoc, eof] ++ []) = x at hboth
      cases hboth with
      | refuses hown hplaced => exact ⟨hown, hplaced⟩
    refine .inr ⟨e, rfl, hown.1, hown.2, ?_⟩
    intro beyond n hn
    have hboth := hconfined beyond n hn
    rw [hread] at hboth
    generalize programBody n (body ++ [eoc, eof] ++ beyond) = x at hboth ⊢
    cases hboth with
    | refuses _ _ => rfl

end Rexx
