import Rexx.Proofs.Grammar.Agreement

/-!
# `Grammar.Clauses` — clauses and heads of loops on two lists of tokens side by side

Readers of clauses are put together from words, marks, names and expressions, so they agree on whatever these agree
on.
-/

namespace Rexx.Grammar

open List

variable {α β : Type} {P : Pairing} {ts us : List Token} {t : Token} {sc sc' : Scope}

def NoLabel : Clause → Prop
  | .label _ => False
  | _ => True

namespace Agree

/-! ## Parts of clauses -/

variable (hsc : sc.Alike sc')

include hsc

theorem templatePiece : Agree P (FewerIfSome ts) (templatePiece sc) (templatePiece sc') ts := by
  refine current fun t t' us hts ht => ?_
  have hlen := length_of_cons hts
  rw [← hsc.endsClause ht.kind, ← name?_eq ht.kind, ← ht.kind]
  refine ite (fun _ => pure ⟨Nat.le_refl _, by simp⟩) fun hends => ?_
  have hw := isWord_of_not_endsClause hends
  -- what is found after a token has been taken
  have hfound : ∀ {vs : List Token} (p : Option Piece), vs.length < ts.length → FewerIfSome ts (some p) vs :=
    fun p hlt => ⟨Nat.le_of_lt hlt, fun _ => hlt⟩
  have hnumber : ∀ g : Int → Option Piece, Agree P (FewerIfSome ts)
      (Grammar.skip 1 >>= fun _ => Grammar.wholeNumber >>= fun k => Pure.pure (some (g k)))
      (Grammar.skip 1 >>= fun _ => Grammar.wholeNumber >>= fun k => Pure.pure (some (g k))) ts :=
    fun g => skip hts hw (wholeNumber.bind fun k vs hlt => pure (hfound _ (Nat.lt_trans hlt (by omega))))
  have hrefuse : Agree P (FewerIfSome ts) (Grammar.fail (α := Option (Option Piece)) (.unexpectedInTemplate t.raw))
      (Grammar.fail (.unexpectedInTemplate t'.raw)) ts :=
    failing (by simp) fun hstrict => by rw [ht.same hstrict]
  split
  · exact skip hts hw (pure (hfound _ (by omega)))
  · exact skip hts hw (pure (hfound _ (by omega)))
  · exact hrefuse
  · exact skip hts hw (pure (hfound _ (by omega)))
  · refine skip hts hw ((symbolName _ _).bind fun name vs hlt => (expectMark _).bind fun _ ws hlt' => ?_)
    exact pure (hfound _ (Nat.lt_trans (Nat.lt_trans hlt' hlt) (by omega)))
  · exact wholeNumber.bind fun k vs hlt => pure (hfound _ hlt)
  · exact hnumber _
  · exact hnumber _
  · exact hnumber _
  · exact hrefuse

theorem templates : Agree P (NoMore ts) (templates sc) (templates sc') ts :=
  (all fun _ => templatePiece hsc).bind fun _ _ hle => pure hle

theorem callArguments {n n' : Nat} (hn : ts.length < min n n') :
    Agree P (NoMore ts) (callArguments sc n) (callArguments sc' n') ts := by
  induction n generalizing n' ts with
  | zero => omega
  | succ n ih =>
    obtain ⟨n', rfl⟩ : ∃ k, n' = k + 1 := ⟨n' - 1, by omega⟩
    refine untilEnd hsc (pure (Nat.le_refl _)) fun t us _ _ => (expression hsc).bind fun x vs hlt => ?_
    refine takeMark (fun ws hlt' => ?_) (pure (Nat.le_of_lt hlt))
    exact (ih (by omega)).bind fun xs zs hle => pure (Nat.le_trans hle (by omega))

theorem loopName : Agree P (NoMore ts) (loopName sc) (loopName sc') ts := by
  refine current fun t t' us hts ht => ?_
  rw [← hsc.endsClause ht.kind, ← name?_eq ht.kind]
  refine ite (fun _ => pure (Nat.le_refl _)) fun _ => ?_
  cases hname : t.name? with
  | none => exact pure (Nat.le_refl _)
  | some name => exact skip hts (isWord_of_name? hname) (pure (by simp [hts]))

theorem variableNames : Agree P (NoMore ts) (variableNames sc) (variableNames sc') ts :=
  all fun _ => untilEnd hsc (pure ⟨Nat.le_refl _, by simp⟩) fun _ _ _ _ =>
    (symbolName _ _).bind fun _ _ hlt => pure ⟨Nat.le_of_lt hlt, fun _ => hlt⟩

end Agree

/-! ## Instructions -/

def exitAfterCode (sc : Scope) (code : Option Expr) : Reader Clause := do
  if !(← takeWord "UNLESS") then return .exit code
  let cond ← expression sc
  if !(← takeMark .comma) then fail (.expected "','" " between the UNLESS condition and its message")
  return .exitUnless code cond (← expression sc)

def signalJump (sc : Scope) : Reader Clause := do
  if ← takeWord "VALUE" then return .signalValue (← expression sc)
  return .signal (← anyName "label")

def valueAfterExpression (x : Option Expr) : Reader ParseSource := do
  if !(← takeWord "WITH") then fail (.expected "WITH" [])
  return .value x

def parseAfterLetters (sc : Scope) (letters : Option LetterCase) : Reader Clause := do
  let src ← parseSource sc
  return .parse src letters (← templates sc)

def numericAfterForm (form : Text) : Reader Clause := do
  if form = "SCIENTIFIC" then return .numericForm false
  if form = "ENGINEERING" then return .numericForm true
  fail (.expected "SCIENTIFIC or ENGINEERING" [])
  fail (.expected "DIGITS, FUZZ or FORM" [])

def plainControl (sc : Scope) : Reader Control := do
  if (← atWord "WHILE") || (← atWord "UNTIL") then return .conditional
  return .times (← expression (sc.stopping ["WHILE", "UNTIL"]))

namespace Agree

theorem valueAfterExpression (x : Option Expr) :
    Agree P (NoMore ts) (valueAfterExpression x) (valueAfterExpression x) ts :=
  takeWord (fun _ hus => pure (Nat.le_of_lt hus)) (fail_bind (by simp))

theorem numericAfterForm (form : Text) (hle : us.length ≤ ts.length) :
    Agree P (Takes ts NoLabel) (numericAfterForm form) (numericAfterForm form) us :=
  ite (fun _ => pure ⟨hle, trivial⟩) fun _ => ite (fun _ => pure ⟨hle, trivial⟩) fun _ => fail_bind (by simp)

theorem made {r r' : Reader α} {make : α → Clause} (h : Agree P (NoMore ts) r r' us) (hmake : ∀ a, NoLabel (make a)) :
    Agree P (Takes ts NoLabel) (r >>= fun a => Pure.pure (make a)) (r' >>= fun a => Pure.pure (make a)) us :=
  h.bind fun a _ hle => pure ⟨hle, hmake a⟩

variable (hsc : sc.Alike sc')

include hsc

theorem unlessWord {word : Text} {R : β → List Token → Prop} {g g' : Option Expr → Reader β}
    (h : ∀ x us, us.length ≤ ts.length → Agree P R (g x) (g' x) us) :
    Agree P R (Grammar.atWord word >>= fun b => if b = true then Pure.pure none >>= g else
        some <$> Grammar.expression (sc.stopping [word]) >>= g)
      (Grammar.atWord word >>= fun b => if b = true then Pure.pure none >>= g' else
        some <$> Grammar.expression (sc'.stopping [word]) >>= g') ts := by
  refine atWord fun b => ite (fun _ => h none ts (Nat.le_refl _)) fun _ => ?_
  exact ((expression (hsc.stopping _)).map fun _ _ => Nat.le_of_lt).bind h

theorem exitAfterCode (code : Option Expr) (hle : us.length ≤ ts.length) :
    Agree P (Takes ts NoLabel) (exitAfterCode sc code) (exitAfterCode sc' code) us := by
  refine takeWord (fun vs hvs => (expression hsc).bind fun cond ws hws => ?_) (pure ⟨hle, trivial⟩)
  refine takeMark (fun xs hxs => (expression hsc).bind fun text zs hzs => ?_) (fail_bind (by simp))
  exact pure ⟨by omega, trivial⟩

theorem exitClause : Agree P (Takes ts NoLabel) (exitClause sc) (exitClause sc') ts :=
  untilEnd hsc (pure ⟨Nat.le_refl _, trivial⟩) fun _ _ _ _ => unlessWord hsc fun code _ => exitAfterCode hsc code

theorem signalJump : Agree P (Takes ts NoLabel) (signalJump sc) (signalJump sc') ts := by
  refine takeWord (fun us hus => (expression hsc).bind fun x vs hvs => ?_) ?_
  · exact pure ⟨by omega, trivial⟩
  · exact (anyName _).bind fun name us hus => pure ⟨Nat.le_of_lt hus, trivial⟩

theorem signalClause {pos pos' : Position} (hpos : P.Strict → P.Placed pos ∧ pos' = pos) :
    Agree P (Takes ts NoLabel) (signalClause sc pos) (signalClause sc' pos') ts := by
  refine current fun t t' us hts ht => ?_
  simp only [← isWord_eq ht.kind]
  refine ahead (fun v vs u u' hvs hv => ?_) fun v u u' vs hvs hv hu => ?_
  · -- what ends a clause is neither ON nor OFF, whatever follows it
    have hnot : ∀ word : Text, t.isWord word = false := by
      intro word
      rw [← Bool.not_eq_true]
      intro hword
      cases hts.symm.trans hvs
      exact hv (isWord_of_isWord hword)
    simp only [hnot]
    cases u.name? <;> cases u'.name? <;> exact signalJump hsc
  · have hlen : ts.length = vs.length + 2 := by rw [hvs, length_cons, length_cons]
    rw [← name?_eq hu.kind]
    cases hname : u.name? with
    | none => exact signalJump hsc
    | some name =>
      refine ite (fun _ => skipTwo hvs hv (isWord_of_name? hname) ?_) fun _ => signalJump hsc
      cases Event.trappable? name with
      | none => exact throw_bind fun h => ⟨by simp, (hpos h).1, by rw [(hpos h).2]⟩
      | some event =>
        refine ite (fun _ => pure ⟨by omega, trivial⟩) fun _ => takeWord (fun ws hws => ?_) (pure ⟨by omega, trivial⟩)
        exact (anyName _).bind fun label xs hxs => pure ⟨by omega, trivial⟩

theorem parseSource : Agree P (NoMore ts) (parseSource sc) (parseSource sc') ts := by
  -- a word that says it all
  have hword : ∀ (src : ParseSource) (us : List Token), us.length < ts.length →
      Agree P (NoMore ts) (Pure.pure src) (Pure.pure src) us :=
    fun src us hus => pure (Nat.le_of_lt hus)
  refine takeWord (hword _) (takeWord (hword _) (takeWord (hword _) (takeWord (hword _) (takeWord ?_ (takeWord ?_ ?_)))))
  · exact fun us hus => (symbolName _ _).bind fun name vs hvs => pure (Nat.le_of_lt (Nat.lt_trans hvs hus))
  · intro us hus
    refine unlessWord hsc fun x ws hws => ?_
    exact (valueAfterExpression x).noMore (Nat.le_trans hws (Nat.le_of_lt hus))
  · exact fail (by simp)

theorem parseAfterLetters (letters : Option LetterCase) (hle : us.length ≤ ts.length) :
    Agree P (Takes ts NoLabel) (parseAfterLetters sc letters) (parseAfterLetters sc' letters) us :=
  (parseSource hsc).bind fun _ _ hvs => ((templates hsc).noMore (Nat.le_trans hvs hle)).made fun _ => trivial

theorem parseClause : Agree P (Takes ts NoLabel) (parseClause sc) (parseClause sc') ts :=
  takeWord (fun _ hus => parseAfterLetters hsc _ (Nat.le_of_lt hus))
    (takeWord (fun _ hus => parseAfterLetters hsc _ (Nat.le_of_lt hus)) (parseAfterLetters hsc _ (Nat.le_refl _)))

theorem addressParts {n n' : Nat} (auth : Option Expr) (asName : Option Text) (hn : ts.length ≤ min n n') :
    Agree P (NoMore ts) (addressParts sc auth asName n) (addressParts sc' auth asName n') ts := by
  induction n generalizing n' ts auth asName with
  | zero =>
    intro ts' hts
    obtain ⟨t, _, us, _, rfl, -⟩ := P.heads hts
    simp at hn
  | succ n ih =>
    intro ts' hts
    obtain ⟨n', rfl⟩ : ∃ k, n' = k + 1 := by
      obtain ⟨t, _, us, _, rfl, -⟩ := P.heads hts
      exact ⟨n' - 1, by rw [length_cons] at hn; omega⟩
    refine (?_ : Agree P (NoMore ts) _ _ ts) ts' hts
    refine takeWord (fun us hus => ?_) (takeWord (fun us hus => ?_) (pure (Nat.le_refl _)))
    · apply (prefixTerm hsc).bind
      intro x vs hvs
      exact noMore (ih _ _ (by omega)) (by omega)
    · apply (anyName _).bind
      intro name vs hvs
      exact noMore (ih _ _ (by omega)) (by omega)

theorem addressClause : Agree P (Takes ts NoLabel) (addressClause sc) (addressClause sc') ts := by
  refine untilEnd hsc (pure ⟨Nat.le_refl _, trivial⟩) fun _ _ _ _ => ?_
  refine (anyName _).bind fun name us hus => get fun us' hpair => ?_
  refine (addressParts hsc none none (Nat.le_min.2 ⟨Nat.le_refl _, P.length_le hpair⟩)).bind fun parts vs hvs => ?_
  exact ((expression? hsc).noMore (by omega)).made fun _ => trivial

theorem numericClause : Agree P (Takes ts NoLabel) (numericClause sc) (numericClause sc') ts := by
  refine takeWord (fun us hus => ((expression? hsc).noMore (Nat.le_of_lt hus)).made fun _ => trivial) ?_
  refine takeWord (fun us hus => ((expression? hsc).noMore (Nat.le_of_lt hus)).made fun _ => trivial) ?_
  refine takeWord (fun us hus => ?_) (fail (by simp))
  refine untilEnd hsc (numericAfterForm "SCIENTIFIC" (Nat.le_of_lt hus)) fun _ _ _ _ => ?_
  exact (anyName _).bind fun form ws hws => numericAfterForm form (by omega)

theorem instruction {pos pos' : Position} (hpos : P.Strict → P.Placed pos ∧ pos' = pos) (k : Keyword) :
    Agree P (Takes ts NoLabel) (instruction sc pos k) (instruction sc' pos' k) ts := by
  have hrefuse : Agree P (Takes ts NoLabel) (MonadExcept.throw (⟨.unexpectedKeyword k, pos⟩ : SyntaxError) : Reader Clause)
      (MonadExcept.throw (⟨.unexpectedKeyword k, pos'⟩ : SyntaxError)) ts :=
    throw fun h => ⟨by simp, (hpos h).1, by rw [(hpos h).2]⟩
  cases k with
  | say => exact (expression? hsc).made fun _ => trivial
  | «return» => exact (expression? hsc).made fun _ => trivial
  | push => exact (expression? hsc).made fun _ => trivial
  | queue => exact (expression? hsc).made fun _ => trivial
  | arg => exact (templates hsc).made fun _ => trivial
  | pull => exact (templates hsc).made fun _ => trivial
  | leave => exact (loopName hsc).made fun _ => trivial
  | iterate => exact (loopName hsc).made fun _ => trivial
  | drop => exact (variableNames hsc).made fun _ => trivial
  | interpret => exact ((expression hsc).mono fun _ _ => Nat.le_of_lt).made fun _ => trivial
  | signal => exact signalClause hsc hpos
  | exit => exact exitClause hsc
  | parse => exact parseClause hsc
  | address => exact addressClause hsc
  | numeric => exact numericClause hsc
  | nop => exact pure ⟨Nat.le_refl _, trivial⟩
  | «let» =>
    refine (symbolName _ _).bind fun name us hus => (expectMark _).bind fun _ vs hvs => ?_
    exact (expression hsc).bind fun x ws hws => pure ⟨by omega, trivial⟩
  | call =>
    refine atWord fun a => atWord fun b => ite (fun _ => fail_bind (by simp)) fun _ => ?_
    refine (anyName _).bind fun name ws hws => get fun ws' hpair => ?_
    have hle := P.length_le hpair
    refine (callArguments hsc (by omega)).bind fun args xs hxs => ?_
    exact pure ⟨by omega, trivial⟩
  | require =>
    refine (expression (hsc.stopping _)).bind fun spec us hus => takeWord (fun vs hvs => ?_) (pure ⟨by omega, trivial⟩)
    exact (anyName _).bind fun name ws hws => pure ⟨by omega, trivial⟩
  | procedure =>
    refine untilEnd hsc (pure ⟨by omega, trivial⟩) fun _ _ _ _ => takeWord (fun vs hvs => ?_) (fail_bind (by simp))
    exact ((variableNames hsc).noMore (Nat.le_of_lt hvs)).made fun _ => trivial
  | trace =>
    refine untilEnd hsc (pure ⟨by omega, trivial⟩) fun _ _ _ _ => ?_
    exact ((anyName _).mono fun _ _ => Nat.le_of_lt).made fun _ => trivial
  | _ => exact hrefuse

/-! ## Commands, operations and routines -/

theorem parameters : Agree P (NoMore ts) (parameters sc) (parameters sc') ts := by
  refine all fun us => untilEnd hsc (pure ⟨Nat.le_refl _, by simp⟩) fun _ _ _ _ => ?_
  refine (symbolName _ _).bind fun key ws hws => (expectMark _).bind fun _ xs hxs => ?_
  refine (prefixTerm hsc).bind fun x zs hzs => ?_
  exact pure ⟨by omega, fun _ => by omega⟩

theorem symbolClause {name : Text} (hts : ts = t :: us) (ht : t.IsWord) :
    Agree P (TakesWord ts NoLabel) (symbolClause sc name) (symbolClause sc' name) ts := by
  have hlen := length_of_cons hts
  refine get fun ts' hpair => ?_
  -- the command is read from the first word on, wherever the reader stands
  have hback : ∀ vs, Agree P (TakesWord ts NoLabel)
      (MonadStateOf.set ts >>= fun _ => Grammar.expression sc >>= fun x => Pure.pure (Clause.command x))
      (MonadStateOf.set ts' >>= fun _ => Grammar.expression sc' >>= fun x => Pure.pure (Clause.command x)) vs :=
    fun vs => set hpair ((expression hsc).bind fun x us hus => pure ⟨hus, trivial⟩)
  refine skip hts ht (untilEnd hsc (pure ⟨by omega, trivial⟩) fun u vs hus hu => current fun v v' _ _ hv => ?_)
  rw [← name?_eq hv.kind]
  refine ahead (fun w _ _ _ hw hend => ?_) fun _ w w' ws _ _ hw => ?_
  · cases hus.symm.trans hw
    exact absurd hu hend
  · rw [← isMark_eq hw.kind]
    refine ite (fun _ => (parameters hsc).bind fun ps xs hxs => pure ⟨by omega, trivial⟩) fun _ => ?_
    refine atArguments fun b => ite (fun _ => get fun us' hpair' => ?_) fun _ => hback us
    refine ((Deep.all _).arguments (depthFor_le (P.length_le hpair') (by simp))).bind fun args xs hxs => ?_
    exact untilEnd hsc (pure ⟨by omega, trivial⟩) fun _ _ _ _ => hback xs

end Agree

/-! ## NO-INTERPRET -/

def noInterpretCount (t dash word after : Token) : Option Nat :=
  match t.kind with
  | .symbol name =>
    if name = "NO_INTERPRET" then if Scope.top.endsClause dash then some 1 else none
    else if name = "NO" ∧ dash.isMark .minus ∧ !dash.blank ∧ word.isKeyword .interpret ∧ !word.blank then
      if Scope.top.endsClause after then some 3 else none
    else none
  | _ => none

theorem noInterpretLength_read (ts : List Token) : noInterpretLength ts =
    .ok (noInterpretCount (ts.getD 0 nowhere) (ts.getD 1 nowhere) (ts.getD 2 nowhere) (ts.getD 3 nowhere), ts) := by
  unfold noInterpretLength noInterpretCount
  rw [bind_of_read (current_read _), bind_of_read (ahead_read 1 _), bind_of_read (ahead_read 2 _)]
  have hhead : ts.headD nowhere = ts.getD 0 nowhere := by cases ts <;> rfl
  rw [hhead]
  cases (ts.getD 0 nowhere).kind with
  | symbol name =>
    simp only
    split_ifs <;> first | rfl | skip
    all_goals rw [bind_of_read (ahead_read 3 _)]; simp_all [pure_read]
  | _ => rfl

section NoInterpret

variable {u w x t' u' w' x' : Token}

theorem noInterpretCount_eq (ht : P.Like t t') (hu : t.IsWord → P.Like u u') (hw : t.IsWord → u.IsWord → P.Like w w')
    (hx : t.IsWord → u.IsWord → w.IsWord → P.Like x x') : noInterpretCount t' u' w' x' = noInterpretCount t u w x := by
  have hends : ∀ {a b : Token}, P.Like a b → Scope.top.endsClause b = Scope.top.endsClause a :=
    fun h => ((Scope.Alike.refl _).endsClause h.kind).symm
  unfold noInterpretCount
  rw [← ht.kind]
  cases hkind : t.kind with
  | symbol name =>
    have htw : t.IsWord := isWord_of_kind hkind (by simp) (by simp)
    have hu := hu htw
    simp only [hends hu, ← isMark_eq hu.kind]
    by_cases hdash : u.isMark .minus = true
    · have huw := isWord_of_isMark hdash
      have hw := hw htw huw
      simp only [← hu.blank huw, ← isKeyword_eq hw.kind]
      by_cases hinterpret : w.isKeyword .interpret = true
      · have hww := isWord_of_isKeyword hinterpret
        simp only [← hw.blank hww, hends (hx htw huw hww)]
      · simp only [hinterpret, Bool.false_eq_true, false_and, and_false, if_false]
    · simp only [hdash, Bool.false_eq_true, false_and, and_false, if_false]
  | _ => rfl

theorem noInterpretCount_eq_some {j : Nat} (h : noInterpretCount t u w x = some j) : t.IsWord ∧
    (j = 1 ∨ (j = 3 ∧ u.isMark .minus = true ∧ w.isKeyword .interpret = true)) := by
  unfold noInterpretCount at h
  split at h
  · next hkind =>
    refine ⟨isWord_of_kind hkind (by simp) (by simp), ?_⟩
    split_ifs at h with hone hend hthree hend
    · exact .inl (Option.some.inj h).symm
    · exact .inr ⟨(Option.some.inj h).symm, hthree.2.1, hthree.2.2.2.1⟩
  · cases h

end NoInterpret

theorem Pairing.noInterpret {ts' : List Token} (h : P.Pairs ts ts') : ∃ k, noInterpretLength ts = .ok (k, ts) ∧
    noInterpretLength ts' = .ok (k, ts') ∧
    ∀ j, k = some j → P.Pairs (ts.drop j) (ts'.drop j) ∧ (ts.drop j).length < ts.length ∧ ∀ t ∈ ts.head?, t.IsWord := by
  refine ⟨_, noInterpretLength_read ts, ?_⟩
  rw [noInterpretLength_read]
  -- the tokens that are looked at, one after the other
  have hnext : ∀ {l l' : List Token}, P.Pairs l l' → P.Like (l.getD 0 nowhere) (l'.getD 0 nowhere) ∧
      ((l.getD 0 nowhere).IsWord → P.Pairs (l.drop 1) (l'.drop 1) ∧ (l.drop 1).length < l.length) := by
    intro l l' hl
    obtain ⟨t, t', us, us', rfl, rfl, ht, hword⟩ := P.first hl
    exact ⟨ht, fun hw => ⟨hword hw, by simp⟩⟩
  have hdrop : ∀ (l : List Token) (i j : Nat), (l.drop i).getD j nowhere = l.getD (i + j) nowhere := by
    intro l i j
    simp [getD_eq_getElem?_getD]
  obtain ⟨ht, hus⟩ := hnext h
  have hu := fun htw => hnext (hus htw).1
  have hw := fun htw huw => hnext ((hu htw).2 huw).1
  simp only [drop_drop, hdrop] at hu hw
  have hx := fun htw huw hww => (hnext ((hw htw huw).2 hww).1).1
  simp only [hdrop] at hx
  rw [noInterpretCount_eq ht (fun htw => (hu htw).1) (fun htw huw => (hw htw huw).1) hx]
  refine ⟨rfl, fun j hj => ?_⟩
  obtain ⟨htw, hcount⟩ := noInterpretCount_eq_some hj
  have hhead : ∀ t ∈ ts.head?, t.IsWord := by
    intro t hmem
    obtain ⟨us, rfl⟩ := head?_eq_some_iff.1 hmem
    exact htw
  rcases hcount with rfl | ⟨rfl, hdash, hinterpret⟩
  · exact ⟨(hus htw).1, (hus htw).2, hhead⟩
  · obtain ⟨hpairs, hlt⟩ := (hw htw (isWord_of_isMark hdash)).2 (isWord_of_isKeyword hinterpret)
    refine ⟨hpairs, ?_, hhead⟩
    simp only [length_drop] at hlt ⊢
    omega

namespace Agree

/-! ## Loops -/

variable (hsc : sc.Alike sc')

include hsc

theorem limits (l : Limits) (n : Nat) : Agree P (NoMore ts) (limits sc l n) (limits sc' l n) ts := by
  induction n generalizing l ts with
  | zero => exact pure (Nat.le_refl _)
  | succ n ih =>
    have hpart : ∀ (given : Bool) (part : Text) (add : Expr → Limits) (us : List Token), us.length < ts.length →
        Agree P (NoMore ts)
          (if given = true then (Grammar.fail (.duplicate part) : Reader Unit) >>= fun _ =>
            Grammar.expression (sc.stopping loopWords) >>= fun x => Grammar.limits sc (add x) n
          else Grammar.expression (sc.stopping loopWords) >>= fun x => Grammar.limits sc (add x) n)
          (if given = true then (Grammar.fail (.duplicate part) : Reader Unit) >>= fun _ =>
            Grammar.expression (sc'.stopping loopWords) >>= fun x => Grammar.limits sc' (add x) n
          else Grammar.expression (sc'.stopping loopWords) >>= fun x => Grammar.limits sc' (add x) n) us := by
      intro given part add us hus
      refine ite (fun _ => fail_bind (by simp)) fun _ => (expression (hsc.stopping _)).bind fun x vs hvs => ?_
      exact (ih _).noMore (Nat.le_of_lt (Nat.lt_trans hvs hus))
    refine takeWord (hpart l.limit.isSome "TO" fun x => { l with limit := some x }) ?_
    refine takeWord (hpart l.by_.isSome "BY" fun x => { l with by_ := some x }) ?_
    exact takeWord (hpart l.count.isSome "FOR" fun x => { l with count := some x }) (pure (Nat.le_refl _))

theorem plainControl : Agree P (NoMore ts) (plainControl sc) (plainControl sc') ts := by
  refine atWord fun a => atWord fun b => ite (fun _ => pure (Nat.le_refl _)) fun _ => ?_
  exact (expression (hsc.stopping _)).bind fun x ws hws => pure (Nat.le_of_lt hws)

theorem loopControl : Agree P (NoMore ts) (loopControl sc) (loopControl sc') ts := by
  refine takeWord (fun us hus => pure (Nat.le_of_lt hus)) ?_
  refine ahead (fun t us u u' hts ht => current fun v v' vs hvs hv => ?_) fun t u u' vs hts ht hu => ?_
  · have hnone : v.name? = none := by
      rw [Option.eq_none_iff_forall_ne_some]
      intro name hname
      cases hts.symm.trans hvs
      exact ht (isWord_of_name? hname)
    rw [← name?_eq hv.kind, hnone]
    exact plainControl hsc
  · have hlen : ts.length = vs.length + 2 := by rw [hts, length_cons, length_cons]
    refine current fun v v' _ _ hv => ?_
    rw [← name?_eq hv.kind, ← isMark_eq hu.kind, ← isWord_eq hu.kind]
    cases v.name? with
    | none => exact plainControl hsc
    | some var =>
      refine ite (fun hequal => skipTwo hts ht (isWord_of_isMark hequal) ?_) fun _ => ite (fun hover => ?_) fun _ => plainControl hsc
      · refine (expression (hsc.stopping _)).bind fun start ws hws => (limits hsc _ _).bind fun l xs hxs => ?_
        exact pure (by omega)
      · refine skipTwo hts ht (isWord_of_isWord hover) (current fun w w' ws hvs hw => ?_)
        have hlen' : vs.length = ws.length + 1 := by rw [hvs, length_cons]
        rw [← name?_eq hw.kind]
        cases hstem : w.name? with
        | none => exact fail_bind (by simp)
        | some stem =>
          refine ite (fun _ => fail_bind (by simp)) fun _ => ?_
          exact skip hvs (isWord_of_name? hstem) (pure (by omega))

theorem loopGuard : Agree P (NoMore ts) (loopGuard sc) (loopGuard sc') ts := by
  have hpart : ∀ (make : Expr → Guard) (us : List Token), us.length < ts.length → Agree P (NoMore ts)
      (Grammar.expression sc >>= fun x => Pure.pure (some (make x)))
      (Grammar.expression sc' >>= fun x => Pure.pure (some (make x))) us :=
    fun make us hus => (expression hsc).bind fun x vs hvs => pure (Nat.le_of_lt (Nat.lt_trans hvs hus))
  exact takeWord (hpart .whilst) (takeWord (hpart .untilTrue) (pure (Nat.le_refl _)))

theorem loopHead : Agree P (NoMore ts) (loopHead sc) (loopHead sc') ts := by
  refine untilEnd hsc (pure (Nat.le_refl _)) fun _ _ _ _ => (loopControl hsc).bind fun control vs hvs => ?_
  refine (loopGuard hsc).bind fun guard ws hws => current fun u u' xs _ hu => ?_
  rw [← hsc.endsClause hu.kind]
  refine ite (fun _ => failing_bind (by simp) fun hstrict => by rw [hu.same hstrict]) fun _ => ?_
  exact pure (Nat.le_trans hws hvs)

end Agree

end Rexx.Grammar

namespace Rexx.Grammar

/-! ## The same words in two places -/

structure Same (l l' : List Token) : Prop where
  lexemes : l.map Token.lexeme = l'.map Token.lexeme
  isWord : ∀ t ∈ l, t.IsWord

structure Rests (rest rest' : List Token) : Prop where
  first : ∃ e tail, rest = e :: tail ∧ e.kind = .endOfClause
  second : ∃ e tail, rest' = e :: tail ∧ e.kind = .endOfClause
  length_le : rest.length ≤ rest'.length

/-- What the first reader does on the words `l` before `rest`, the second does on the words `l'` before `rest'`, and neither
leaves the clause. -/
def Keeps {α : Type} (rest rest' l l' : List Token) (r r' : Reader α) : Prop :=
  ∀ a us, r (l ++ rest) = .ok (a, us) →
    ∃ m m', us = m ++ rest ∧ m <:+ l ∧ Same m m' ∧ r' (l' ++ rest') = .ok (a, m' ++ rest')

def Local {α : Type} (r r' : Reader α) : Prop :=
  ∀ rest rest', Rests rest rest' → ∀ l l', Same l l' → Keeps rest rest' l l' r r'

variable {α : Type} {r r' : Reader α} {rest rest' l l' : List Token} {t t' : Token} {sc sc' : Scope}

theorem kind_eq_of_lexeme (h : t.lexeme = t'.lexeme) : t.kind = t'.kind := congrArg Lexeme.kind h

theorem isMark_endOfClause (h : t.kind = .endOfClause) (m : Mark) : t.isMark m = false := by simp [Token.isMark, h]

theorem name?_endOfClause (h : t.kind = .endOfClause) : t.name? = none := by simp [Token.name?, h]

theorem endsClause_endOfClause (sc : Scope) (h : t.kind = .endOfClause) : sc.endsClause t = true := by
  simp [Scope.endsClause, h]

namespace Same

theorem cons (ht : t.lexeme = t'.lexeme) (hw : t.IsWord) (h : Same l l') : Same (t :: l) (t' :: l') := by
  refine ⟨by rw [List.map_cons, List.map_cons, ht, h.lexemes], ?_⟩
  intro u hu
  rcases List.mem_cons.1 hu with rfl | hu
  · exact hw
  · exact h.isWord u hu

theorem of_cons (h : Same (t :: l) l') : ∃ t' m', l' = t' :: m' ∧ t.lexeme = t'.lexeme ∧ t.IsWord ∧ Same l m' := by
  obtain ⟨t', m', rfl, ht, hm⟩ := List.map_eq_cons_iff.1 h.lexemes.symm
  exact ⟨t', m', rfl, ht.symm, h.isWord t (by simp), hm.symm, fun u hu => h.isWord u (by simp [hu])⟩

theorem cases_on (h : Same l l') : (l = [] ∧ l' = []) ∨
    ∃ t t' m m', l = t :: m ∧ l' = t' :: m' ∧ t.lexeme = t'.lexeme ∧ t.IsWord ∧ Same m m' := by
  cases l with
  | nil => exact .inl ⟨rfl, List.map_eq_nil_iff.1 h.lexemes.symm⟩
  | cons t m =>
    obtain ⟨t', m', rfl, hm⟩ := h.of_cons
    exact .inr ⟨t, t', m, m', rfl, rfl, hm⟩

theorem length_eq (h : Same l l') : l.length = l'.length := by
  simpa using congrArg List.length h.lexemes

end Same

/-! ## Reading them side by side -/

def Rests.pairing (h : Rests rest rest') (l : List Token) : Pairing where
  Pairs ts ts' := ∃ m m', ts = m ++ rest ∧ ts' = m' ++ rest' ∧ m <:+ l ∧ Same m m'
  Strict := False
  Placed _ := True
  heads := by
    rintro _ _ ⟨m, m', rfl, rfl, hm, hsame⟩
    rcases hsame.cases_on with ⟨rfl, rfl⟩ | ⟨t, t', k, k', rfl, rfl, ht, -, hk⟩
    · obtain ⟨e, tail, rfl, he⟩ := h.first
      obtain ⟨e', tail', rfl, he'⟩ := h.second
      exact ⟨e, e', tail, tail', rfl, rfl, he.trans he'.symm, False.elim, fun hw => absurd he hw.1⟩
    · exact ⟨t, t', k ++ rest, k' ++ rest', rfl, rfl, kind_eq_of_lexeme ht, False.elim, fun _ =>
        ⟨congrArg Lexeme.blank ht, k, k', rfl, rfl, (List.suffix_cons _ _).trans hm, hk⟩⟩
  length_le := by
    rintro _ _ ⟨m, m', rfl, rfl, -, hsame⟩
    rw [List.length_append, List.length_append, hsame.length_eq]
    exact Nat.add_le_add_left h.length_le _

theorem Agree.keeps {Q : α → List Token → Prop} (hrests : Rests rest rest')
    (h : Agree (hrests.pairing l) Q r r' (l ++ rest)) (hl : Same l l') : Keeps rest rest' l l' r r' := by
  intro a us hread
  have hboth := h (l' ++ rest') ⟨l, l', rfl, rfl, List.suffix_rfl, hl⟩
  rw [hread] at hboth
  generalize r' (l' ++ rest') = x at hboth ⊢
  cases hboth with
  | reads hleft _ =>
    obtain ⟨m, m', rfl, rfl, hm, hsame⟩ := hleft
    exact ⟨m, m', rfl, hm, hsame, rfl⟩

theorem Local.expression (h : sc.Alike sc') : Local (expression sc) (expression sc') :=
  fun _ _ hrests _ _ hl => Agree.keeps hrests (.expression h) hl

theorem Local.loopHead (h : sc.Alike sc') : Local (loopHead sc) (loopHead sc') :=
  fun _ _ hrests _ _ hl => Agree.keeps hrests (.loopHead h) hl

end Rexx.Grammar
