import Rexx.Proofs.Token.Reading

/-!
# `Token.Exchange` — the same text before different continuations

What is read of a text depends little on what follows it.
-/

namespace Rexx.Lexer

open List

variable {c : Char} {k : TokenKind} {w x y r r1 r2 : Text}

/-! ## Tokens -/

def isStop (c : Char) : Bool := " \t\r\n(".toList.contains c

def Stops (r : Text) : Prop := ∀ c ∈ r.head?, isStop c = true

theorem Stops.head? (hr : Stops r) {p : Char → Bool} (hp : " \t\r\n(".toList.all (!p ·) = true) :
    ∀ c ∈ r.head?, p c = false := by
  intro c hc
  simpa using all_eq_true.1 hp c (contains_iff_mem.1 (hr c hc))

theorem head?_exchange {P : Char → Prop} (h : ∀ c ∈ (y ++ r1).head?, P c) (hr : ∀ c ∈ r2.head?, P c) :
    ∀ c ∈ (y ++ r2).head?, P c := by
  cases y with
  | nil => exact hr
  | cons d y => exact h

theorem signedNext_exchange (hr : Stops r2) (h : signedNext (x ++ r2) = true) : signedNext (x ++ r1) = true := by
  rcases x with _ | ⟨a, _ | ⟨b, x⟩⟩
  · cases r2 with
    | nil => cases h
    | cons d r2 =>
      have hd := hr.head? (p := fun c => c == '+' || c == '-') (by decide) d rfl
      simp [signedNext] at h hd
      simp [hd] at h
  · cases r2 with
    | nil => simp [signedNext] at h
    | cons d r2 =>
      have hd := hr.head? (p := Char.isDigit) (by decide) d rfl
      simp [signedNext, hd] at h
  · exact h

theorem numberWord_exchange {plain : Bool} (hr : Stops r2) (h : numberWord plain (w ++ (y ++ r1)) = w) :
    numberWord plain (w ++ (y ++ r2)) = w := by
  induction hn : w.length using Nat.strong_induction_on generalizing w plain with
  | _ n ih =>
  cases w with
  | nil =>
    have hstop : ∀ c ∈ (y ++ r2).head?, isSymbolChar c = false := by
      refine head?_exchange (fun c (hc : c ∈ (y ++ r1).head?) => ?_) (hr.head? (by decide))
      by_contra hsymbol
      obtain ⟨z, hz⟩ := head?_eq_some_iff.1 hc
      rw [nil_append, hz] at h
      exact numberWord_ne_nil (Bool.not_eq_false _ ▸ hsymbol) z h
    rw [nil_append]
    cases hz : y ++ r2 with
    | nil => rfl
    | cons c z => exact numberWord_of_not_symbolChar (hstop c (by rw [hz]; rfl)) z
  | cons c w =>
    rw [cons_append] at h ⊢
    have hrest : ∀ {plain}, numberWord plain (w ++ (y ++ r1)) = w → numberWord plain (w ++ (y ++ r2)) = w :=
      fun h => ih w.length (by simp [← hn]) h rfl
    cases hc : isSymbolChar c with
    | false =>
      rw [numberWord_of_not_symbolChar hc] at h
      cases h
    | true =>
    cases hplain : plain && (c == 'e' || c == 'E') with
    | false =>
      rw [numberWord_cons hc hplain] at h ⊢
      rw [hrest (cons.inj h).2]
    | true =>
    obtain ⟨rfl, he⟩ := Bool.and_eq_true_iff.1 hplain
    cases hsigned : signedNext (w ++ (y ++ r1)) with
    | false =>
      have hsigned' : signedNext (w ++ (y ++ r2)) = false := by
        by_contra hs
        rw [Bool.not_eq_false, ← append_assoc] at hs
        rw [← append_assoc, signedNext_exchange hr hs] at hsigned
        cases hsigned
      rw [numberWord_exponent hc he hsigned] at h
      rw [numberWord_exponent hc he hsigned', hrest (cons.inj h).2]
    | true =>
      -- the sign and the digit after it are taken together, so both belong to the word
      rcases hz : w ++ (y ++ r1) with _ | ⟨sign, _ | ⟨d, z⟩⟩
      · rw [hz] at hsigned
        cases hsigned
      · rw [hz] at hsigned
        simp [signedNext] at hsigned
      · have hd : isSymbolChar d = true := isSymbolChar_of_isDigit (Bool.and_eq_true_iff.1 (hz ▸ hsigned)).2
        rw [hz] at hsigned
        rw [hz, numberWord_signed hc he hsigned] at h
        obtain ⟨-, rfl⟩ := cons.inj h
        obtain ⟨r, hsplit, -⟩ := numberWord_split false (d :: z)
        cases hv : numberWord false (d :: z) with
        | nil => exact absurd hv (numberWord_ne_nil hd z)
        | cons d' v =>
          rw [hv] at hz hn hsplit
          obtain ⟨rfl, -⟩ := cons.inj hsplit
          have hdv : d :: v ++ (y ++ r1) = d :: z := (cons.inj hz).2
          have hrest := ih (d :: v).length (by simp [← hn]) (hdv ▸ hv) rfl
          have hsigned' : signedNext (sign :: d :: (v ++ (y ++ r2))) = true := hsigned
          rw [cons_append, cons_append, numberWord_signed hc he hsigned', ← cons_append, hrest]

theorem isPrefixOf_exchange (hr : Stops r2) (hx : x ≠ []) (hw : w.tail.any isStop = false)
    (h : w.isPrefixOf (x ++ r2) = true) : w.isPrefixOf (x ++ r1) = true := by
  rw [List.isPrefixOf_iff_prefix] at h ⊢
  obtain ⟨z, hz⟩ := h
  rcases append_eq_append_iff.1 hz with ⟨a, rfl, -⟩ | ⟨a, rfl, ha⟩
  · exact ⟨a ++ r1, by simp⟩
  · cases a with
    | nil => exact ⟨r1, by simp⟩
    | cons d a =>
      have hd := any_eq_false.1 hw d (by rw [tail_append_of_ne_nil hx]; simp)
      exact absurd (hr d (by rw [ha]; rfl)) hd

theorem atStart?_exchange {m : Mark} (hr : Stops r2) (h : Mark.atStart? (m.spelling ++ (y ++ r1)) = some m) :
    Mark.atStart? (m.spelling ++ (y ++ r2)) = some m := by
  have htail : ∀ m : Mark, m.spelling.tail.any isStop = false := by
    intro m
    cases m <;> decide
  have hne : m.spelling ++ y ≠ [] := by
    obtain ⟨c, w, hw, -⟩ := spelling_cons m
    simp [hw]
  obtain ⟨-, before, after, hall, hbefore⟩ := find?_eq_some_iff_append.1 h
  refine find?_eq_some_iff_append.2 ⟨by simp, before, after, hall, fun m' hm' => ?_⟩
  have hnot := hbefore m' hm'
  rw [Bool.not_eq_true', ← append_assoc, Bool.eq_false_iff] at hnot ⊢
  exact fun h => hnot (isPrefixOf_exchange hr hne (htail m') h)

theorem Lexes.exchange (h : Lexes k w (y ++ r1)) (hr : Stops r2)
    (hlines : ∀ m : Mark, w = m.spelling → heredocAt? (w ++ (y ++ r1)) = none → heredocAt? (w ++ (y ++ r2)) = none) :
    Lexes k w (y ++ r2) := by
  cases h with
  | semicolon => exact .semicolon
  | @literal quote _ _ hquote hline hend =>
    refine .literal hquote hline fun hmem => ?_
    have hfirst : ∀ c ∈ (y ++ r1).head?, quote.char ≠ c := fun c hc hq => hend (hq ▸ hc)
    refine head?_exchange hfirst ?_ _ hmem rfl
    rintro c hc rfl
    have hstop := hr _ hc
    cases quote <;> cases hstop
  | number hbegins hend => exact .number hbegins (numberWord_exchange hr hend)
  | name hne hall hbegins hend => exact .name hne hall hbegins (head?_exchange hend (hr.head? (by decide)))
  | @mark m _ hlongest hcomment hsingle =>
    refine .mark (atStart?_exchange hr hlongest) ?_ (hlines m rfl hsingle)
    obtain ⟨c, w, hw, -⟩ := spelling_cons m
    rw [← append_assoc, Bool.eq_false_iff] at hcomment ⊢
    refine fun h => hcomment (Bool.or_eq_true_iff.2 ((Bool.or_eq_true_iff.1 h).imp ?_ ?_)) <;>
      exact isPrefixOf_exchange hr (by simp [hw]) (by decide)

theorem Lexes.alone (h : Lexes k w r) (hr : Stops r2) : Lexes k w r2 := by
  refine Lexes.exchange (y := []) h hr ?_
  rintro m rfl -
  rcases r2 with _ | ⟨c, r2⟩
  · cases m <;> rfl
  · obtain rfl | rfl | rfl | rfl | rfl : c = ' ' ∨ c = '\t' ∨ c = '\r' ∨ c = '\n' ∨ c = '(' := by simpa [isStop] using hr c rfl
    all_goals cases m <;> rfl

/-! ## Looks ahead -/

theorem heredocAt?_append {label : Text} (hx : x ≠ []) (hr : ∀ c ∈ r.head?, c ≠ '<' ∧ isLabelChar c = false) :
    heredocAt? (x ++ r) = some label ↔ ∃ y, x = "<<" ++ (label ++ y) ∧ isLabel label = true ∧ trails (y ++ r) = true := by
  constructor
  · intro h
    unfold heredocAt? at h
    split_ifs at h with hlt
    obtain ⟨z, hz⟩ := isPrefixOf_iff_prefix.1 hlt
    have hz : '<' :: '<' :: z = x ++ r := hz
    rcases x with _ | ⟨c, _ | ⟨d, x⟩⟩
    · exact absurd rfl hx
    · have hz : '<' :: z = r := (cons.inj hz).2
      exact absurd rfl (hr '<' (by rw [← hz]; rfl)).1
    · obtain ⟨rfl, hd⟩ := cons.inj hz
      obtain ⟨rfl, -⟩ := cons.inj (show '<' :: z = d :: (x ++ r) from hd)
      obtain ⟨v, hv, hlabel, htrails⟩ := heredocLabel?_eq_some_iff.1 h
      -- what follows cannot belong to the label
      rcases append_eq_append_iff.1 (show x ++ r = label ++ v from hv) with ⟨u, rfl, rfl⟩ | ⟨u, rfl, rfl⟩
      · cases u with
        | nil => exact ⟨[], by simp, by simpa using hlabel, htrails⟩
        | cons c u =>
          have hc := all_eq_true.1 (Bool.and_eq_true_iff.1 hlabel).2 c (by simp)
          rw [(hr c rfl).2] at hc
          cases hc
      · exact ⟨u, rfl, hlabel, htrails⟩
  · rintro ⟨y, rfl, hlabel, hy⟩
    rw [append_assoc, append_assoc]
    exact heredocLabel?_eq_some_iff.2 ⟨y ++ r, rfl, hlabel, hy⟩

theorem heredocAt?_exchange (hx : x ≠ []) (hr1 : ∀ c ∈ r1.head?, c ≠ '<' ∧ isLabelChar c = false)
    (hr2 : ∀ c ∈ r2.head?, c ≠ '<' ∧ isLabelChar c = false)
    (h : ∀ label y, x = "<<" ++ (label ++ y) → isLabel label = true → trails (y ++ r1) = trails (y ++ r2)) :
    heredocAt? (x ++ r1) = heredocAt? (x ++ r2) := by
  ext label
  rw [heredocAt?_append hx hr1, heredocAt?_append hx hr2]
  refine exists_congr fun y => and_congr_right fun hy => and_congr_right fun hlabel => ?_
  rw [h label y hy hlabel]

theorem EndsLine.looksPast_append (hr : EndsLine r) {blank : Char → Bool} {test : Char → Option Char → Bool} {atEnd : Bool}
    (hblank : blank '\n' = false) (hend : ∀ d, test '\n' d = atEnd) (htest : ∀ c, test c (some '\n') = test c none) (x : Text) :
    looksPast blank test atEnd (x ++ r) = looksPast blank test atEnd x := by
  induction x with
  | nil =>
    cases r with
    | nil => rfl
    | cons c r =>
      obtain rfl := hr c rfl
      simp [looksPast, hblank, hend]
  | cons c x ih =>
    rw [cons_append, looksPast, looksPast, ih]
    cases x with
    | nil =>
      cases r with
      | nil => rfl
      | cons d r =>
        obtain rfl := hr d rfl
        simp [htest]
    | cons d x => rfl

/-! ## Places -/

structure Carried (R : Position → Position → Prop) : Prop where
  right : ∀ {p p' : Position} (n : Nat), R p p' → R (p.right n) (p'.right n)
  down : ∀ {p p' : Position} (n : Nat), R p p' → R (p.down n) (p'.down n)

variable {R : Position → Position → Prop}

theorem Carried.after (hR : Carried R) {p p' : Position} (h : R p p') (x : Text) : R (p.after x) (p'.after x) := by
  induction x generalizing p p' with
  | nil => exact h
  | cons c x ih =>
    refine @ih (p.past c) (p'.past c) ?_
    unfold Position.past
    split_ifs
    · exact hR.down 1 h
    · exact hR.right 1 h

structure Alike (R : Position → Position → Prop) (t t' : Token) : Prop where
  kind : t'.kind = t.kind
  raw : t'.raw = t.raw
  blank : t'.blank = t.blank
  pos : R t.pos t'.pos

/-! ## Steps -/

structure Exchanges (x r1 r2 : Text) : Prop where
  stops : Stops r2
  line : EndsLine r1 → EndsLine r2
  heredoc : ∀ y, y <:+ x → y ≠ [] → heredocAt? (y ++ r1) = heredocAt? (y ++ r2)
  pipe : ∀ y, '\n' :: y <:+ x → pipeNext (y ++ r1) = pipeNext (y ++ r2)
  ended : '\n' ∈ x → r1 = [] → r2 = []

theorem Exchanges.of_suffix (h : Exchanges x r1 r2) (hy : y <:+ x) : Exchanges y r1 r2 :=
  ⟨h.stops, h.line, fun z hz => h.heredoc z (hz.trans hy), fun z hz => h.pipe z (hz.trans hy), fun hm => h.ended (hy.subset hm)⟩

namespace State

structure Beside (R : Position → Position → Prop) (before : List Token) (x r1 r2 : Text) (s s' : State) : Prop where
  rest : s.rest = x ++ r1
  rest' : s'.rest = x ++ r2
  pos : R s.pos s'.pos
  blank : s'.blank = s.blank
  tokens : ∃ ts, s'.tokens = ts ++ before ∧ List.Forall₂ (Alike R) s.tokens ts
  heredoc : s'.heredoc.map Prod.fst = s.heredoc.map Prod.fst
  announced : s.tokens = [] → s.heredoc = none
  front : before.head?.any (·.isMark .comma) = false

structure AtLine (s : State) : Prop where
  blank : s.blank = false
  heredoc : s.heredoc = none
  front : s.tokens.head?.any (·.isMark .comma) = false

variable {before : List Token} {s s' s1 t : State}

theorem AtLine.beside (hs : s.AtLine) (hrest : s.rest = x ++ r) (hpos : R .start s.pos) : Beside R s.tokens x [] r (.init x) s :=
  ⟨by simp [init], hrest, hpos, hs.blank, ⟨[], rfl, .nil⟩, by rw [hs.heredoc]; rfl, fun _ => rfl, hs.front⟩

section

variable (h : Beside R before x r1 r2 s s')
include h

theorem Beside.skip {pos pos' : Position} (hpos : R pos pos') (blank : Bool) :
    Beside R before y r1 r2 (s.skip (y ++ r1) pos blank) (s'.skip (y ++ r2) pos' blank) :=
  ⟨rfl, rfl, hpos, by simp [State.skip, h.blank], h.tokens, h.heredoc, h.announced, h.front⟩

theorem Beside.emit (hR : Carried R) (hx : x = w ++ y) : Beside R before y r1 r2 (s.emit k w) (s'.emit k w) := by
  obtain ⟨ts, hts, halike⟩ := h.tokens
  subst hx
  refine ⟨emit_rest (by rw [h.rest, append_assoc]), emit_rest (by rw [h.rest', append_assoc]), hR.right _ h.pos,
    rfl, ⟨⟨k, w, s'.pos, s'.blank⟩ :: ts, by simp [emit, hts], .cons ⟨rfl, rfl, h.blank, h.pos⟩ halike⟩, h.heredoc,
    fun hnil => ?_, h.front⟩
  cases hnil

theorem Beside.ended {p p' : Position} (hp : R p p')
    (hpipe : pipeNext (x ++ r1) = pipeNext (x ++ r2)) (hnone : s.heredoc = none) :
    Beside R before x r1 r2 (s.ended p) (s'.ended p') := by
  obtain ⟨ts, hts, halike⟩ := h.tokens
  have hcomma : s'.tokens.head?.any (·.isMark .comma) = s.tokens.head?.any (·.isMark .comma) := by
    rw [hts]
    obtain ⟨rest, pos, blank, tokens, heredoc⟩ := s
    cases halike with
    | nil => simpa using h.front
    | cons ht _ => simp [Token.isMark, ht.kind]
  have hpipe : pipeNext s'.rest = pipeNext s.rest := by rw [h.rest, h.rest', hpipe]
  unfold State.ended
  rw [hcomma, hpipe]
  split_ifs with hends
  · -- the comma was read on the line, so it is not one of the tokens before
    refine ⟨h.rest, h.rest', h.pos, rfl, ⟨ts.tail, ?_, ?_⟩, h.heredoc, fun _ => hnone, h.front⟩
    · cases ts with
      | nil =>
        rw [← hcomma, hts, nil_append, h.front] at hends
        cases hends
      | cons t ts => rw [hts]; rfl
    · obtain ⟨rest, pos, blank, tokens, heredoc⟩ := s
      cases halike with
      | nil => exact .nil
      | cons _ hrest => exact hrest
  · exact ⟨h.rest, h.rest', h.pos, rfl, h.tokens, h.heredoc, h.announced, h.front⟩
  · refine ⟨h.rest, h.rest', h.pos, rfl, ⟨⟨.endOfClause, "\n", p', s'.blank⟩ :: ts, by rw [hts]; rfl, ?_⟩, h.heredoc,
      fun _ => hnone, h.front⟩
    exact .cons ⟨rfl, rfl, h.blank, hp⟩ halike

theorem Beside.reads (hR : Carried R) (hx : Exchanges x r1 r2) (hs : s.Reads s1)
    (hy : s1.rest = y ++ r1) : ∃ s1', s'.Reads s1' ∧ Beside R before y r1 r2 s1 s1' := by
  have hcut : ∀ {u r : Text}, s.rest = u ++ r → r = y ++ r1 → x = u ++ y := fun hu hr => by
    rw [h.rest, hr, ← append_assoc] at hu
    exact append_cancel_right hu
  have hlt := hs.length_lt
  cases hs with
  | @blank c r hrest hc =>
    have hr : r = y ++ r1 := hy
    obtain rfl := hcut (u := [c]) hrest hr
    subst hr
    exact ⟨_, .blank h.rest' hc, h.skip (hR.right 1 h.pos) true⟩
  | @comment u r hrest hu =>
    have hr : r = y ++ r1 := hy
    obtain rfl := hcut (u := '/' :: '*' :: u) hrest hr
    subst hr
    refine ⟨_, .comment (by simp [h.rest']) hu, h.skip (hR.after (hR.right 2 h.pos) u) true⟩
  | @remark u r hrest hu hend =>
    have hr : r = y ++ r1 := hy
    obtain rfl := hcut (u := '-' :: '-' :: u) hrest hr
    subst hr
    refine ⟨_, .remark (by simp [h.rest']) hu ?_, h.skip (hR.right _ h.pos) false⟩
    cases y with
    | nil => exact hx.line hend
    | cons c y => exact hend
  | @token k w r hrest hw =>
    have hr : r = y ++ r1 := (emit_rest hrest).symm.trans hy
    obtain rfl := hcut hrest hr
    subst hr
    refine ⟨_, .token (by rw [h.rest', append_assoc]) (hw.exchange hx.stops fun _ _ hnone => ?_), h.emit hR rfl⟩
    rwa [← append_assoc, ← hx.heredoc _ suffix_rfl (by simp [hw.ne_nil]), append_assoc]
  | @announce label r hrest hl =>
    rw [← append_assoc] at hrest
    have hr : r = y ++ r1 := (emit_rest (k := .literal .heredoc []) hrest).symm.trans hy
    obtain rfl := hcut hrest hr
    subst hr
    have hl' : heredocAt? ("<<".toList ++ label ++ y ++ r1) = some label := by rwa [append_assoc, append_assoc]
    rw [hx.heredoc _ suffix_rfl (by simp), append_assoc, append_assoc] at hl'
    have hb := h.emit (k := .literal .heredoc []) hR rfl
    refine ⟨_, .announce (r := y ++ r2) (by rw [h.rest', append_assoc, append_assoc]) hl',
      hb.rest, hb.rest', hb.pos, hb.blank, hb.tokens, rfl, fun hnil => ?_, hb.front⟩
    cases hnil
  | @line e r hrest he =>
    rw [ended_rest] at hy
    obtain ⟨ts, hts, halike⟩ := h.tokens
    obtain ⟨z, rfl, rfl⟩ : ∃ z, x = '\n' :: z ∧ r = z ++ r1 := by
      cases x with
      | nil =>
        rw [ended_rest, hy, h.rest, nil_append, length_append] at hlt
        omega
      | cons c z =>
        obtain ⟨rfl, hr⟩ := cons.inj (hrest.symm.trans h.rest)
        exact ⟨z, rfl, hr⟩
    have hrest' : s'.rest = '\n' :: (z ++ r2) := h.rest'
    rcases collect_cases he with ⟨rfl, hnone⟩ | ⟨label, pos, t, us, raws, r', hh, ht, hraws, rfl⟩
    · have hnone : s.heredoc = none := hnone.elim id h.announced
      have hnone' : s'.heredoc = none := by simpa [hnone] using h.heredoc
      obtain rfl : z = y := append_cancel_right hy
      have hb : Beside R before z r1 r2 { s with rest := z ++ r1, pos := s.pos.down 1 }
          { s' with rest := z ++ r2, pos := s'.pos.down 1 } :=
        ⟨rfl, rfl, hR.down 1 h.pos, h.blank, h.tokens, h.heredoc, h.announced, h.front⟩
      refine ⟨_, .line hrest' ?_, hb.ended h.pos (hx.pipe z suffix_rfl) hnone⟩
      simp [collect, hnone']
    · have hy : r' = y ++ r1 := hy
      subst hy
      obtain ⟨pos', hh'⟩ : ∃ pos', s'.heredoc = some (label, pos') := by
        obtain ⟨p, hp, hlabel⟩ := Option.map_eq_some_iff.1 (h.heredoc.trans (by rw [hh]; rfl))
        exact ⟨p.2, by rw [hp, ← show p.1 = label from hlabel]⟩
      rw [ht] at halike
      obtain ⟨t', us', htoken, hrest, rfl⟩ := forall₂_cons_left_iff.1 halike
      obtain ⟨hraws', hpipe⟩ : Collects label (z ++ r2) raws (y ++ r2) ∧ pipeNext (y ++ r1) = pipeNext (y ++ r2) := by
        by_cases hnil : r1 = []
        · obtain rfl := hx.ended (by simp) hnil
          subst hnil
          exact ⟨hraws, rfl⟩
        · obtain ⟨u, hu, -, hcollects⟩ := hraws.split (by simp [hnil])
          obtain rfl : z = u ++ '\n' :: y := by simpa using append_cancel_right (hu.trans (by simp))
          refine ⟨by simpa using hcollects (y ++ r2), hx.pipe y ?_⟩
          exact (suffix_append _ _).trans (suffix_cons _ _)
      have hb : Beside R before y r1 r2 (complete { s with rest := z ++ r1, pos := s.pos.down 1 } label t us raws (y ++ r1))
          (complete { s' with rest := z ++ r2, pos := s'.pos.down 1 } label t' (us' ++ before) raws (y ++ r2)) := by
        refine ⟨rfl, rfl, hR.down _ (hR.down 1 h.pos), h.blank, ⟨_, rfl, Forall₂.cons ?_ hrest⟩, rfl, fun _ => rfl, h.front⟩
        exact ⟨rfl, by simp only [htoken.raw], htoken.blank, htoken.pos⟩
      exact ⟨_, .line hrest' (collect_of_collects hh' hts hraws'), hb.ended h.pos hpipe rfl⟩

theorem Beside.reaches (hR : Carried R) (hx : Exchanges x r1 r2) (hs : Reaches s t)
    (ht : t.rest = r1) : ∃ t', Reaches s' t' ∧ Beside R before [] r1 r2 t t' := by
  induction hs using Relation.ReflTransGen.head_induction_on generalizing x s' with
  | refl =>
    obtain rfl : x = [] := by simpa using h.rest.symm.trans ht
    exact ⟨s', .refl, h⟩
  | @head s s1 hreads hreach ih =>
    obtain ⟨y, hy⟩ : r1 <:+ s1.rest := ht ▸ Reaches.suffix hreach
    obtain ⟨u, -, hu⟩ := hreads.rest
    obtain rfl : x = u ++ y := by
      rw [h.rest, ← hy, ← append_assoc] at hu
      exact append_cancel_right hu
    obtain ⟨s1', hreads', hb⟩ := h.reads hR hx hreads hy.symm
    obtain ⟨t', hreach', ht'⟩ := ih hb (hx.of_suffix (suffix_append u y))
    exact ⟨t', .head hreads' hreach', ht'⟩

end

end State

end Rexx.Lexer

/-! ## A comment counts as a blank -/

namespace Rexx

namespace Lexer

variable {a b c x y u : Text}

def IsComment (c : Text) : Prop := ∃ u p, c = '/' :: '*' :: u ∧ afterComment 1 .start u = some (p, [])

/-- A comment between `a` and `b` hides nothing from the looks ahead of the reader: neither the end of a line that announces
a literal of lines, nor a pipe at the beginning of a line. -/
structure HidesNothing (a b : Text) : Prop where
  heredoc : ∀ z label blanks, a = z ++ ("<<" ++ (label ++ blanks)) → isLabel label = true →
    (∀ d ∈ blanks, d = ' ' ∨ d = '\t' ∨ d = '\r') → trails b = false
  pipe : ∀ z blanks, a = z ++ '\n' :: blanks → (∀ d ∈ blanks, d = ' ' ∨ d = '\t') → pipeNext b = false

theorem IsComment.closes (h : IsComment c) : ∃ u, c = '/' :: '*' :: u ∧ ClosesComment u := by
  obtain ⟨u, p, rfl, hu⟩ := h
  obtain ⟨v, hv, -, hcloses⟩ := afterComment_split hu
  obtain rfl : u = v := by simpa using hv
  exact ⟨u, rfl, hcloses⟩

theorem looksPast_comment {blank : Char → Bool} {test : Char → Option Char → Bool} {atEnd : Bool}
    (hslash : blank '/' = false) (hspace : blank ' ' = true) (hfails : ∀ d, test '/' d = false)
    (htest : ∀ d, test d (some '/') = test d (some ' '))
    (h : (∀ d ∈ x, blank d = true) → looksPast blank test atEnd b = false) :
    looksPast blank test atEnd (x ++ '/' :: y) = looksPast blank test atEnd (x ++ ' ' :: b) := by
  induction x with
  | nil =>
    rw [List.nil_append, List.nil_append, looksPast, looksPast, hslash, hspace, hfails]
    exact (h (by simp)).symm
  | cons d x ih =>
    rw [List.cons_append, List.cons_append, looksPast, looksPast]
    split_ifs with hd
    · exact ih fun hx => h (List.forall_mem_cons.2 ⟨hd, hx⟩)
    · cases x with
      | nil => exact htest d
      | cons e x => rfl

theorem HidesNothing.exchanges (h : HidesNothing a b) : Exchanges a ('/' :: y) (' ' :: b) where
  stops := by simp [Stops, isStop]
  line := fun hend => absurd (hend '/' rfl) (by decide)
  heredoc := by
    rintro z ⟨v, rfl⟩ hz
    refine heredocAt?_exchange hz (by simp; decide) (by simp; decide) fun label w hw hlabel => ?_
    refine looksPast_comment (by decide) (by decide) (fun d => by simp) (fun d => by simp) fun hall => ?_
    refine h.heredoc v label w (by rw [hw]) hlabel fun d hd => ?_
    simpa [or_assoc] using hall d hd
  pipe := by
    rintro z ⟨v, rfl⟩
    rw [pipeNext_eq, pipeNext_eq]
    refine looksPast_comment (by decide) (by decide) (fun d => by simp) (fun d => by simp) fun hall => ?_
    rw [← pipeNext_eq]
    exact h.pipe v z rfl fun d hd => by simpa using hall d hd
  ended := fun _ h => absurd h (by simp)

namespace State

variable {s t e : State}

theorem Reaches.of_reaches (h : Reaches s e) (he : e.rest = []) (ht : Reaches s t) : Reaches t e := by
  obtain ⟨m, -, hrun⟩ := h.run (Nat.le_refl s.rest.length)
  obtain ⟨n, -, hrun'⟩ := ht.run (Nat.le_refl s.rest.length)
  rw [run_of_rest_nil he, hrun'] at hrun
  exact (reaches_of_run hrun).1

end State
end Lexer

open Lexer

/-- Tokens with the same kind, text and blank, on the same line. -/
def Token.SameLine : Token → Token → Prop := Alike fun p p' => p'.line = p.line

/-- **A comment counts as a blank.** -/
theorem Token.lex_comment {a c b : Text} {ts : List Token} {s : Lexer.State} {n : Nat}
    (hlex : Token.lex (a ++ c ++ b) = .ok ts) (hc : IsComment c) (hline : '\n' ∉ c)
    (hbetween : (State.init (a ++ c ++ b)).run n = .ok s) (hs : s.rest = c ++ b) (hab : HidesNothing a b) :
    ∃ ts', Token.lex (a ++ ' ' :: b) = .ok ts' ∧ List.Forall₂ Token.SameLine ts ts' := by
  obtain ⟨u, rfl, hu⟩ := hc.closes
  obtain ⟨e, hreach, hnil, hnone, rfl⟩ := Token.lex_eq_ok_iff.1 hlex
  have hR : Carried fun p p' => p'.line = p.line := ⟨fun _ h => h, fun n h => congrArg (· + n) h⟩
  -- up to the comment
  have hb : State.Beside (fun p p' => p'.line = p.line) [] a ('/' :: '*' :: u ++ b) (' ' :: b)
      (.init (a ++ '/' :: '*' :: u ++ b)) (.init (a ++ ' ' :: b)) :=
    ⟨List.append_assoc .., rfl, rfl, rfl, ⟨[], rfl, .nil⟩, rfl, fun _ => rfl, rfl⟩
  have hfirst := (State.reaches_of_run hbetween).1
  obtain ⟨s', hfirst', hs'⟩ := hb.reaches hR hab.exchanges hfirst hs
  -- over the comment, and over the blank
  have hcomment : s.Reads (s.skip b ((s.pos.right 2).after u) true) := .comment hs hu
  have hblank : s'.Reads (s'.skip b (s'.pos.right 1) true) := .blank hs'.rest' (.inl rfl)
  have hpos : ((s.pos.right 2).after u).line = s.pos.line := by
    rw [after_of_not_mem fun hmem => hline (by simp [hmem])]
    rfl
  have hafter : State.Beside (fun p p' => p'.line = p.line) [] b [] [] (s.skip b ((s.pos.right 2).after u) true)
      (s'.skip b (s'.pos.right 1) true) :=
    ⟨by simp [State.skip], by simp [State.skip], hs'.pos.trans hpos.symm, by simp [State.skip], hs'.tokens, hs'.heredoc,
      hs'.announced, hs'.front⟩
  -- to the end
  have hlast := hreach.of_reaches hnil (hfirst.tail hcomment)
  obtain ⟨e', hlast', he'⟩ := hafter.reaches hR ⟨by simp [Stops], id, fun _ _ _ => rfl, fun _ _ => rfl, fun _ => id⟩ hlast hnil
  obtain ⟨us, hus, halike⟩ := he'.tokens
  rw [List.append_nil] at hus
  refine ⟨_, Token.lex_eq_ok_iff.2 ⟨e', (hfirst'.tail hblank).trans hlast', he'.rest', by simpa [hnone] using he'.heredoc, rfl⟩, ?_⟩
  rw [hus]
  refine List.rel_append (List.forall₂_reverse_iff.2 halike) ?_
  exact .cons ⟨rfl, rfl, he'.blank, he'.pos⟩ (.cons ⟨rfl, rfl, rfl, he'.pos⟩ .nil)

theorem Token.lex_comment_nested :
    IsComment "/* /* */ */" ∧ HidesNothing "x = y" "z" ∧ ∃ ts ts', Token.lex "x = y/* /* */ */z" = .ok ts ∧
      Token.lex "x = y z" = .ok ts' ∧ List.Forall₂ Token.SameLine ts ts' := by
  have hc : IsComment "/* /* */ */" := ⟨" /* */ */", _, rfl, rfl⟩
  have hab : HidesNothing "x = y" "z" := ⟨fun _ _ _ _ _ _ => rfl, fun _ _ _ _ => rfl⟩
  obtain ⟨ts', hlex, hsame⟩ := @Token.lex_comment "x = y" "/* /* */ */" "z" _ _ 5 rfl hc (by decide) rfl rfl hab
  exact ⟨hc, hab, _, ts', rfl, hlex, hsame⟩

/-- **A comment hides the end of the line from a literal of lines, and a pipe from the line before.** -/
theorem Token.comment_hides :
    (∃ n s ts ts', (State.init "x = <<L /* c */\nL\n").run n = .ok s ∧ s.rest = "/* c */\nL\n" ∧
      Token.lex "x = <<L /* c */\nL\n" = .ok ts ∧ Token.lex "x = <<L  \nL\n" = .ok ts' ∧
      ¬List.Forall₂ Token.SameLine ts ts') ∧
    ∃ n s ts ts', (State.init "x\n/* c */|> f").run n = .ok s ∧ s.rest = "/* c */|> f" ∧
      Token.lex "x\n/* c */|> f" = .ok ts ∧ Token.lex "x\n |> f" = .ok ts' ∧ ¬List.Forall₂ Token.SameLine ts ts' := by
  refine ⟨⟨7, _, _, _, rfl, rfl, rfl, rfl, fun h => ?_⟩, ⟨2, _, _, _, rfl, rfl, rfl, rfl, fun h => ?_⟩⟩
  · exact absurd h.length_eq (by decide)
  · exact absurd h.length_eq (by decide)

end Rexx
