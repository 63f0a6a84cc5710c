import Rexx.Proofs.Grammar.Layout

/-!
# `Grammar.Blocks` — blocks are read as they were laid out

Statements that a `Printer` lays out one clause a line are read back, whatever their nesting (`Program.parse_source`).
-/

namespace Rexx

open List Option Printer Stmt Text Token

def Text.isUnmarked (line : Text) : Bool :=
  match line.clauseTokens? with
  | none => false
  | some words => (words.head?.all fun t => !t.isKeyword .«end» && !t.isKeyword .endIf) &&
      words.getLast?.all fun t => !t.isKeyword .«then»

/-- The parts of a statement are read back by themselves, and what stands inside an IF does not mislead the search for its
ENDIF. -/
inductive Printer.Printable (P : Printer) : Bool → Stmt → Prop where
  | clause {inIf : Bool} {pos : Position} {c : Clause} (hlabel : ∀ name, c ≠ .label name)
      (hline : (P.clause c).clauseTokens?.isSome)
      (hreads : Text.Spells (P.source [.clause pos c]) [.clause pos c])
      (hplain : inIf = true → (P.clause c).isUnmarked = true) : Printable P inIf (.clause pos c)
  | ifThen {inIf : Bool} {pos : Position} {x : Expr} {thens elses : List Stmt}
      (hline : (P.ifLine x).clauseTokens?.isSome)
      (hreads : Text.Spells (P.source [.ifThen pos x [] []]) [.ifThen pos x [] []])
      (hthens : ∀ s ∈ thens, Printable P true s) (helses : ∀ s ∈ elses, Printable P true s) :
      Printable P inIf (.ifThen pos x thens elses)
  | group {inIf : Bool} {pos : Position} {body : List Stmt} (hbody : ∀ s ∈ body, Printable P inIf s) :
      Printable P inIf (.group pos body)
  | loop {inIf : Bool} {pos : Position} {control : Control} {guard : Option Guard} {body : List Stmt}
      (hline : (P.loopLine control guard).clauseTokens?.isSome)
      (hreads : Text.Spells (P.source [.loop pos control guard []]) [.loop pos control guard []])
      (hplain : inIf = true → (P.loopLine control guard).isUnmarked = true) (hbody : ∀ s ∈ body, Printable P inIf s) :
      Printable P inIf (.loop pos control guard body)
  | select {pos : Position} {whens : List (Expr × List Stmt)} {other : Option (List Stmt)} (hne : whens ≠ [])
      (hlines : ∀ w ∈ whens, (P.whenLine w.1).clauseTokens?.isSome)
      (hreads : ∀ w ∈ whens, Text.Spells (P.source [.select pos [(w.1, [])] none]) [.select pos [(w.1, [])] none])
      (hwhens : ∀ w ∈ whens, ∀ s ∈ w.2, Printable P false s) (hother : ∀ body ∈ other, ∀ s ∈ body, Printable P false s) :
      Printable P false (.select pos whens other)

namespace Grammar

variable {rest ts us : List Token} {t eoc : Token} {P : Printer}
  {w es : List Token} {k : Keyword} {n : Nat} {ss body : List Stmt} {pos : Position} {sc : Scope} {x : Expr}
  {whens : List (Expr × List Stmt)}

/-! ## The search for ENDIF -/

def endsInThen (ws : List Token) : Bool := ws.getLast?.any (·.isKeyword .«then»)

theorem endsInThen_same {ws ws' : List Token} (h : Same ws ws') : endsInThen ws = endsInThen ws' := by
  have hlast : ws.getLast?.map lexeme = ws'.getLast?.map lexeme := by
    rw [← getLast?_map, ← getLast?_map, h.lexemes]
  unfold endsInThen
  cases hg : ws.getLast? with
  | none =>
    rw [hg] at hlast
    rw [map_eq_none_iff.1 hlast.symm]
  | some u =>
    rw [hg] at hlast
    obtain ⟨u', hu', hlexeme⟩ := map_eq_some_iff.1 hlast.symm
    rw [hu']
    exact isKeyword_eq (kind_eq_of_lexeme hlexeme.symm) _

def opensIf (t : Token) (ts : List Token) (chained : Bool) : Bool :=
  t.isKeyword .«then» && (ts.headD nowhere).kind == .endOfClause && !chained

theorem closedByEndIf_inside (o d : Nat) (chained : Bool) (ht : t.IsWord) (ts : List Token) :
    ∃ d', d ≤ d' ∧ closedByEndIf o d false chained (t :: ts) =
      closedByEndIf (if opensIf t ts chained then o + 1 else o) d' false chained ts := by
  rw [closedByEndIf]
  cases hk : t.kind with
  | endOfSource => exact absurd hk ht.2
  | endOfClause => exact absurd hk ht.1
  | keyword k =>
    cases k with
    | «do» => exact ⟨d + 1, by omega, rfl⟩
    | select => exact ⟨d + 1, by omega, rfl⟩
    | «else» => exact ⟨d, le_rfl, by simp [opensIf]⟩
    | _ => exact ⟨d, le_rfl, rfl⟩
  | _ => exact ⟨d, le_rfl, rfl⟩

theorem closedByEndIf_first (o d : Nat) (ht : t.IsWord) (hend : t.kind ≠ .keyword .«end») (hendIf : t.kind ≠ .keyword .endIf)
    (ts : List Token) :
    ∃ d' chained, d ≤ d' ∧ (t.kind = .keyword .«do» → d < d') ∧ (t.kind = .keyword .«if» → chained = false) ∧
      closedByEndIf o d true false (t :: ts) =
        closedByEndIf (if opensIf t ts chained then o + 1 else o) d' false chained ts := by
  rw [closedByEndIf]
  cases hk : t.kind with
  | endOfSource => exact absurd hk ht.2
  | endOfClause => exact absurd hk ht.1
  | keyword k =>
    cases k with
    | «do» => exact ⟨d + 1, false, by omega, fun _ => by omega, nofun, rfl⟩
    | select => exact ⟨d + 1, false, by omega, fun _ => by omega, nofun, rfl⟩
    | «else» => exact ⟨d, (ts.headD nowhere).isKeyword .«if», le_rfl, nofun, nofun, by simp [opensIf]⟩
    | «end» => exact absurd hk hend
    | endIf => exact absurd hk hendIf
    | _ => exact ⟨d, false, le_rfl, nofun, fun _ => rfl, rfl⟩
  | _ => exact ⟨d, false, le_rfl, nofun, nofun, rfl⟩

theorem closedByEndIf_words (o d : Nat) (chained : Bool) {ws : List Token} (hws : ∀ t ∈ ws, t.IsWord)
    (heoc : eoc.kind = .endOfClause) (r : List Token) :
    ∃ d', d ≤ d' ∧ closedByEndIf o d false chained (ws ++ eoc :: r) =
      closedByEndIf (if endsInThen ws && !chained then o + 1 else o) d' true false r := by
  induction ws generalizing o d with
  | nil =>
    refine ⟨d, le_rfl, ?_⟩
    rw [nil_append, closedByEndIf, heoc]
    rfl
  | cons t ws ih =>
    obtain ⟨d1, hd1, hstep⟩ := closedByEndIf_inside o d chained (hws t (by simp)) (ws ++ eoc :: r)
    obtain ⟨d2, hd2, hwords⟩ := ih (if opensIf t (ws ++ eoc :: r) chained then o + 1 else o) d1
      fun u hu => hws u (by simp [hu])
    refine ⟨d2, by omega, ?_⟩
    rw [cons_append, hstep, hwords]
    congr 1
    cases ws with
    | nil => simp [endsInThen, opensIf, heoc]
    | cons u ws =>
      have hu : (u.kind == .endOfClause) = false := by simpa using (hws u (by simp)).1
      simp [endsInThen, opensIf, hu]

theorem closedByEndIf_line (o d : Nat) (hw : ∀ u ∈ t :: w, u.IsWord) (hend : t.kind ≠ .keyword .«end»)
    (hendIf : t.kind ≠ .keyword .endIf) (heoc : eoc.kind = .endOfClause) (r : List Token) :
    ∃ d' chained, d ≤ d' ∧ (t.kind = .keyword .«do» → d < d') ∧ (t.kind = .keyword .«if» → chained = false) ∧
      closedByEndIf o d true false (t :: w ++ eoc :: r) =
        closedByEndIf (if endsInThen (t :: w) && !chained then o + 1 else o) d' true false r := by
  obtain ⟨d1, chained, hd1, hdo, hif, hfirst⟩ :=
    closedByEndIf_first o d (hw t (by simp)) hend hendIf (w ++ eoc :: r)
  have hw' : ∀ u ∈ w, u.IsWord := fun u hu => hw u (by simp [hu])
  obtain ⟨d2, hd2, hwords⟩ := closedByEndIf_words (if opensIf t (w ++ eoc :: r) chained then o + 1 else o) d1 chained hw'
    heoc r
  refine ⟨d2, chained, by omega, fun h => lt_of_lt_of_le (hdo h) hd2, hif, ?_⟩
  rw [cons_append, hfirst, hwords]
  congr 1
  cases w with
  | nil => simp [endsInThen, opensIf, heoc]
  | cons u w =>
    have hu : (u.kind == .endOfClause) = false := by simpa using (hw u (by simp)).1
    simp [endsInThen, opensIf, hu]

theorem closedByEndIf_end {o d : Nat} (ht : t.kind = .keyword .«end») (heoc : eoc.kind = .endOfClause) (hd : d ≠ 0) :
    closedByEndIf o d true false (t :: eoc :: rest) = closedByEndIf o (d - 1) true false rest := by
  simp [isKeyword, ht, hd, closedByEndIf, heoc]

theorem closedByEndIf_endIf {o d : Nat} (ht : t.kind = .keyword .endIf) (heoc : eoc.kind = .endOfClause) (ho : ¬ o ≤ 1) :
    closedByEndIf o d true false (t :: eoc :: rest) = closedByEndIf (o - 1) d true false rest := by
  simp [isKeyword, ht, ho, closedByEndIf, heoc]

def Passes (lines : List Text) : Prop :=
  ∀ ts, Lays lines ts → ∀ o d r, 1 ≤ o → ∃ d', d ≤ d' ∧
    closedByEndIf o d true false (ts ++ r) = closedByEndIf o d' true false r

namespace Passes

theorem nil : Passes [] := by
  rintro ts rfl o d r -
  exact ⟨d, le_rfl, rfl⟩

theorem append {lines lines' : List Text} (h : Passes lines) (h' : Passes lines') : Passes (lines ++ lines') := by
  intro ts hts o d r ho
  obtain ⟨us, vs, rfl, hus, hvs⟩ := hts.append
  obtain ⟨d1, hd1, hfirst⟩ := h us hus o d (vs ++ r) ho
  obtain ⟨d2, hd2, hsecond⟩ := h' vs hvs o d1 r ho
  refine ⟨d2, by omega, ?_⟩
  rw [append_assoc, hfirst, hsecond]

theorem linesOf {ss : List Stmt} (h : ∀ s ∈ ss, Passes (P.lines s)) : Passes (P.linesOf ss) := by
  induction ss with
  | nil => exact nil
  | cons s ss ih => exact (h s (by simp)).append (ih fun s' hs' => h s' (by simp [hs']))

theorem unmarked_words {line : Text} {words ws : List Token} (hline : line.IsClauseLine words) (h : line.isUnmarked = true)
    (hws : Same words ws) : (∀ t ∈ ws.head?, t.kind ≠ .keyword .«end» ∧ t.kind ≠ .keyword .endIf) ∧ endsInThen ws = false := by
  unfold isUnmarked at h
  cases hwords : line.clauseTokens? with
  | none =>
    rw [hwords] at h
    cases h
  | some words' =>
    obtain rfl := isClauseLine_unique hline (isClauseLine_of_clauseTokens? hwords)
    rw [hwords] at h
    simp only [Bool.and_eq_true] at h
    obtain ⟨hfirst, hlast⟩ := h
    obtain ⟨t, w, rfl⟩ := exists_cons_of_ne_nil hline.ne_nil
    constructor
    · intro u hu
      obtain ⟨t', w', rfl, ht, -⟩ := hws.of_cons
      cases hu
      simp only [head?_cons, all_some, Bool.and_eq_true, Bool.not_eq_true', isKeyword, beq_eq_false_iff_ne]
        at hfirst
      rw [← kind_eq_of_lexeme ht]
      exact hfirst
    · rw [← endsInThen_same hws, endsInThen]
      cases hg : (t :: w).getLast? with
      | none => rfl
      | some u => simpa [hg] using hlast

theorem line {line : Text} (h : line.isUnmarked = true) : Passes [line] := by
  intro ts hts o d r ho
  obtain ⟨words, t, w, eoc, _, rfl, hline, hws, heoc, rfl⟩ := hts.cons
  obtain ⟨hfirst, hlast⟩ := unmarked_words hline h hws
  obtain ⟨hend, hendIf⟩ := hfirst t rfl
  obtain ⟨d', chained, hd', -, -, hclosed⟩ := closedByEndIf_line o d hws.symm.isWord hend hendIf heoc r
  refine ⟨d', hd', ?_⟩
  have happend : t :: w ++ [eoc] ++ r = t :: w ++ eoc :: r := by simp
  rw [happend, hclosed, hlast]
  rfl

theorem doBlock {line : Text} {lines : List Text} {head : Option (Control × Option Guard)} (h : line.isUnmarked = true)
    (hdo : OpensDo line head) (hlines : Passes lines) : Passes (line :: (lines ++ [Keyword.«end».spelling])) := by
  intro ts hts o d r ho
  obtain ⟨words, t, w, eoc, rest, rfl, hline, hws, heoc, hrest⟩ := hts.cons
  obtain ⟨us, vs, rfl, hus, hvs⟩ := hrest.append
  obtain ⟨k, eoc', _, rfl, hk, heoc', rfl⟩ := hvs.spelling
  obtain ⟨hfirst, hlast⟩ := unmarked_words hline h hws
  obtain ⟨_, _, hcons, ht, -⟩ := hdo words hline _ hws
  cases hcons
  obtain ⟨hend, hendIf⟩ := hfirst t rfl
  obtain ⟨d1, chained, -, hd1, -, hclosed⟩ := closedByEndIf_line o d hws.symm.isWord hend hendIf heoc (us ++ k :: eoc' :: r)
  obtain ⟨d2, hd2, hbody⟩ := hlines us hus o d1 (k :: eoc' :: r) ho
  have hdeep := hd1 ht
  refine ⟨d2 - 1, by omega, ?_⟩
  have happend : t :: w ++ eoc :: (us ++ [k, eoc']) ++ r = t :: w ++ eoc :: (us ++ k :: eoc' :: r) := by simp
  rw [happend, hclosed, hlast, Bool.false_and, if_neg Bool.false_ne_true, hbody, closedByEndIf_end hk heoc' (by omega)]

theorem ifThen {line : Text} {thens elses : List Text} (hif : ∀ words, line.IsClauseLine words → ∀ ws, Same words ws →
      ∃ t w, ws = t :: w ∧ t.kind = .keyword .«if» ∧ endsInThen w = true)
    (hthens : Passes thens) (helses : Passes elses) : Passes (line :: (thens ++ (elses ++ [Keyword.endIf.spelling]))) := by
  intro ts hts o d r ho
  obtain ⟨words, t, w, eoc, rest, rfl, hline, hws, heoc, hrest⟩ := hts.cons
  rw [← append_assoc] at hrest
  obtain ⟨us, vs, rfl, hus, hvs⟩ := hrest.append
  obtain ⟨k, eoc', _, rfl, hk, heoc', rfl⟩ := hvs.spelling
  obtain ⟨_, _, hcons, ht, hthen⟩ := hif words hline _ hws
  cases hcons
  have hends : endsInThen (t :: w) = true := by
    cases w with
    | nil => cases hthen
    | cons u w => simpa [endsInThen] using hthen
  obtain ⟨d1, chained, hd1, -, hchained, hclosed⟩ := closedByEndIf_line o d hws.symm.isWord (by simp [ht]) (by simp [ht]) heoc
    (us ++ k :: eoc' :: r)
  obtain ⟨d2, hd2, hbody⟩ := (hthens.append helses) us hus (o + 1) d1 (k :: eoc' :: r) (by omega)
  refine ⟨d2, by omega, ?_⟩
  have happend : t :: w ++ eoc :: (us ++ [k, eoc']) ++ r = t :: w ++ eoc :: (us ++ k :: eoc' :: r) := by simp
  rw [happend, hclosed, hends, hchained ht, if_pos (show (true && !false) = true from rfl), hbody,
    closedByEndIf_endIf hk heoc' (by omega), Nat.add_sub_cancel]

end Passes

/-! ## Statements and lists of statements -/

def ReadsLines (P : Printer) (s : Stmt) : Prop :=
  ∀ sc, Scope.top.Alike sc → ∀ ts, Lays (P.lines s) ts → ∀ rest, rest ≠ [] → ∀ n, 3 * ts.length ≤ n →
    ∃ s' eoc, s'.unplaced = s.unplaced ∧ eoc.kind = .endOfClause ∧ statement sc n (ts ++ rest) = .ok (s', eoc :: rest)

theorem lines_ne_nil (P : Printer) (s : Stmt) : ∃ line lines, P.lines s = line :: lines := by
  cases s with
  | clause pos c => exact ⟨_, _, rfl⟩
  | ifThen pos x thens elses => cases elses <;> exact ⟨_, _, rfl⟩
  | group pos body => exact ⟨_, _, rfl⟩
  | loop pos control guard body => exact ⟨_, _, rfl⟩
  | select pos whens other => cases other <;> exact ⟨_, _, rfl⟩

theorem lays_lines_head {s : Stmt} (h : Lays (P.lines s) ts) : ∃ u us, ts = u :: us ∧ u.IsWord := by
  obtain ⟨line, lines, hlines⟩ := lines_ne_nil P s
  rw [hlines] at h
  obtain ⟨words, u, w, eoc, rest, rfl, hline, hws, -, -⟩ := h.cons
  exact ⟨u, _, rfl, hws.symm.isWord u (by simp)⟩

theorem skipEnds_ends (hes : ∀ e ∈ es, e.kind = .endOfClause) (ht : t.kind ≠ .endOfClause)
    (ts : List Token) : skipEnds (es ++ t :: ts) = .ok (⟨⟩, t :: ts) := by
  rw [skipEnds_read, dropWhile_append_of_pos (by simpa using hes), dropWhile_cons_of_neg (by simpa using ht)]

theorem atAnyKeyword_of_not_leads {ks : List Keyword} (h : ∀ k ∈ ks, ¬ Leads k t ts) :
    atAnyKeyword ks (t :: ts) = .ok (false, t :: ts) := by
  induction ks with
  | nil => rfl
  | cons k ks ih =>
    show (atKeyword k >>= fun b => _) (t :: ts) = _
    rw [bind_of_read (atKeyword_of_not_leads (h k (by simp)))]
    exact ih fun k' hk' => h k' (by simp [hk'])

theorem atAnyKeyword_of_leads {ks : List Keyword} (hk : k ∈ ks) (h : Leads k t ts) :
    atAnyKeyword ks (t :: ts) = .ok (true, t :: ts) := by
  induction ks with
  | nil => cases hk
  | cons k' ks ih =>
    show (atKeyword k' >>= fun b => _) (t :: ts) = _
    by_cases hleads : Leads k' t ts
    · rw [bind_of_read (atKeyword_of_leads hleads)]
      rfl
    · rw [bind_of_read (atKeyword_of_not_leads hleads)]
      rcases mem_cons.1 hk with rfl | hk
      · exact absurd h hleads
      · exact ih hk

structure TakesStatements (sc : Scope) (reader : Nat → Reader (List Stmt)) (t : Token) (rest : List Token) : Prop where
  stops : ∀ {es : List Token} n, (∀ e ∈ es, e.kind = .endOfClause) →
    reader (n + 1) (es ++ t :: rest) = .ok ([], t :: rest)
  goesOn : ∀ {es us vs : List Token} {u eoc : Token} {s : Stmt} n, (∀ e ∈ es, e.kind = .endOfClause) → u.IsWord →
    statement sc (n + 1) (u :: us) = .ok (s, eoc :: vs) → eoc.kind = .endOfClause →
    reader (n + 2) (es ++ u :: us) = (reader (n + 1) >>= fun ss => pure (s :: ss)) (eoc :: vs)

theorem TakesStatements.reads {reader : Nat → Reader (List Stmt)} (hr : TakesStatements sc reader t rest)
    (hsc : Scope.top.Alike sc) (h : ∀ s ∈ ss, ReadsLines P s) (hts : Lays (P.linesOf ss) ts)
    (hes : ∀ e ∈ es, e.kind = .endOfClause) (hn : 3 * ts.length + 1 ≤ n) :
    ∃ ss', ss'.map unplaced = ss.map unplaced ∧ reader n (es ++ (ts ++ t :: rest)) = .ok (ss', t :: rest) := by
  induction ss generalizing ts es n with
  | nil =>
    obtain ⟨n, rfl⟩ : ∃ m, n = m + 1 := ⟨n - 1, by omega⟩
    cases hts
    exact ⟨[], rfl, hr.stops n hes⟩
  | cons s ss ih =>
    obtain ⟨us, vs, rfl, hus, hvs⟩ := Lays.append hts
    obtain ⟨u, us', rfl, hu⟩ := lays_lines_head hus
    simp only [length_append, length_cons] at hn
    obtain ⟨n, rfl⟩ : ∃ m, n = m + 2 := ⟨n - 2, by omega⟩
    obtain ⟨s', eoc, hs', heoc, hread⟩ := h s (by simp) sc hsc _ hus (vs ++ t :: rest) (by simp) (n + 1)
      (by simp only [length_cons]; omega)
    have heocs : ∀ e ∈ [eoc], e.kind = .endOfClause := by simpa using heoc
    obtain ⟨ss', hss', hrest⟩ := ih (fun s' hs' => h s' (by simp [hs'])) hvs heocs (n := n + 1) (by omega)
    refine ⟨s' :: ss', by rw [map_cons, map_cons, hs', hss'], ?_⟩
    rw [cons_append] at hread
    rw [append_assoc, cons_append, hr.goesOn n hes hu hread heoc]
    exact bind_of_read hrest

theorem blockBody_takes {ends : List Keyword} (hends : ends ⊆ closers) (hk : k ∈ ends) (hleads : Leads k t rest) :
    TakesStatements .block (blockBody ends) t rest where
  stops n hes := by
    rw [blockBody, bind_of_read (skipEnds_ends hes (by simp [hleads.kind]) rest), bind_of_read (current_read _),
      bind_of_read (atAnyKeyword_of_leads hk hleads), Bool.or_true, if_pos rfl]
    rfl
  goesOn {_ us _ u _ _} n hes hu hread heoc := by
    have hnone : ∀ k ∈ ends, ¬ Leads k u us := fun k hk => statement_not_leads (hends hk) hread
    have hsource : (u.kind == .endOfSource) = false := by simpa using hu.2
    rw [blockBody, bind_of_read (skipEnds_ends hes hu.1 _), bind_of_read (current_read _),
      bind_of_read (atAnyKeyword_of_not_leads hnone), headD_cons, hsource, Bool.or_false, if_neg Bool.false_ne_true,
      bind_of_read hread, bind_of_read (current_read _), headD_cons, endsClause_endOfClause _ heoc]
    rfl

theorem blockBody_after (h : ∀ s ∈ ss, ReadsLines P s) (hts : Lays (P.linesOf ss) ts)
    (heoc : eoc.kind = .endOfClause) {ends : List Keyword} (hends : ends ⊆ closers) (hk : k ∈ ends)
    (hleads : Leads k t rest) (hn : 3 * ts.length + 1 ≤ n) :
    ∃ ss', ss'.map unplaced = ss.map unplaced ∧
      blockBody ends n (eoc :: (ts ++ t :: rest)) = .ok (ss', t :: rest) :=
  (blockBody_takes hends hk hleads).reads ⟨rfl, rfl⟩ h hts (show ∀ e ∈ [eoc], e.kind = .endOfClause by simpa using heoc) hn

theorem programBody_reads (h : ∀ s ∈ ss, ReadsLines P s) (hts : Lays (P.linesOf ss) ts)
    (ht : t.kind = .endOfSource) (hes : ∀ e ∈ es, e.kind = .endOfClause)
    (hn : 3 * ts.length + 1 ≤ n) :
    ∃ ss', ss'.map unplaced = ss.map unplaced ∧ programBody n (es ++ (ts ++ [t])) = .ok (ss', [t]) := by
  have htop : Scope.top.Alike .top := ⟨rfl, rfl⟩
  refine TakesStatements.reads ⟨fun n hes => ?_, fun {_ _ _ u _ _} n hes hu hread heoc => ?_⟩ htop h hts hes hn
  · rw [programBody, bind_of_read (skipEnds_ends hes (by simp [ht]) []), bind_of_read (current_read _), headD_cons, ht]
    rfl
  · have hsource : (u.kind == .endOfSource) = false := by simpa using hu.2
    rw [programBody, bind_of_read (skipEnds_ends hes hu.1 _), bind_of_read (current_read _), headD_cons, hsource,
      if_neg Bool.false_ne_true, bind_of_read hread, bind_of_read (current_read _), headD_cons,
      endsClause_endOfClause _ heoc, Bool.not_true, Bool.and_false]
    rfl

/-! ## The kinds of statements -/

theorem leads_of_end (ht : t.kind = .keyword k) (heoc : eoc.kind = .endOfClause) : Leads k t (eoc :: rest) :=
  ⟨ht, isMark_endOfClause heoc _, isMark_endOfClause heoc _⟩

theorem readsLines_clause {c : Clause} (hlabel : ∀ name, c ≠ .label name)
    (hreads : Spells (P.source [.clause pos c]) [.clause pos c]) : ReadsLines P (.clause pos c) := by
  intro sc hsc ts hts rest hrest n hn
  obtain ⟨words, t, w, eoc, _, rfl, hline, hws, heoc, rfl⟩ := hts.cons
  have hsource : P.source [.clause pos c] = P.clause c := by
    simp [source, linesOf, Printer.lines]
  rw [hsource] at hreads
  obtain ⟨n, rfl⟩ : ∃ m, n = m + 1 := ⟨n - 1, by simp at hn; omega⟩
  have hends : Ends 2 (eoc :: rest) := by
    refine ⟨⟨eoc, rest, rfl, heoc⟩, ?_⟩
    have := length_pos_iff.2 hrest
    rw [length_cons]
    omega
  obtain ⟨pos', hread⟩ := spellsClause_of_reads hline hlabel hreads sc hsc _ _ hws hends n
  refine ⟨.clause pos' c, eoc, rfl, heoc, ?_⟩
  rw [append_assoc]
  exact hread

theorem statement_if (h : Leads .«if» t ts) : statement sc (n + 1) (t :: ts) = ifStatement sc t.pos n ts := by
  rw [statement_plain sc n (.inr ⟨h.notEqual, h.notColon⟩), plainStatement, bind_of_read (noInterpretLength_read _)]
  simp only [noInterpretCount, getD_cons_zero, h.kind]
  rfl

theorem statement_do (h : Leads .«do» t ts) : statement sc (n + 1) (t :: ts) = doStatement sc t.pos n ts := by
  rw [statement_plain sc n (.inr ⟨h.notEqual, h.notColon⟩), plainStatement, bind_of_read (noInterpretLength_read _)]
  simp only [noInterpretCount, getD_cons_zero, h.kind]
  rfl

theorem statement_select (h : Leads .select t ts) {parts : List (Expr × List Stmt) × Option (List Stmt)}
    (hne : parts.1 ≠ []) (hparts : selectParts sc n ts = .ok (parts, us)) :
    statement sc (n + 1) (t :: ts) = .ok (.select t.pos parts.1 parts.2, us) := by
  rw [statement_plain sc n (.inr ⟨h.notEqual, h.notColon⟩), plainStatement, bind_of_read (noInterpretLength_read _)]
  simp only [noInterpretCount, getD_cons_zero, h.kind]
  rw [bind_of_read (skip_read 1 _), drop_one, tail_cons, bind_of_read hparts]
  obtain ⟨whens, other⟩ := parts
  cases whens with
  | nil => exact absurd rfl hne
  | cons w ws => rfl

theorem condition_reads {α : Type} (hsc : Scope.top.Alike sc) (h : SpellsCond w x)
    (hw : ∀ u ∈ w, u.IsWord) (f : Expr → Reader α) (hends : Ends 4 rest) :
    (expression (sc.stopping ["THEN"]) >>= fun x => skipEnds >>= fun _ => expectKeyword .«then» >>= fun _ => f x)
      (w ++ rest) = f x rest := by
  obtain ⟨u, hu, hread⟩ := h sc hsc w rest ⟨rfl, hw⟩ hends
  obtain ⟨e, tail, rfl, he⟩ := hends.head
  rw [bind_of_read hread, bind_of_read (skipEnds_word (by simp [IsWord, hu]) _),
    bind_of_read (expectKeyword_read (leads_of_end hu he))]

theorem ends_of_length {k : Nat} (heoc : eoc.kind = .endOfClause) (h : k ≤ rest.length + 1) : Ends k (eoc :: rest) :=
  ⟨⟨eoc, rest, rfl, heoc⟩, by simpa using h⟩

def elseLines (P : Printer) : List Stmt → List Text
  | [] => []
  | s :: ss => Keyword.«else».spelling :: P.linesOf (s :: ss)

theorem lines_ifThen (pos : Position) (x : Expr) (thens elses : List Stmt) : P.lines (.ifThen pos x thens elses) =
    P.ifLine x :: (P.linesOf thens ++ (elseLines P elses ++ [Keyword.endIf.spelling])) := by
  cases elses with
  | nil => rfl
  | cons s ss => simp [Printer.lines, elseLines, linesOf]

theorem passes_else {elses : List Stmt} (h : ∀ s ∈ elses, Passes (P.lines s)) : Passes (elseLines P elses) := by
  cases elses with
  | nil => exact .nil
  | cons s ss => exact (Passes.line (show isUnmarked Keyword.«else».spelling = true by decide)).append (.linesOf h)

theorem ifAfterThen_reads (sc : Scope) (pos : Position) (x : Expr) {thens elses : List Stmt} {vs : List Token}
    (hthens : ∀ s ∈ thens, ReadsLines P s ∧ Passes (P.lines s)) (helses : ∀ s ∈ elses, ReadsLines P s ∧ Passes (P.lines s))
    (hts : Lays (P.linesOf thens) ts) (hvs : Lays (elseLines P elses) vs) (heoc : eoc.kind = .endOfClause) {k eoc' : Token}
    (hk : k.kind = .keyword .endIf) (heoc' : eoc'.kind = .endOfClause) (rest : List Token)
    (hn : 3 * (ts.length + vs.length) + 1 ≤ n) :
    ∃ thens' elses', thens'.map Stmt.unplaced = thens.map Stmt.unplaced ∧
      elses'.map Stmt.unplaced = elses.map Stmt.unplaced ∧
      ifAfterThen sc pos x n (eoc :: (ts ++ (vs ++ k :: eoc' :: rest))) = .ok (.ifThen pos x thens' elses', eoc' :: rest) := by
  have hclosed : closedByEndIf 1 0 true false (eoc :: (ts ++ (vs ++ k :: eoc' :: rest))) = true := by
    rw [closedByEndIf, heoc]
    obtain ⟨d, -, hsearch⟩ := Passes.linesOf (fun s hs => (hthens s hs).2) ts hts 1 0 (vs ++ k :: eoc' :: rest) le_rfl
    obtain ⟨d', -, hsearch'⟩ := passes_else (fun s hs => (helses s hs).2) vs hvs 1 d (k :: eoc' :: rest) le_rfl
    exact (hsearch.trans hsearch').trans (by rw [closedByEndIf, hk]; rfl)
  have hleads : Leads .endIf k (eoc' :: rest) := leads_of_end hk heoc'
  have hends : [.«else», .endIf] ⊆ closers := by simp [closers]
  rw [ifAfterThen, bind_of_read (current_read _), bind_of_read (get_read _), hclosed, List.headD_cons, heoc]
  simp only [beq_self_eq_true, Bool.and_true, if_true]
  cases elses with
  | nil =>
    cases hvs
    obtain ⟨thens', hthens', hblock⟩ := blockBody_after (fun s hs => (hthens s hs).1) hts heoc hends (by simp) hleads
      (n := n) (by omega)
    refine ⟨thens', [], hthens', rfl, ?_⟩
    rw [List.nil_append, bind_of_read hblock, bind_of_read (atKeyword_of_not_leads (hleads.unlike (by decide)))]
    simp only [Bool.false_eq_true, if_false]
    rw [bind_of_read (expectKeyword_read hleads)]
    rfl
  | cons s ss =>
    obtain ⟨e, eocₑ, us, rfl, he, heocₑ, hus⟩ := Lays.spelling hvs
    simp only [List.length_cons] at hn
    have helse : Leads .«else» e (eocₑ :: (us ++ k :: eoc' :: rest)) := leads_of_end he heocₑ
    have hif : ¬ Leads .«if» eocₑ (us ++ k :: eoc' :: rest) := fun h' => by cases heocₑ.symm.trans h'.kind
    obtain ⟨thens', hthens', hblock⟩ := blockBody_after (fun s hs => (hthens s hs).1) hts heoc hends (by simp) helse
      (n := n) (by omega)
    obtain ⟨elses', helses', hblock'⟩ := blockBody_after (fun s hs => (helses s hs).1) hus heocₑ
      (show [.endIf] ⊆ closers by simp [closers]) (by simp) hleads (n := n) (by omega)
    refine ⟨thens', elses', hthens', helses', ?_⟩
    simp only [List.cons_append]
    rw [bind_of_read hblock, bind_of_read (atKeyword_of_leads helse)]
    simp only [if_true]
    rw [bind_of_read (skip_read 1 _), List.drop_one, List.tail_cons, bind_of_read (atKeyword_of_not_leads hif)]
    simp only [Bool.false_eq_true, if_false]
    rw [bind_of_read hblock', bind_of_read (expectKeyword_read hleads)]
    rfl

theorem readsLines_ifThen {thens elses : List Stmt} (hline : (P.ifLine x).clauseTokens?.isSome)
    (hreads : Spells (P.source [.ifThen pos x [] []]) [.ifThen pos x [] []])
    (hthens : ∀ s ∈ thens, ReadsLines P s ∧ Passes (P.lines s)) (helses : ∀ s ∈ elses, ReadsLines P s ∧ Passes (P.lines s)) :
    ReadsLines P (.ifThen pos x thens elses) := by
  intro sc hsc ts hts rest hrest n hn
  have hpos := length_pos_iff.2 hrest
  rw [lines_ifThen] at hts
  obtain ⟨words, t, w, eoc, tail, rfl, hwords, hws, heoc, htail⟩ := hts.cons
  obtain ⟨_, _, hcons, ht, hleads, hcond⟩ := ifLine_words hline hreads hwords hws
  cases hcons
  obtain ⟨us, _, rfl, hus, htail⟩ := htail.append
  obtain ⟨vs, _, rfl, hvs, hend⟩ := htail.append
  obtain ⟨k, eoc', _, rfl, hk, heoc', rfl⟩ := hend.spelling
  simp only [length_append, length_cons] at hn
  obtain ⟨n, rfl⟩ : ∃ m, n = m + 2 := ⟨n - 2, by omega⟩
  obtain ⟨thens', elses', hthens', helses', hread⟩ := ifAfterThen_reads sc t.pos x hthens helses hus hvs heoc hk heoc' rest
    (n := n) (by omega)
  refine ⟨.ifThen t.pos x thens' elses', eoc', ?_, heoc', ?_⟩
  · simp only [unplaced, unplacedList_eq_map, hthens', helses']
  · have happend : t :: w ++ eoc :: (us ++ (vs ++ [k, eoc'])) ++ rest = t :: (w ++ eoc :: (us ++ (vs ++ k :: eoc' :: rest))) := by
      simp
    have hw : ∀ u ∈ w, u.IsWord := fun u hu => hws.symm.isWord u (by simp [hu])
    have hends : Ends 4 (eoc :: (us ++ (vs ++ k :: eoc' :: rest))) :=
      ends_of_length heoc (by simp only [length_append, length_cons]; omega)
    rw [happend, statement_if (hleads _), ifStatement_succ, condition_reads hsc hcond hw _ hends, hread]

theorem doAfterHead_reads (sc : Scope) (pos : Position) (head : Option (Control × Option Guard))
    (h : ∀ s ∈ body, ReadsLines P s) (hts : Lays (P.linesOf body) ts) (heoc : eoc.kind = .endOfClause) {k eoc' : Token}
    (hk : k.kind = .keyword .«end») (heoc' : eoc'.kind = .endOfClause) (rest : List Token)
    (hn : 3 * ts.length + 1 ≤ n) :
    ∃ body', body'.map unplaced = body.map unplaced ∧
      doAfterHead sc pos head n (eoc :: (ts ++ k :: eoc' :: rest)) = .ok (doBlock pos head body', eoc' :: rest) := by
  have hleads : Leads .«end» k (eoc' :: rest) := leads_of_end hk heoc'
  obtain ⟨body', hbody', hblock⟩ := blockBody_after h hts heoc (show [.«end»] ⊆ closers by simp [closers]) (by simp) hleads hn
  refine ⟨body', hbody', ?_⟩
  rw [doAfterHead, bind_of_read hblock, bind_of_read (expectKeyword_read hleads), bind_of_read (current_read _),
    headD_cons, name?_endOfClause heoc']
  cases head <;> rfl

theorem readsLines_doBlock {head : Option (Control × Option Guard)} {line : Text} {s : Stmt} (hdo : OpensDo line head)
    (hlines : P.lines s = line :: (P.linesOf body ++ [Keyword.«end».spelling])) (hbody : ∀ s ∈ body, ReadsLines P s)
    (hs : (doBlock pos head body).unplaced = s.unplaced) : ReadsLines P s := by
  intro sc hsc ts hts rest hrest n hn
  have hpos := length_pos_iff.2 hrest
  rw [hlines] at hts
  obtain ⟨words, t, w, eoc, tail, rfl, hwords, hws, heoc, htail⟩ := Lays.cons hts
  obtain ⟨_, _, hcons, -, hread⟩ := hdo words hwords _ hws
  cases hcons
  obtain ⟨us, vs, rfl, hus, hvs⟩ := htail.append
  obtain ⟨k, eoc', _, rfl, hk, heoc', rfl⟩ := hvs.spelling
  simp only [length_append, length_cons] at hn
  obtain ⟨n, rfl⟩ : ∃ m, n = m + 2 := ⟨n - 2, by omega⟩
  obtain ⟨body', hbody', hafter⟩ := doAfterHead_reads sc t.pos head hbody hus heoc hk heoc' rest (n := n) (by omega)
  refine ⟨doBlock t.pos head body', eoc', ?_, heoc', ?_⟩
  · rw [← hs]
    cases head <;> simp only [doBlock, Option.elim, Stmt.unplaced, Stmt.unplacedList_eq_map, hbody']
  · have happend : t :: w ++ eoc :: (us ++ [k, eoc']) ++ rest = t :: (w ++ eoc :: (us ++ k :: eoc' :: rest)) := by simp
    have hends : Ends 4 (eoc :: (us ++ k :: eoc' :: rest)) :=
      ends_of_length heoc (by simp only [length_append, length_cons]; omega)
    obtain ⟨hleads, hhead⟩ := hread sc hsc _ hends
    rw [happend, statement_do hleads, doStatement_succ, bind_of_read hhead, hafter]

def PartsRead (sc : Scope) (lines : List Text) (whens : List (Expr × List Stmt)) (other : Option (List Stmt)) : Prop :=
  ∀ ts, Lays lines ts → ∀ rest, rest ≠ [] → 2 ≤ ts.length ∧
    (∃ t us k, ts ++ rest = t :: us ∧ k ∈ [Keyword.when, .otherwise, .«end»] ∧ Leads k t us) ∧
    ∀ es : List Token, (∀ e ∈ es, e.kind = .endOfClause) → ∀ n, 3 * ts.length ≤ n →
      ∃ whens' other' eoc, Stmt.unplacedWhens whens' = Stmt.unplacedWhens whens ∧
        other'.map Stmt.unplacedList = other.map Stmt.unplacedList ∧ eoc.kind = .endOfClause ∧
        selectParts sc n (es ++ (ts ++ rest)) = .ok ((whens', other'), eoc :: rest)

theorem partsRead_end (sc : Scope) : PartsRead sc [Keyword.«end».spelling] [] none := by
  intro ts hts rest hrest
  obtain ⟨t, eoc, _, rfl, ht, heoc, rfl⟩ := hts.spelling
  have hleads : Leads .«end» t (eoc :: rest) := leads_of_end ht heoc
  refine ⟨by simp, ⟨t, _, _, rfl, by simp, hleads⟩, fun es hes n hn => ⟨[], none, eoc, rfl, rfl, heoc, ?_⟩⟩
  obtain ⟨n, rfl⟩ : ∃ m, n = m + 1 := ⟨n - 1, by simp at hn; omega⟩
  exact selectParts_end (skipEnds_ends hes (by simp [ht]) _) hleads

theorem partsRead_otherwise (sc : Scope) (hbody : ∀ s ∈ body, ReadsLines P s) :
    PartsRead sc (Keyword.otherwise.spelling :: (P.linesOf body ++ [Keyword.«end».spelling])) [] (some body) := by
  intro ts hts rest hrest
  obtain ⟨t, eoc, _, rfl, ht, heoc, htail⟩ := hts.spelling
  obtain ⟨us, vs, rfl, hus, hvs⟩ := htail.append
  obtain ⟨k, eoc', _, rfl, hk, heoc', rfl⟩ := hvs.spelling
  have happend : t :: eoc :: (us ++ [k, eoc']) ++ rest = t :: eoc :: (us ++ k :: eoc' :: rest) := by simp
  have hleads : Leads .otherwise t (eoc :: (us ++ k :: eoc' :: rest)) := leads_of_end ht heoc
  have hend : Leads .«end» k (eoc' :: rest) := leads_of_end hk heoc'
  refine ⟨by simp, ⟨t, _, _, happend, by simp, hleads⟩, fun es hes n hn => ?_⟩
  simp only [length_append, length_cons] at hn
  obtain ⟨n, rfl⟩ : ∃ m, n = m + 2 := ⟨n - 2, by omega⟩
  obtain ⟨body', hbody', hblock⟩ := blockBody_after hbody hus heoc (show [.«end»] ⊆ closers by simp [closers]) (by simp) hend
    (n := n + 1) (by omega)
  refine ⟨[], some body', eoc', rfl, ?_, heoc', ?_⟩
  · simp only [map_some, unplacedList_eq_map, hbody']
  · have hskip : skipEnds (k :: eoc' :: rest) = .ok (⟨⟩, k :: eoc' :: rest) := skipEnds_word (by simp [IsWord, hk]) _
    rw [happend, selectParts_otherwise (skipEnds_ends hes (by simp [ht]) _) hleads, bind_of_read hblock,
      bind_of_read (selectParts_end hskip hend)]
    rfl

theorem partsRead_when (hsc : Scope.top.Alike sc) (hline : (P.whenLine x).clauseTokens?.isSome)
    (hreads : Spells (P.source [.select pos [(x, [])] none]) [.select pos [(x, [])] none])
    (hbody : ∀ s ∈ body, ReadsLines P s) {lines : List Text} {other : Option (List Stmt)}
    (h : PartsRead sc lines whens other) :
    PartsRead sc (P.whenLine x :: (P.linesOf body ++ lines)) ((x, body) :: whens) other := by
  intro ts hts rest hrest
  have hpos := length_pos_iff.2 hrest
  obtain ⟨words, t, w, eoc, tail, rfl, hwords, hws, heoc, htail⟩ := hts.cons
  obtain ⟨_, _, hcons, ht, hleads, hcond⟩ := whenLine_words hline hreads hwords hws
  cases hcons
  obtain ⟨us, vs, rfl, hus, hvs⟩ := htail.append
  obtain ⟨hlen, ⟨k, ks, kw, hks, hkw, hkleads⟩, hparts⟩ := h vs hvs rest hrest
  have happend : t :: w ++ eoc :: (us ++ vs) ++ rest = t :: (w ++ eoc :: (us ++ k :: ks)) := by simp [← hks]
  refine ⟨by simp only [length_append, length_cons]; omega, ⟨t, _, _, happend, by simp, hleads _⟩,
    fun es hes n hn => ?_⟩
  simp only [length_append, length_cons] at hn
  obtain ⟨n, rfl⟩ : ∃ m, n = m + 1 := ⟨n - 1, by omega⟩
  have hclosers : [Keyword.when, .otherwise, .«end»] ⊆ closers := by
    intro c hc
    simp only [mem_cons, not_mem_nil, or_false] at hc
    rcases hc with rfl | rfl | rfl <;> simp [closers]
  obtain ⟨body', hbody', hblock⟩ := blockBody_after hbody hus heoc hclosers hkw hkleads (n := n) (by omega)
  obtain ⟨whens', other', eoc', hwhens', hother', heoc', hread⟩ := hparts [] (by simp) n (by omega)
  rw [nil_append, hks] at hread
  refine ⟨(x, body') :: whens', other', eoc', ?_, hother', heoc', ?_⟩
  · simp only [unplacedWhens, unplacedList_eq_map, hbody', hwhens']
  · have hw : ∀ u ∈ w, u.IsWord := fun u hu => hws.symm.isWord u (by simp [hu])
    have hends : Ends 4 (eoc :: (us ++ k :: ks)) := by
      refine ends_of_length heoc ?_
      rw [length_append, ← hks, length_append]
      omega
    rw [happend, selectParts_when (skipEnds_ends hes ht.1 _) (hleads _), condition_reads hsc hcond hw _ hends, whenAfterThen,
      bind_of_read (current_read _), headD_cons, heoc]
    simp only [beq_self_eq_true, if_true]
    rw [bind_of_read hblock, bind_of_read hread]
    rfl

theorem readsLines_select {other : Option (List Stmt)} (hne : whens ≠ [])
    (hlines : ∀ w ∈ whens, (P.whenLine w.1).clauseTokens?.isSome)
    (hreads : ∀ w ∈ whens, Spells (P.source [.select pos [(w.1, [])] none]) [.select pos [(w.1, [])] none])
    (hwhens : ∀ w ∈ whens, ∀ s ∈ w.2, ReadsLines P s) (hother : ∀ body ∈ other, ∀ s ∈ body, ReadsLines P s) :
    ReadsLines P (.select pos whens other) := by
  intro sc hsc ts hts rest hrest n hn
  have hparts : ∀ tail, PartsRead sc tail [] other → PartsRead sc (P.whenLines whens ++ tail) whens other := by
    intro tail htail
    clear hne hts
    induction whens with
    | nil => exact htail
    | cons w ws ih =>
      have hrest := ih (fun v hv => hlines v (by simp [hv])) (fun v hv => hreads v (by simp [hv]))
        (fun v hv => hwhens v (by simp [hv]))
      have hwhen := partsRead_when hsc (hlines w (by simp)) (hreads w (by simp)) (hwhens w (by simp)) hrest
      rwa [← append_assoc] at hwhen
  obtain ⟨tail, htail, hall⟩ : ∃ tail, P.lines (.select pos whens other) =
      Keyword.select.spelling :: (P.whenLines whens ++ tail) ∧ PartsRead sc tail [] other := by
    cases other with
    | none => exact ⟨_, rfl, partsRead_end sc⟩
    | some body => exact ⟨_, rfl, partsRead_otherwise sc (hother body rfl)⟩
  rw [htail] at hts
  obtain ⟨t, eoc, us, rfl, ht, heoc, hus⟩ := hts.spelling
  simp only [length_cons] at hn
  obtain ⟨n, rfl⟩ : ∃ m, n = m + 1 := ⟨n - 1, by omega⟩
  obtain ⟨-, -, hread⟩ := hparts tail hall us hus rest hrest
  have heocs : ∀ e ∈ [eoc], e.kind = .endOfClause := by simpa using heoc
  obtain ⟨whens', other', eoc', hwhens', hother', heoc', hread⟩ := hread [eoc] heocs n (by omega)
  have hne' : whens' ≠ [] := by
    rintro rfl
    cases whens with
    | nil => exact hne rfl
    | cons w ws =>
      cases hwhens'
  refine ⟨.select t.pos whens' other', eoc', ?_, heoc', statement_select (leads_of_end ht heoc) hne' hread⟩
  cases other with
  | none =>
    obtain rfl := map_eq_none_iff.1 hother'
    simp only [unplaced, hwhens']
  | some body =>
    obtain ⟨body', rfl, hbody'⟩ := map_eq_some_iff.1 hother'
    simp only [unplaced, hwhens', hbody']

/-! ## All statements -/

theorem SpellsCond.endsInThen (h : SpellsCond w x) (hw : ∀ u ∈ w, u.IsWord) : endsInThen w = true := by
  have heoc : (⟨.endOfClause, [], .start, false⟩ : Token).kind = .endOfClause := rfl
  obtain ⟨u, hu, hread⟩ := h .top ⟨rfl, rfl⟩ w (replicate 4 ⟨.endOfClause, [], .start, false⟩) ⟨rfl, hw⟩
    (ends_of_length heoc (by simp))
  have hrests : Rests (replicate 4 (⟨.endOfClause, [], .start, false⟩ : Token))
      (replicate 4 ⟨.endOfClause, [], .start, false⟩) := ⟨⟨_, _, rfl, rfl⟩, ⟨_, _, rfl, rfl⟩, le_rfl⟩
  obtain ⟨m, m', hus, hm, -, -⟩ := Local.expression ⟨rfl, rfl⟩ _ _ hrests _ _ ⟨rfl, hw⟩ x _ hread
  obtain rfl : m = [u] := append_cancel_right hus.symm
  obtain ⟨p, rfl⟩ := hm
  simp [endsInThen, isKeyword, hu]

theorem linesOf_isSome (h : ∀ s ∈ ss, ∀ line ∈ P.lines s, (clauseTokens? line).isSome) :
    ∀ line ∈ P.linesOf ss, (clauseTokens? line).isSome := by
  induction ss with
  | nil => nofun
  | cons s ss ih =>
    intro line hline
    rcases mem_append.1 hline with hline | hline
    · exact h s (by simp) line hline
    · exact ih (fun s' hs' => h s' (by simp [hs'])) line hline

end Grammar

open Grammar

namespace Printer.Printable

variable {P : Printer} {inIf : Bool} {s : Stmt}

theorem clauseTokens?_lines (h : P.Printable inIf s) : ∀ line ∈ P.lines s, (clauseTokens? line).isSome := by
  have hword : ∀ k : Keyword, (clauseTokens? k.spelling).isSome := fun k => by rw [clauseTokens?_spelling]; rfl
  induction h with
  | clause hlabel hline hreads hplain =>
    intro line hmem
    rw [mem_singleton.1 hmem]
    exact hline
  | @ifThen inIf pos x thens elses hline hreads hthens helses ihthens ihelses =>
    simp only [lines_ifThen, forall_mem_cons, forall_mem_append]
    refine ⟨hline, linesOf_isSome ihthens, ?_, hword _, forall_mem_nil _⟩
    cases elses with
    | nil => exact forall_mem_nil _
    | cons s ss => exact forall_mem_cons.2 ⟨hword _, linesOf_isSome ihelses⟩
  | group hbody ih =>
    simp only [lines, forall_mem_cons, forall_mem_append]
    exact ⟨hword _, linesOf_isSome ih, hword _, forall_mem_nil _⟩
  | loop hline hreads hplain hbody ih =>
    simp only [lines, forall_mem_cons, forall_mem_append]
    exact ⟨hline, linesOf_isSome ih, hword _, forall_mem_nil _⟩
  | @select pos whens other hne hlines hreads hwhens hother ihwhens ihother =>
    have hparts : ∀ line ∈ P.whenLines whens, (clauseTokens? line).isSome := by
      clear hne hreads hwhens
      induction whens with
      | nil => exact forall_mem_nil _
      | cons w ws ih =>
        obtain ⟨hline, hlines⟩ := forall_mem_cons.1 hlines
        obtain ⟨hbody, hbodies⟩ := forall_mem_cons.1 ihwhens
        simp only [whenLines, forall_mem_cons, forall_mem_append]
        exact ⟨hline, linesOf_isSome hbody, ih hlines hbodies⟩
    cases other with
    | none =>
      simp only [lines, forall_mem_cons, forall_mem_append]
      exact ⟨hword _, hparts, hword _, forall_mem_nil _⟩
    | some body =>
      simp only [lines, forall_mem_cons, forall_mem_append]
      exact ⟨hword _, hparts, hword _, linesOf_isSome (ihother body rfl), hword _, forall_mem_nil _⟩

theorem reads (h : P.Printable inIf s) : ReadsLines P s ∧ (inIf = true → Passes (P.lines s)) := by
  induction h with
  | clause hlabel hline hreads hplain => exact ⟨readsLines_clause hlabel hreads, fun hin => Passes.line (hplain hin)⟩
  | @ifThen inIf pos x thens elses hline hreads hthens helses ihthens ihelses =>
    have hthens' : ∀ s ∈ thens, ReadsLines P s ∧ Passes (P.lines s) := fun s hs => ⟨(ihthens s hs).1, (ihthens s hs).2 rfl⟩
    have helses' : ∀ s ∈ elses, ReadsLines P s ∧ Passes (P.lines s) := fun s hs => ⟨(ihelses s hs).1, (ihelses s hs).2 rfl⟩
    refine ⟨readsLines_ifThen hline hreads hthens' helses', fun _ => ?_⟩
    have hif : ∀ words, (P.ifLine x).IsClauseLine words → ∀ ws, Same words ws →
        ∃ t w, ws = t :: w ∧ t.kind = .keyword .«if» ∧ endsInThen w = true := by
      intro words hwords ws hws
      obtain ⟨t, w, rfl, -, hleads, hcond⟩ := ifLine_words hline hreads hwords hws
      exact ⟨t, w, rfl, (hleads []).kind, hcond.endsInThen fun u hu => hws.symm.isWord u (by simp [hu])⟩
    rw [lines_ifThen]
    exact Passes.ifThen hif (Passes.linesOf fun s hs => (hthens' s hs).2) (passes_else fun s hs => (helses' s hs).2)
  | @group inIf pos body hbody ih =>
    have hunplaced : (doBlock pos none body).unplaced = _ := rfl
    refine ⟨readsLines_doBlock opensDo_spelling rfl (fun s hs => (ih s hs).1) hunplaced, fun hin => ?_⟩
    exact .doBlock (show Text.isUnmarked Keyword.«do».spelling = true by decide) opensDo_spelling
      (.linesOf fun s hs => (ih s hs).2 hin)
  | @loop inIf pos control guard body hline hreads hplain hbody ih =>
    have hdo := opensDo_loopLine hline hreads
    have hunplaced : (doBlock pos (some (control, guard)) body).unplaced = _ := rfl
    exact ⟨readsLines_doBlock hdo rfl (fun s hs => (ih s hs).1) hunplaced,
      fun hin => .doBlock (hplain hin) hdo (.linesOf fun s hs => (ih s hs).2 hin)⟩
  | select hne hlines hreads hwhens hother ihwhens ihother =>
    exact ⟨readsLines_select hne hlines hreads (fun w hw s hs => (ihwhens w hw s hs).1)
      (fun body hb s hs => (ihother body hb s hs).1), nofun⟩

end Printer.Printable

/-- **Blocks are read as they were laid out.** The text of statements, one clause a line, is a program, and its statements
are the ones that were laid out, positions aside: if each part by itself is read back, and if inside of IF there is no SELECT
and no line that begins with END or ENDIF or ends with THEN. -/
theorem Program.parse_source (P : Printer) (name : Text) {ss : List Stmt} (h : ∀ s ∈ ss, P.Printable false s) :
    ∃ body, Program.parse (P.source ss) name = .ok (Program.ofBody name (Text.lines (P.source ss)) body) ∧
      body.map Stmt.unplaced = ss.map Stmt.unplaced := by
  suffices hbody : ∃ ts body us, Token.lex (P.source ss) = .ok ts ∧
      programBody (depthFor ts.length) ts = .ok (body, us) ∧ body.map Stmt.unplaced = ss.map Stmt.unplaced by
    obtain ⟨ts, body, us, hlex, hread, hbody⟩ := hbody
    refine ⟨body, ?_, hbody⟩
    unfold Program.parse
    rw [hlex]
    show Except.bind (programBody (depthFor ts.length) ts) _ = _
    rw [hread]
    rfl
  have hreads : ∀ s ∈ ss, ReadsLines P s := fun s hs => (h s hs).reads.1
  cases ss with
  | nil => exact ⟨_, [], _, rfl, rfl, rfl⟩
  | cons s ss =>
    have hlines := linesOf_isSome fun s' hs' => (h s' hs').clauseTokens?_lines
    have hne : P.linesOf (s :: ss) ≠ [] := by
      obtain ⟨line, lines, hline⟩ := lines_ne_nil P s
      rw [Printer.linesOf, hline]
      simp
    obtain ⟨ts, eos, hlex, hts, heos⟩ := lex_lays hlines hne
    have hdepth : 3 * ts.length + 1 ≤ depthFor (ts ++ [eos]).length := by
      rw [List.length_append, depthFor]
      omega
    have hnone : ∀ e ∈ ([] : List Token), e.kind = .endOfClause := by simp
    obtain ⟨body, hbody, hread⟩ := programBody_reads hreads hts heos hnone hdepth
    exact ⟨_, body, _, hlex, hread, hbody⟩

def Printer.sketch : Printer where
  clause _ := "SAY 2"
  cond _ := "1"
  head _ _ := "3"

namespace Stmt.Sketch

def say : Stmt := .clause .start (.say (some (.literal "2" none)))

def ifThen (thens elses : List Stmt) : Stmt := .ifThen .start (.literal "1" none) thens elses

def loop (body : List Stmt) : Stmt := .loop .start (.times (.literal "3" none)) none body

def select (body : List Stmt) (other : Option (List Stmt)) : Stmt := .select .start [(.literal "1" none, body)] other

theorem printable_say (inIf : Bool) : sketch.Printable inIf say :=
  .clause nofun (by decide) (by decide +kernel) fun _ => by decide

theorem printable_ifThen {inIf : Bool} {thens elses : List Stmt} (hthens : ∀ s ∈ thens, sketch.Printable true s)
    (helses : ∀ s ∈ elses, sketch.Printable true s) : sketch.Printable inIf (ifThen thens elses) :=
  .ifThen (by decide) (by decide +kernel) hthens helses

theorem printable_loop {inIf : Bool} {body : List Stmt} (hbody : ∀ s ∈ body, sketch.Printable inIf s) :
    sketch.Printable inIf (loop body) :=
  .loop (by decide) (by decide +kernel) (fun _ => by decide) hbody

theorem printable_select {body : List Stmt} {other : Option (List Stmt)}
    (hbody : ∀ s ∈ body, sketch.Printable false s)
    (hother : ∀ b ∈ other, ∀ s ∈ b, sketch.Printable false s) : sketch.Printable false (select body other) := by
  refine .select (by simp) ?_ ?_ ?_ hother
  · simp only [forall_mem_singleton]
    decide
  · simp only [forall_mem_singleton]
    decide +kernel
  · simpa only [forall_mem_singleton] using hbody

def nest : List Stmt := [select [ifThen [loop [say], .group .start [ifThen [say] []]] [say]] (some [say])]

end Stmt.Sketch

open Stmt.Sketch

theorem Program.parse_source_nest :
    (∀ s ∈ nest, Printer.sketch.Printable false s) ∧
    ∃ body, Program.parse (Printer.sketch.source nest) [] =
      .ok (Program.ofBody [] (Text.lines (Printer.sketch.source nest)) body) ∧
      body.map Stmt.unplaced = nest.map Stmt.unplaced := by
  have hsay : ∀ inIf, ∀ s ∈ [say], Printer.sketch.Printable inIf s := by
    intro inIf s hs
    rw [List.mem_singleton.1 hs]
    exact printable_say inIf
  have hall : ∀ s ∈ nest, Printer.sketch.Printable false s := by
    simp only [nest, List.forall_mem_singleton]
    refine printable_select ?_ ?_
    · simp only [List.forall_mem_singleton]
      refine printable_ifThen (List.forall_mem_cons.2 ⟨printable_loop (hsay true), ?_⟩) (hsay true)
      simp only [List.forall_mem_singleton]
      refine .group ?_
      simp only [List.forall_mem_singleton]
      exact printable_ifThen (hsay true) nofun
    · rintro b ⟨⟩
      exact hsay false
  exact ⟨hall, Program.parse_source Printer.sketch [] hall⟩

/-- **A SELECT inside an IF is not read back**: the THEN of its choice counts as an IF that needs the ENDIF, so the IF around
it is taken for one with a single statement, and its ENDIF is left over. -/
theorem Program.parse_select_in_if :
    Printer.sketch.source [ifThen [select [say] none] []] = "IF 1 THEN\nSELECT\nWHEN 1 THEN\nSAY 2\nEND\nENDIF".toList ∧
    Text.Spells (Printer.sketch.source [ifThen [say] []]) [ifThen [say] []] ∧
    Text.Spells (Printer.sketch.source [select [say] none]) [select [say] none] ∧
    ¬ Text.Spells (Printer.sketch.source [ifThen [select [say] none] []]) [ifThen [select [say] none] []] ∧
    ∀ p, Program.parse (Printer.sketch.source [ifThen [select [say] none] []]) [] ≠ .ok p := by
  refine ⟨by decide, by decide +kernel, by decide +kernel, by decide +kernel, ?_⟩
  have hnone : (Program.parse (Printer.sketch.source [ifThen [select [say] none] []]) []).toOption.isSome = false := by
    decide +kernel
  intro p hp
  rw [hp] at hnone
  cases hnone

end Rexx
