import Rexx.Proofs.Grammar.Totality
import Rexx.Proofs.Inlining.Equivalence

/-!
# `Grammar.Labels` — where labels stand, and who finds them

A label is refused inside a block; a branch of IF or WHEN that is just a label is none, and nothing finds that label.
-/

namespace Rexx

open Engine List Option Program Std.TreeMap Text

/-! ## Branches -/

namespace Stmt

def branches : Stmt → List (List Stmt)
  | .ifThen _ _ thens elses => [thens, elses]
  | .select _ whens _ => whens.map Prod.snd
  | _ => []

/-- One statement is a branch of another, all by itself. -/
def Sole (t s : Stmt) : Prop := [t] ∈ s.branches

/-- One statement is the other or hangs from it by a chain of branches, each of them a single statement. -/
def Hangs (t s : Stmt) : Prop := Relation.ReflTransGen Sole t s

theorem Hangs.occurs {s t : Stmt} (h : t.Hangs s) : t.Occurs s := by
  refine Relation.ReflTransGen.mono ?_ _ _ h
  intro a b hab
  refine ⟨[a], ?_, mem_singleton.2 rfl⟩
  cases b with
  | clause _ _ => cases hab
  | ifThen _ _ _ _ => exact hab
  | group _ _ => cases hab
  | loop _ _ _ _ => cases hab
  | select _ _ _ => exact mem_append_left _ hab

def Placed (nested : Bool) (s : Stmt) : Prop :=
  ∀ t : Stmt, t.Occurs s → t.label? ≠ none → nested = false ∧ t.Hangs s

variable {s t : Stmt} {nested : Bool}

theorem Placed.of_lists (hs : s.label? = none)
    (h : ∀ l ∈ s.lists, (∀ c ∈ l, Placed true c) ∨ (l ∈ s.branches ∧ ∃ c, l = [c] ∧ Placed nested c)) :
    Placed nested s := by
  intro t ht hlabel
  rcases Relation.ReflTransGen.cases_tail ht with rfl | ⟨c, htc, l, hl, hc⟩
  · exact absurd hs hlabel
  rcases h l hl with hfree | ⟨hbranch, c', rfl, hplaced⟩
  · cases (hfree c hc t htc hlabel).1
  · rw [mem_singleton.1 hc] at htc
    obtain ⟨hnested, hhangs⟩ := hplaced t htc hlabel
    exact ⟨hnested, hhangs.tail hbranch⟩

theorem Placed.of_lists_nil (hs : s.lists = []) (hlabel : nested = true → s.label? = none) : Placed nested s := by
  intro t ht ht'
  rcases Relation.ReflTransGen.cases_tail ht with rfl | ⟨c, -, l, hl, -⟩
  · cases nested with
    | true => exact absurd (hlabel rfl) ht'
    | false => exact ⟨rfl, .refl⟩
  · rw [hs] at hl
    cases hl

theorem placed_inherited {source : List Token} : Inherited source Placed where
  clause {_ pos c} _ hc := by
    refine .of_lists_nil rfl fun _ => ?_
    cases c with
    | label name => exact hc.elim
    | _ => rfl
  label name _ := .of_lists_nil rfl fun h => by cases h
  ifThen {nested pos x thens elses} _ hthens helses := by
    refine .of_lists rfl fun l hl => ?_
    have hbranch : l ∈ (ifThen pos x thens elses).branches := hl
    rcases mem_cons.1 hl with rfl | hl
    · exact hthens.imp id fun h => ⟨hbranch, h⟩
    · rw [mem_singleton.1 hl] at hbranch ⊢
      exact helses.imp id fun h => ⟨hbranch, h⟩
  block {_ s body} _ hlists hbody := by
    have hs : s.label? = none := by
      cases s with
      | clause pos c => cases hlists
      | _ => rfl
    refine .of_lists hs fun l hl => ?_
    rw [hlists] at hl
    exact .inl (mem_singleton.1 hl ▸ hbody)
  select hpos hparts := by
    refine .of_lists rfl fun l hl => ?_
    rcases mem_append.1 hl with hwhen | hother
    · obtain ⟨w, hw, rfl⟩ := mem_map.1 hwhen
      exact (hparts.1 w hw).imp id fun hsole => ⟨hwhen, hsole⟩
    · exact .inl (hparts.2 l (mem_toList.1 hother))

end Stmt

/-! ## The table of labels -/

theorem labelTable_getElem? (labels : Table Nat) (i : Nat) (ss : List Stmt) (label : Text) :
    (labelTable labels i ss)[label]? =
      labels[label]?.or ((ss.findIdx? fun s => s.label? == some label).map (· + i)) := by
  induction ss generalizing labels i with
  | nil => simp [labelTable]
  | cons s ss ih =>
    have hshift : (Option.map (fun k => k + i) ∘ Option.map fun k => k + 1) = Option.map fun k : Nat => k + (i + 1) := by
      funext o
      cases o <;> simp [Nat.add_assoc, Nat.add_comm 1 i]
    unfold labelTable
    cases hs : s.label? with
    | none =>
      rw [ih, findIdx?_cons, hs]
      simp only [none_beq_some, Bool.false_eq_true, if_false, ← hshift, Function.comp]
    | some name =>
      rw [ih, findIdx?_cons, hs, getElem?_insertIfNew]
      by_cases hname : name = label
      · subst hname
        cases hlabel : labels[name]? with
        | none =>
          have hnew : name ∉ labels := by simpa using hlabel
          simp [hnew]
        | some k =>
          have hold : name ∈ labels := by
            rw [mem_iff_isSome_getElem?, hlabel]
            rfl
          simp [hold]
      · have hne : ¬ compare name label = .eq := by simpa using hname
        simp only [hne, false_and, if_false, some_beq_some, beq_iff_eq, hname, ← hshift, Function.comp]

namespace Program

variable {p : Program}

variable {label : Text} {src name : Text}

theorem labels_eq_findIdx? (h : parse src name = .ok p) (label : Text) :
    p.labels[label]? = p.body.findIdx? fun s => s.label? == some label := by
  obtain ⟨-, -, -, -, hp⟩ := parse_eq_ok_iff.1 h
  rw [hp]
  show (labelTable ∅ 0 p.body)[label]? = _
  rw [labelTable_getElem?]
  simp [ofBody]

/-! ## Who finds a label -/

/-- SIGNAL, a call and a trap with the label go on right after the statement at index `k`; for a call there has to be room
for a further routine, and the name is that of neither a built-in function nor one of the host. -/
structure Finds (p : Program) (label : Text) (k : Nat) : Prop where
  signal : ∀ {σ : Type} {m : Machine σ}, m.interp.program = p → ∃ m', Engine.execClause (.signal label) m = .ok () m' ∧
    m'.top.cursors = [.at p.body (k + 1) none] ∧ m'.stack.callers = m.stack.callers
  call : ∀ {σ : Type} {m : Machine σ} (site : Site) (args : Args) (needsValue : Bool), m.interp.program = p →
    Builtin.ofName? label = none → m.interp.functions[label]? = none → m.stack.depth < maxDepth →
    ∃ m', Engine.call site label args needsValue false m = .error .suspended m' ∧
      m'.top.cursors = [.at p.body (k + 1) none] ∧
      m'.stack.callers = ⟨m.top, site, needsValue⟩ :: m.stack.callers
  trap : ∀ {σ : Type} {i : Interpreter σ} {c : Condition} {event : Event} {s : Stack}, i.program = p → c.trappable = true →
    i.stack.unwindTo c.event = some ((event, label), s) →
    (i.raise c).stack.top.cursors = [.at p.body (k + 1) none] ∧ (i.raise c).stack.callers = s.callers ∧
      (i.raise c).status = i.status

/-- INTERPRET of the text ends with the condition that it holds a label. -/
def Refused (src : Text) : Prop :=
  ∀ {σ : Type} {m m' : Machine σ} {x : Expr}, m.interp.interpretBlocked = false → Engine.eval [0] x m = .ok src m' →
    Engine.execInterpret x m = .error (.raised Fault.labelInInterpret.condition) m'

theorem finds_of_labels {k : Nat} (h : p.labels[label]? = some k) : p.Finds label k where
  signal := by
    intro σ m hp
    refine ⟨m.modifyTop fun f => { f with cursors := [.at p.body (k + 1) none] }, ?_, rfl, rfl⟩
    show jump label m = _
    rw [jump, bind_of_ok (interp_apply m), hp]
    simp only [h]
    rfl
  call := by
    intro σ m site args needsValue hp hbuiltin hfunction hroom
    refine ⟨m.enter site k args needsValue, ?_, ?_, rfl⟩
    · rw [call, hbuiltin]
      simp only
      rw [bind_of_ok (interp_apply m), hfunction, hp]
      simp only [Bool.false_eq_true, if_false, h]
      rw [enterRoutine_apply, if_neg (Nat.not_le.2 hroom)]
    · show [Cursor.at m.interp.program.body (k + 1) none] = _
      rw [hp]
  trap := by
    intro σ i c event s hp htrappable hunwind
    rw [Interpreter.raise_eq i c rfl, if_pos htrappable, hunwind]
    have hprogram : ∀ (line : Nat) (c : Condition), (i.sprung s event c line).program = p := fun _ _ => hp
    simp only [elim_some, Interpreter.landed, hprogram, h]
    exact ⟨rfl, rfl, rfl⟩

theorem refused_of_labels (h : parse src name = .ok p) {k : Nat}
    (hlabel : p.labels[label]? = some k) : Refused src := by
  intro σ m m' x hopen heval
  have hlabels : p.labels.isEmpty = false := by
    rw [isEmpty_eq_false_iff_exists_contains_eq_true]
    refine ⟨label, ?_⟩
    rw [contains_eq_isSome_getElem?, hlabel]
    rfl
  rw [execInterpret, bind_of_ok (permit_ok.2 ⟨hopen, rfl⟩), bind_of_ok heval, runText, bind_of_ok (interp_apply m'),
    parse_of_name h]
  simp only [hlabels]
  rfl

/-- **Where labels are, and who finds them.** The table of labels leads to the first statement of the top level that
bears each name, and there SIGNAL, calls and traps go on; INTERPRET refuses a text with such a label. Any other label
hangs from a statement of the top level by a chain of branches that are single statements. -/
theorem labels_of_parse {src name : Text} {p : Program} (h : Program.parse src name = .ok p) :
    (∀ label, p.labels[label]? = p.body.findIdx? fun s => s.label? == some label) ∧
    (∀ label k, p.labels[label]? = some k → p.Finds label k ∧ Refused src) ∧
    (∀ s ∈ p.body, ∀ t : Stmt, t.Occurs s → t.label? ≠ none → t.Hangs s) ∧
    ((∀ s ∈ p.body, ∀ u t : Stmt, u.Occurs s → t.Sole u → t.label? = none) →
      ∀ s ∈ p.body, ∀ (t : Stmt) (label : Text), t.Occurs s → t.label? = some label →
        t ∈ p.body ∧ ∃ k, p.labels[label]? = some k) := by
  obtain ⟨tokens, us, hlex, hbody, -⟩ := parse_eq_ok_iff.1 h
  have hplaced := Grammar.programBody_inherits Stmt.placed_inherited hlex hbody
  have hhangs : ∀ s ∈ p.body, ∀ t : Stmt, t.Occurs s → t.label? ≠ none → t.Hangs s :=
    fun s hs t ht hlabel => (hplaced s hs t ht hlabel).2
  refine ⟨labels_eq_findIdx? h, fun label k hk => ⟨finds_of_labels hk, refused_of_labels h hk⟩, hhangs, ?_⟩
  intro hsole s hs t label ht hlabel
  have htop : t = s := by
    rcases Relation.ReflTransGen.cases_head (hhangs s hs t ht (by simp [hlabel])) with rfl | ⟨u, htu, hus⟩
    · rfl
    · have hnone := hsole s hs u t (Stmt.Hangs.occurs hus) htu
      rw [hlabel] at hnone
      cases hnone
  subst htop
  refine ⟨hs, ?_⟩
  rw [labels_eq_findIdx? h]
  cases hfind : p.body.findIdx? fun s => s.label? == some label with
  | some k => exact ⟨k, rfl⟩
  | none =>
    have hfalse := List.findIdx?_eq_none_iff.1 hfind t hs
    simp [hlabel] at hfalse

theorem exists_of_toOption_map {ε α β : Type} {r : Except ε α} {f : α → β} {b : β} (h : r.toOption.map f = some b) :
    ∃ a, r = .ok a ∧ f a = b := by
  cases r with
  | error e => cases h
  | ok a => exact ⟨a, rfl, some.inj h⟩

theorem labels_of_parse_again : ∃ p, Program.parse "say 1\nagain:\nif x then signal again" [] = .ok p ∧
    p.labels["AGAIN".toList]? = some 1 ∧ p.Finds "AGAIN" 1 := by
  have hsome : (Program.parse "say 1\nagain:\nif x then signal again" []).toOption.map
      (fun p => p.body.findIdx? fun s => s.label? == some "AGAIN".toList) = some (some 1) := by decide +kernel
  obtain ⟨p, hread, hindex⟩ := exists_of_toOption_map hsome
  obtain ⟨htable, hfinds, -⟩ := labels_of_parse hread
  have hlabel := (htable "AGAIN").trans hindex
  exact ⟨p, hread, hlabel, (hfinds _ _ hlabel).1⟩

theorem label_after_then_lost : ∃ p s t, Program.parse "if 1 then foo:" [] = .ok p ∧ s ∈ p.body ∧ t.Occurs s ∧
    t.label? = some "FOO".toList ∧ t ∉ p.body ∧ p.labels["FOO".toList]? = none := by
  have hbody : (Program.parse "if 1 then foo:" []).toOption.map Program.body =
      some [.ifThen ⟨1, 1⟩ (.literal "1" none) [.clause ⟨1, 11⟩ (.label "FOO")] []] := by decide +kernel
  obtain ⟨p, hread, hbody⟩ := exists_of_toOption_map hbody
  refine ⟨p, .ifThen ⟨1, 1⟩ (.literal "1" none) [.clause ⟨1, 11⟩ (.label "FOO")] [], .clause ⟨1, 11⟩ (.label "FOO"), hread,
    ?_, ?_, rfl, ?_, ?_⟩
  · rw [hbody]
    exact List.mem_singleton.2 rfl
  · exact .single ⟨[.clause ⟨1, 11⟩ (.label "FOO")], List.mem_cons_self .., List.mem_singleton.2 rfl⟩
  · rw [hbody]
    simp
  · rw [labels_eq_findIdx? hread, hbody]
    rfl

end Program

/-! ## The lines of a text -/

namespace Text

variable {c : Char} {s t : Text}

theorem splitAt_cases (c : Char) (s : Text) :
    (c ∉ s ∧ splitAt c s = [s]) ∨ ∃ part rest, s = part ++ c :: rest ∧ c ∉ part ∧ splitAt c s = part :: splitAt c rest := by
  by_cases hc : c ∈ s
  · obtain ⟨part, rest, rfl, hnot⟩ := eq_append_cons_of_mem hc
    exact .inr ⟨part, rest, rfl, hnot, splitAt_cons hnot rest⟩
  · exact .inl ⟨hc, splitAt_of_not_mem hc⟩

theorem length_splitAt (c : Char) (s : Text) : (splitAt c s).length = List.count c s + 1 := by
  induction hn : s.length using Nat.strong_induction_on generalizing s with
  | _ n ih =>
    rcases splitAt_cases c s with ⟨hnot, hs⟩ | ⟨part, rest, rfl, hnot, hparts⟩
    · rw [hs, count_eq_zero.2 hnot]
      rfl
    · have hlt : rest.length < n := by
        rw [← hn, length_append, length_cons]
        omega
      rw [hparts, length_cons, ih _ hlt rest rfl, count_append, count_cons_self, count_eq_zero.2 hnot,
        Nat.zero_add]

theorem getLast?_splitAt (hs : s ≠ []) (hc : c ∉ s) (t : Text) : (splitAt c (t ++ s)).getLast? ≠ some [] := by
  induction hn : t.length using Nat.strong_induction_on generalizing t with
  | _ n ih =>
    rcases splitAt_cases c (t ++ s) with ⟨-, hone⟩ | ⟨part, rest, heq, hnot, hparts⟩
    · rw [hone]
      simp [hs]
    · -- The character is not in `s`, so what comes after it still ends with `s`.
      obtain ⟨t', rfl, hlt⟩ : ∃ t', rest = t' ++ s ∧ t'.length < n := by
        rcases append_eq_append_iff.1 heq with ⟨u, hpart, hus⟩ | ⟨u, ht, hu⟩
        · exact absurd (hus ▸ mem_append_right u mem_cons_self) hc
        · cases u with
          | nil => exact absurd ((show s = c :: rest from hu.symm) ▸ mem_cons_self) hc
          | cons d u =>
            obtain ⟨-, rfl⟩ := cons.inj hu
            refine ⟨u, rfl, ?_⟩
            rw [← hn, ht, length_append, length_cons]
            omega
      have hne : splitAt c (t' ++ s) ≠ [] := by
        intro hnil
        have := length_splitAt c (t' ++ s)
        rw [hnil] at this
        cases this
      rw [hparts, getLast?_cons_of_ne_nil hne]
      exact ih _ hlt t' rfl

theorem le_length_lines {rest : Text} {n : Nat} (hsuffix : rest <:+ s) (hne : rest ≠ [])
    (hn : n + List.count '\n' rest ≤ List.count '\n' s + 1) : n ≤ (lines s).length := by
  unfold lines
  dsimp only
  split_ifs with hlast
  · rw [List.length_dropLast, length_splitAt]
    by_cases hmem : '\n' ∈ rest
    · have := List.count_pos_iff.2 hmem
      omega
    · obtain ⟨t, rfl⟩ := hsuffix
      exact absurd hlast (getLast?_splitAt hne hmem t)
  · rw [length_splitAt]
    omega

end Text

theorem Token.lex_line {src : Text} {ts : List Token} (h : Token.lex src = .ok ts) {t : Token} (ht : t ∈ ts)
    (hword : t.IsWord) : 1 ≤ t.pos.line ∧ t.pos.line ≤ (lines src).length := by
  obtain ⟨s, hreach, -, -, rfl⟩ := Token.lex_eq_ok_iff.1 h
  obtain ⟨-, read, offsets, htracked⟩ := hreach.tracked
  have ht : t ∈ s.tokens := by
    rcases mem_append.1 ht with ht | ht
    · exact mem_reverse.1 ht
    · rcases mem_pair.1 ht with rfl | rfl
      · exact absurd rfl hword.1
      · exact absurd rfl hword.2
  have hplaced : Forall₂ (fun o t => o < src.length ∧ Token.StandsAt src o t) offsets s.tokens := by
    refine forall₂_imp_mem htracked.tokens fun {o _} ho _ hat => ⟨(htracked.within o ho).trans_le ?_, hat⟩
    simp [htracked.source]
  refine forall₂_right (p := fun t => 1 ≤ t.pos.line ∧ t.pos.line ≤ (lines src).length) hplaced (fun {o t} hat => ?_) t ht
  rw [hat.2.line]
  refine ⟨Nat.le_add_right _ _, le_length_lines (drop_suffix o src) (by simp [hat.1]) ?_⟩
  rw [Nat.add_assoc, ← count_append, take_append_drop, Nat.add_comm]

theorem Program.exists_line {src name : Text} {p : Program} (h : parse src name = .ok p) {s t : Stmt}
    (hs : s ∈ p.body) (ht : t.Occurs s) : ∃ text, p.line? t.pos.line = some text := by
  obtain ⟨tokens, us, hlex, hbody, hp⟩ := parse_eq_ok_iff.1 h
  obtain ⟨u, hu, hword, hpos⟩ : Grammar.WordAt tokens t.pos := 
    Grammar.programBody_inherits Stmt.worded_inherited hlex hbody s hs t ht
  obtain ⟨hfirst, hlast⟩ := Token.lex_line hlex hu hword
  rw [hpos] at hfirst hlast
  have hlines : p.lines = Text.lines src := by rw [hp]; rfl
  rw [line?, if_neg (Nat.ne_of_gt hfirst), hlines]
  exact ⟨_, getElem?_eq_getElem (by omega)⟩

end Rexx
