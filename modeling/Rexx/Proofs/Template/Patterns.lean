import Rexx.Proofs.Template.Walk
import Rexx.Proofs.Trap.Description

/-!
# `Template.Patterns` — templates with texts between the variables

A template with a text to look for between any two variables splits the source at the leftmost occurrences, one after
the other, and nothing is lost.
-/

namespace Rexx

open Engine List Text VarName Variables

/-! ## What a name depends on -/

def VarName.reads : VarName → List Text
  | .simple name => [name]
  | .compound _ parts => parts
  | _ => []

namespace Variables

variable {v : Variables} {x n : Text}

theorem derivedTail_set (h : v.pool.Tidy v.store) (value : Text) {parts : List Text} (hx : x ∉ parts) :
    (v.set x value).derivedTail parts = v.derivedTail parts := by
  unfold derivedTail
  congr 1
  refine map_congr_left fun part hpart => ?_
  unfold tailPart
  cases part with
  | nil => rfl
  | cons c part => rw [get?_set_of_tidy h value (show x ≠ c :: part from fun heq => hx (heq ▸ hpart))]

theorem meaning_set (h : v.pool.Tidy v.store) (value : Text) (hx : x ∉ (ofText n).reads) :
    (v.set x value).peek? n = v.peek? n ∧ (v.set x value).derivedName n = v.derivedName n := by
  unfold peek? derivedName
  cases hn : ofText n with
  | constant => exact ⟨rfl, rfl⟩
  | simple name =>
    rw [hn] at hx
    exact ⟨get?_set_of_tidy h value fun heq => hx (heq ▸ mem_singleton_self _), rfl⟩
  | stem stem => exact ⟨by simp [getStem?, stem?_set], rfl⟩
  | compound stem parts =>
    rw [hn] at hx
    have htail := derivedTail_set h value (show x ∉ parts from hx)
    exact ⟨by simp [getTail?, stem?_set, htail], by simp [htail]⟩

end Variables

namespace Template

variable {σ : Type} {m m' : Machine σ} {src p x value : Text} {ps : List Text} {pos origin : Nat}

/-! ## Assigning simple variables -/

def put (m : Machine σ) (x value : Text) : Machine σ := m.modifyInterp fun i => i.setVariables (i.vars.set x value)

theorem vars_put (m : Machine σ) (x value : Text) : (put m x value).interp.vars = m.interp.vars.set x value := rfl

/-- The variables of the frame being executed have cells of their own. -/
def Tidy (m : Machine σ) : Prop := m.interp.vars.pool.Tidy m.interp.vars.store

theorem Tidy.put (h : Tidy m) (x value : Text) : Tidy (put m x value) := (Grows.set _ x value).tidy h

theorem ofText_simple (hx : '.' ∉ x) : ofText x = .simple x := by
  obtain ⟨-, h⟩ | ⟨a, rest, -, rfl, -⟩ := ofText_cases fun h => hx (mem_of_mem_head? h)
  · exact h
  · exact absurd (mem_append_right _ mem_cons_self) hx

theorem assign_simple (hx : '.' ∉ x) (value : Text) (m : Machine σ) : assign x value m = .ok () (put m x value) :=
  assign_of_some (by rw [assign?, ofText_simple hx])

theorem give_simple (hx : '.' ∉ x) (value : Text) (gifts : List (Text × Text)) :
    give ((x, value) :: gifts) m = give gifts (put m x value) :=
  bind_of_ok (assign_simple hx value m)

theorem fetch_put (h : Tidy m) {name : Text} (hx : x ∉ (ofText name).reads) {text : Text}
    (hfetch : fetch name m = .ok text m) : fetch name (put m x value) = .ok text (put m x value) := by
  obtain ⟨hpeek, hderived⟩ := meaning_set h value hx
  rw [fetch, bind_of_ok (interp_apply _)] at hfetch ⊢
  rw [vars_put, hpeek]
  have htraps : (put m x value).stack.traps .novalue = m.stack.traps .novalue := rfl
  have hfatal : (put m x value).interp.options.noValueFatal = m.interp.options.noValueFatal := rfl
  cases hp : m.interp.vars.peek? name with
  | some v =>
    rw [hp] at hfetch
    cases hfetch
    rfl
  | none =>
    rw [hp] at hfetch
    dsimp only at hfetch ⊢
    repeat' split at hfetch
    all_goals cases hfetch
    · simp [*]
      rfl
    · simp [*]
      rfl

/-! ## Splitting at leftmost occurrences -/

def partsOf : List Text → Text → List Text
  | [], s => [s]
  | p :: ps, s =>
    match Text.cut? p s with
    | some (left, right) => left :: partsOf ps right
    | none => s :: (p :: ps).map fun _ => []

/-- Texts split `s` at their leftmost occurrences, one after the other: before each one stands the text at its place in
`lefts`, and after the last one stands `rest`. -/
inductive Leftmost : List Text → Text → List Text → Text → Prop
  | nil (s : Text) : Leftmost [] s [] s
  | cons {p s left right rest : Text} {ps lefts : List Text} (hs : s = left ++ p ++ right)
    (hleast : ∀ l r, s = l ++ p ++ r → left.length ≤ l.length) (h : Leftmost ps right lefts rest) :
    Leftmost (p :: ps) s (left :: lefts) rest

theorem Leftmost.join {s rest : Text} {lefts : List Text} (h : Leftmost ps s lefts rest) :
    s = (zipWith (· ++ ·) lefts ps).flatten ++ rest := by
  induction h with
  | nil s => rfl
  | cons hs _ _ ih =>
    rw [hs, ih]
    simp

theorem partsOf_spec (ps : List Text) (s : Text) :
    ∃ found missing lefts rest, ps = found ++ missing ∧ Leftmost found s lefts rest ∧
      (∀ p ∈ missing.head?, ¬ p <:+: rest) ∧ partsOf ps s = lefts ++ rest :: missing.map fun _ => [] := by
  induction ps generalizing s with
  | nil => exact ⟨[], [], [], s, rfl, .nil s, by simp, rfl⟩
  | cons p ps ih =>
    rw [partsOf]
    cases hcut : cut? p s with
    | none => exact ⟨[], p :: ps, [], s, rfl, .nil s, by simpa using cut?_eq_none hcut, rfl⟩
    | some halves =>
      obtain ⟨left, right⟩ := halves
      obtain ⟨found, missing, lefts, rest, rfl, hleft, hmissing, hparts⟩ := ih right
      obtain ⟨hs, hleast⟩ := cut?_eq_some hcut
      exact ⟨p :: found, missing, left :: lefts, rest, rfl, .cons hs hleast hleft, hmissing, congrArg (left :: ·) hparts⟩

theorem length_partsOf (ps : List Text) (s : Text) : (partsOf ps s).length = ps.length + 1 := by
  fun_induction partsOf ps s <;> simp_all

theorem partsOf_nil (h : ∀ p ∈ ps, p ≠ []) : partsOf ps [] = [] :: ps.map fun _ => [] := by
  cases ps with
  | nil => rfl
  | cons p ps => simp [partsOf, cut?, h p mem_cons_self]

/-! ## The walk -/

/-- A pattern, the text that it looks for, and the variable after it. -/
structure Step where
  pattern : Piece
  text : Text
  name : Text

/-- A variable, and more of them with patterns between them. -/
def alternating (x : Text) (steps : List Step) : List Piece := .var x :: steps.flatMap fun st => [st.pattern, .var st.name]

/-- A pattern looks for a text in a machine: it is the text, or a variable that has it as value and does not depend on the
variables `xs`. -/
def Step.Seeks (xs : List Text) (m : Machine σ) (st : Step) : Prop :=
  st.text ≠ [] ∧ (st.pattern = .literal st.text ∨
    ∃ name, st.pattern = .pattern name ∧ (∀ x ∈ xs, x ∉ (VarName.ofText name).reads) ∧
      Engine.fetch name m = .ok st.text m)

variable {xs : List Text} {st : Step} {steps : List Step}

theorem Step.Seeks.put (h : st.Seeks xs m) (hm : Tidy m) (hx : x ∈ xs) (value : Text) : st.Seeks xs (put m x value) := by
  refine ⟨h.1, h.2.imp_right ?_⟩
  rintro ⟨name, hp, hreads, hfetch⟩
  exact ⟨name, hp, hreads, fetch_put hm (hreads x hx) hfetch⟩

theorem walk_seeks (h : st.Seeks xs m) (x : Text) (ps : List Piece) :
    walk fetch assign src (st.pattern :: ps) [some x] pos origin m =
      (do
        assign x ((src.take (placeOf src pos st.text).stop).drop pos)
        walk fetch assign src ps [] (placeOf src pos st.text).next (placeOf src pos st.text).origin) m := by
  have hsought : st.pattern.sought fetch m = .ok st.text m ∧ st.pattern.receiver? = none ∧
      st.pattern.place src pos origin st.text = placeOf src pos st.text := by
    obtain ⟨-, hp | ⟨name, hp, -, hfetch⟩⟩ := h <;> rw [hp]
    · exact ⟨rfl, rfl, rfl⟩
    · exact ⟨hfetch, rfl, rfl⟩
  rw [walk_pattern hsought.2.1, bind_of_ok hsought.1, hsought.2.2]
  simp [fill, share, assignAll]

theorem placeOf_found {text left right : Text} (hne : text ≠ []) (h : cut? text (src.drop pos) = some (left, right)) :
    (src.take (placeOf src pos text).stop).drop pos = left ∧ src.drop (placeOf src pos text).next = right := by
  have hs := (cut?_eq_some h).1
  have hempty : text.isEmpty = false := by simpa using hne
  unfold placeOf
  simp only [hempty, h, Bool.false_eq_true, if_false]
  constructor
  · rw [drop_take, hs, append_assoc, Nat.add_sub_cancel_left, take_left]
  · rw [Nat.add_assoc, ← drop_drop, hs, ← length_append, drop_left]

theorem placeOf_missing {text : Text} (h : cut? text (src.drop pos) = none) :
    (src.take (placeOf src pos text).stop).drop pos = src.drop pos ∧ src.drop (placeOf src pos text).next = [] := by
  have hplace : placeOf src pos text = ⟨src.length, src.length, src.length⟩ := by
    unfold placeOf
    rw [h]
    split <;> rfl
  rw [hplace]
  simp

theorem walk_steps (hsteps : ∀ st ∈ steps, st.Seeks xs m) (hm : Tidy m) (hxs : ∀ x ∈ xs, '.' ∉ x) (hx : x ∈ xs)
    (hnames : ∀ st ∈ steps, st.name ∈ xs) (src : Text) (pos origin : Nat) :
    walk fetch assign src (steps.flatMap fun st => [st.pattern, .var st.name]) [some x] pos origin m =
      give ((x :: steps.map Step.name).zip (partsOf (steps.map Step.text) (src.drop pos))) m := by
  induction steps generalizing x pos origin m with
  | nil =>
    rw [flatMap_nil, walk, fill, take_length]
    rfl
  | cons st steps ih =>
    obtain ⟨hst, hsteps⟩ := forall_mem_cons.1 hsteps
    obtain ⟨hname, hnames⟩ := forall_mem_cons.1 hnames
    rw [flatMap_cons, cons_append, walk_seeks hst, bind_of_ok (assign_simple (hxs x hx) _ m)]
    -- the patterns that are left look for the same texts after the assignment
    have hnext := ih (fun st' hst' => (hsteps st' hst').put hm hx
      ((src.take (placeOf src pos st.text).stop).drop pos)) (hm.put x _) hname hnames
      (placeOf src pos st.text).next (placeOf src pos st.text).origin
    refine hnext.trans ?_
    rw [map_cons, map_cons, partsOf]
    cases hcut : cut? st.text (src.drop pos) with
    | some halves =>
      obtain ⟨left, right⟩ := halves
      obtain ⟨hleft, hright⟩ := placeOf_found hst.1 hcut
      rw [hleft, hright]
      exact (give_simple (hxs x hx) left _).symm
    | none =>
      -- nothing is left, so that no later pattern is found either
      obtain ⟨hleft, hright⟩ := placeOf_missing hcut
      rw [hleft, hright, partsOf_nil]
      · exact (give_simple (hxs x hx) _ _).symm
      · intro p hp
        obtain ⟨st', hst', rfl⟩ := mem_map.1 hp
        exact (hsteps st' hst').1

theorem give_reads (gifts : List (Text × Text)) (hm : Tidy m) (hxs : ∀ g ∈ gifts, '.' ∉ g.1)
    (hnodup : (gifts.map Prod.fst).Nodup) :
    ∃ m', give gifts m = .ok () m' ∧ (∀ g ∈ gifts, m'.interp.vars.get? g.1 = some g.2) ∧
      ∀ y ∉ gifts.map Prod.fst, m'.interp.vars.get? y = m.interp.vars.get? y := by
  induction gifts generalizing m with
  | nil => exact ⟨m, rfl, by simp, fun _ _ => rfl⟩
  | cons g gifts ih =>
    obtain ⟨hx, hxs⟩ := forall_mem_cons.1 hxs
    obtain ⟨hnot, hnodup⟩ := nodup_cons.1 hnodup
    obtain ⟨m', hgive, hread, hframe⟩ := ih (hm.put g.1 g.2) hxs hnodup
    refine ⟨m', ?_, ?_, ?_⟩
    · exact (give_simple hx g.2 gifts).trans hgive
    · refine forall_mem_cons.2 ⟨?_, hread⟩
      rw [hframe _ hnot, vars_put, get?_set]
    · intro y hy
      rw [hframe y (not_mem_of_not_mem_cons hy), vars_put,
        get?_set_of_tidy hm _ (ne_of_not_mem_cons hy).symm]

theorem give_zip {names : List Text} (parts : List Text) (hm : Tidy m) (hsimple : ∀ y ∈ names, '.' ∉ y) (hnodup : names.Nodup)
    (hlen : names.length = parts.length) :
    ∃ m', give (names.zip parts) m = .ok () m' ∧ names.map m'.interp.vars.peek? = parts.map some := by
  have hfst : (names.zip parts).map Prod.fst = names := map_fst_zip hlen.le
  have hsnd : (names.zip parts).map Prod.snd = parts := map_snd_zip hlen.ge
  obtain ⟨m', hgive, hread, -⟩ := give_reads (names.zip parts) hm
    (fun g hg => hsimple g.1 (hfst ▸ mem_map_of_mem hg)) (by rwa [hfst])
  refine ⟨m', hgive, ?_⟩
  have hpeek : (names.zip parts).map (m'.interp.vars.peek? ∘ Prod.fst) = (names.zip parts).map (some ∘ Prod.snd) := by
    refine map_congr_left fun g hg => ?_
    have hname : g.1 ∈ names := hfst ▸ mem_map_of_mem hg
    rw [Function.comp, peek?, ofText_simple (hsimple g.1 hname)]
    exact hread g hg
  rwa [← map_map, ← map_map, hfst, hsnd] at hpeek

/-- **Templates with texts between the variables lose nothing.** The texts that are found, one after the other, split
the source at their leftmost occurrences; the parts and the texts put together are the source. If all are found, the
variables get the parts. -/
theorem apply_splits (m : Machine σ) (x : Text) (steps : List Step) (s : Text) (hm : Tidy m)
    (hsimple : ∀ y ∈ x :: steps.map Step.name, '.' ∉ y) (hnodup : (x :: steps.map Step.name).Nodup)
    (hsteps : ∀ st ∈ steps, st.Seeks (x :: steps.map Step.name) m) :
    ∃ found missing lefts rest m',
      steps.map Step.text = found ++ missing ∧ Leftmost found s lefts rest ∧
      s = (List.zipWith (· ++ ·) lefts found).flatten ++ rest ∧
      (∀ p ∈ missing.head?, ¬ p <:+: rest) ∧
      apply Engine.fetch Engine.assign (alternating x steps) s m = .ok () m' ∧
      (x :: steps.map Step.name).map m'.interp.vars.peek? = (lefts ++ rest :: missing.map fun _ => []).map some := by
  obtain ⟨found, missing, lefts, rest, hpatterns, hleft, hmissing, hparts⟩ := partsOf_spec (steps.map Step.text) s
  have hwalk := walk_steps (x := x) hsteps hm hsimple List.mem_cons_self
    (fun st hst => List.mem_cons_of_mem _ (List.mem_map_of_mem hst)) s 0 0
  rw [List.drop_zero, hparts] at hwalk
  obtain ⟨m', hgive, hread⟩ := give_zip (lefts ++ rest :: missing.map fun _ => []) hm hsimple hnodup
    (by rw [← hparts, length_partsOf, List.length_cons, List.length_map, List.length_map])
  exact ⟨found, missing, lefts, rest, m', hpatterns, hleft, hleft.join, hmissing, hwalk.trans hgive, hread⟩

theorem tidy_idle : Tidy Machine.idle := by
  refine ⟨⟨fun h => ?_, fun h => ?_⟩, ⟨fun h => ?_, fun h => ?_⟩⟩ <;> cases h

def colons : Machine Unit := put Machine.idle "P" "::"

def mixed : List Step := [⟨.literal ",", ",", "Y"⟩, ⟨.pattern "P", "::", "Z"⟩, ⟨.literal ";", ";", "W"⟩]

theorem apply_splits_mixed :
    Tidy colons ∧ (∀ y ∈ ["X", "Y", "Z", "W"], '.' ∉ (y : Text)) ∧ (∀ st ∈ mixed, st.Seeks ["X", "Y", "Z", "W"] colons) ∧
    ∃ found missing lefts rest m',
      ([",", "::", ";"] : List Text) = found ++ missing ∧ Leftmost found "a,b,c::d" lefts rest ∧
      (∀ p ∈ missing.head?, ¬ p <:+: rest) ∧
      apply Engine.fetch Engine.assign (alternating "X" mixed) "a,b,c::d" colons = .ok () m' ∧
      (["X", "Y", "Z", "W"] : List Text).map m'.interp.vars.peek? = (lefts ++ rest :: missing.map fun _ => []).map some := by
  have htidy : Tidy colons := tidy_idle.put _ _
  have hsteps : ∀ st ∈ mixed, st.Seeks ["X", "Y", "Z", "W"] colons := by
    simp only [mixed, List.forall_mem_cons]
    refine ⟨⟨by decide, .inl rfl⟩, ⟨by decide, .inr ⟨"P", rfl, by decide, rfl⟩⟩, ⟨by decide, .inl rfl⟩, List.forall_mem_nil _⟩
  obtain ⟨found, missing, lefts, rest, m', hall, hleft, -, hmissing, hrun, hread⟩ :=
    apply_splits colons "X" mixed "a,b,c::d" htidy (by decide) (by decide) hsteps
  exact ⟨htidy, by decide, hsteps, found, missing, lefts, rest, m', hall, hleft, hmissing, hrun, hread⟩

end Template

end Rexx
