import Rexx.Proofs.Engine.Outcome
import Rexx.Proofs.Template.Words
import Rexx.Proofs.Variable.Assignment

/-!
# `Template.Walk` — what a template does with any text

The walk along a template cuts the source into segments, and hands each of them out to the variables between two
patterns.
-/

namespace Rexx

open Engine Fault List Piece Template

/-! ## The leftmost occurrence -/

namespace Text

variable {p s left right : Text}

theorem cut?_eq_some (h : cut? p s = some (left, right)) :
    s = left ++ p ++ right ∧ ∀ l r, s = l ++ p ++ r → left.length ≤ l.length := by
  induction s generalizing left with
  | nil =>
    rw [cut?] at h
    split at h <;> simp_all
  | cons c s ih =>
    rw [cut?] at h
    split at h
    · rename_i hp
      obtain ⟨r, hr⟩ := isPrefixOf_iff_prefix.1 hp
      cases h
      simp [← hr]
    · rename_i hp
      obtain ⟨⟨l, r⟩, hcut, heq⟩ := Option.map_eq_some_iff.1 h
      cases heq
      obtain ⟨rfl, hleast⟩ := ih hcut
      refine ⟨by simp, fun l' r' hs => ?_⟩
      cases l' with
      | nil => exact absurd (List.isPrefixOf_iff_prefix.2 ⟨r', hs.symm⟩) hp
      | cons d l' => exact Nat.succ_le_succ (hleast l' r' (cons.inj hs).2)

theorem cut?_eq_none (h : cut? p s = none) : ¬ p <:+: s := by
  rintro ⟨l, r, rfl⟩
  induction l with
  | nil =>
    cases hs : p ++ r with
    | nil => simp_all [cut?]
    | cons c s =>
      have hp : p.isPrefixOf (c :: s) = true := isPrefixOf_iff_prefix.2 ⟨r, hs⟩
      simp [hs, cut?, hp] at h
  | cons c l ih =>
    refine ih ?_
    simp only [cons_append] at h ⊢
    rw [cut?] at h
    split at h
    · cases h
    · simpa using h

end Text

/-! ## Patterns of any kind -/

namespace Piece

def sought {m : Type → Type} [Monad m] (fetch : Text → m Text) : Piece → m Text
  | .literal text => pure text
  | .pattern name => fetch name
  | _ => pure []

def place (src : Text) (pos origin : Nat) (wanted : Text) : Piece → Template.Place
  | .column n => Template.placeAt src pos (n - 1)
  | .offset n => Template.placeAt src pos (origin + n)
  | _ => Template.placeOf src pos wanted

end Piece

namespace Template

variable {src wanted : Text} {p : Piece} {ps : List Piece} {receivers : List (Option Text)} {pos origin : Nat}

structure Place.Within (src : Text) (pos : Nat) (place : Place) : Prop where
  start_le : pos ≤ place.stop
  stop_le : place.stop ≤ src.length
  next_le : place.next ≤ src.length

theorem placeOf_within (h : pos ≤ src.length) (wanted : Text) : (placeOf src pos wanted).Within src pos := by
  unfold placeOf
  split
  · exact ⟨h, le_rfl, le_rfl⟩
  · split
    · rename_i left right hcut
      have hlen := congrArg length (Text.cut?_eq_some hcut).1
      simp only [length_drop, length_append] at hlen
      constructor <;> dsimp only <;> omega
    · exact ⟨h, le_rfl, le_rfl⟩

theorem placeAt_within (h : pos ≤ src.length) (index : Int) : (placeAt src pos index).Within src pos := by
  unfold placeAt
  constructor
  · dsimp only
    split <;> omega
  · dsimp only
    split <;> omega
  · exact Nat.min_le_right _ _

theorem place_within (h : pos ≤ src.length) (p : Piece) (origin : Nat) (wanted : Text) :
    (p.place src pos origin wanted).Within src pos := by
  cases p with
  | column n => exact placeAt_within h _
  | offset n => exact placeAt_within h _
  | _ => exact placeOf_within h wanted

section

variable {m : Type → Type} [Monad m] {fetch : Text → m Text} {assign : Text → Text → m Unit}

theorem walk_pattern [LawfulMonad m] (h : p.receiver? = none) :
    walk fetch assign src (p :: ps) receivers pos origin = (do
      let wanted ← p.sought fetch
      fill assign src receivers pos (p.place src pos origin wanted).stop
      walk fetch assign src ps [] (p.place src pos origin wanted).next (p.place src pos origin wanted).origin) := by
  cases p <;> cases h <;> simp [walk, sought, place]

end

/-! ## Segments -/

/-- A part of the source, and what stands for it in the template. -/
structure Segment where
  receivers : List (Option Text)
  start : Nat
  stop : Nat

def named (receivers : List (Option Text)) (shares : List Text) : List (Text × Text) :=
  (receivers.zip shares).filterMap fun x => x.1.map (·, x.2)

def Segment.gifts (src : Text) (g : Segment) : List (Text × Text) :=
  named g.receivers (share g.receivers.length ((src.take g.stop).drop g.start))

variable {σ : Type} {m m' : Machine σ} {gifts gifts' : List (Text × Text)} {F : Condition → Prop}

def valueOf (c : Engine σ Text) (m : Machine σ) : Text :=
  match c m with
  | .ok v _ => v
  | .error _ _ => []

def stateAfter (c : Engine σ Unit) (m : Machine σ) : Machine σ :=
  match c m with
  | .ok _ m' => m'
  | .error _ m' => m'

def segmentsFrom (src : Text) : List Piece → List (Option Text) → (pos origin : Nat) → Machine σ → List Segment
  | [], receivers, pos, _, _ => [⟨receivers, pos, src.length⟩]
  | p :: ps, receivers, pos, origin, m =>
    match p.receiver? with
    | some r => segmentsFrom src ps (receivers ++ [r]) pos origin m
    | none =>
      let place := p.place src pos origin (valueOf (p.sought Engine.fetch) m)
      ⟨receivers, pos, place.stop⟩ ::
        segmentsFrom src ps [] place.next place.origin (stateAfter (fill Engine.assign src receivers pos place.stop) m)

def segments (src : Text) (template : List Piece) (m : Machine σ) : List Segment := segmentsFrom src template [] 0 0 m

/-- What a template gives to which variables. -/
def giftsOf (src : Text) (template : List Piece) (m : Machine σ) : List (Text × Text) :=
  (segments src template m).flatMap (Segment.gifts src)

theorem segmentsFrom_receiver {r : Option Text} (h : p.receiver? = some r) (m : Machine σ) :
    segmentsFrom src (p :: ps) receivers pos origin m = segmentsFrom src ps (receivers ++ [r]) pos origin m := by
  rw [segmentsFrom, h]

theorem segmentsFrom_pattern (h : p.receiver? = none) {place : Place}
    (hplace : place = p.place src pos origin (valueOf (p.sought fetch) m)) :
    segmentsFrom src (p :: ps) receivers pos origin m = ⟨receivers, pos, place.stop⟩ ::
      segmentsFrom src ps [] place.next place.origin (stateAfter (fill assign src receivers pos place.stop) m) := by
  rw [segmentsFrom, h, hplace]

theorem receivers_segmentsFrom (ps : List Piece) (receivers : List (Option Text)) (pos origin : Nat) (m : Machine σ) :
    (segmentsFrom src ps receivers pos origin m).flatMap Segment.receivers =
      receivers ++ ps.filterMap receiver? := by
  induction ps generalizing receivers pos origin m with
  | nil => simp [segmentsFrom]
  | cons p ps ih =>
    cases h : p.receiver? with
    | some r => rw [segmentsFrom_receiver h, ih, filterMap_cons_some h, append_assoc, singleton_append]
    | none => rw [segmentsFrom_pattern h rfl, flatMap_cons, ih, filterMap_cons_none h, nil_append]

theorem segmentsFrom_within (ps : List Piece) (receivers : List (Option Text)) (origin : Nat) (m : Machine σ)
    (h : pos ≤ src.length) : ∀ g ∈ segmentsFrom src ps receivers pos origin m, g.start ≤ g.stop ∧ g.stop ≤ src.length := by
  induction ps generalizing receivers pos origin m with
  | nil => simpa [segmentsFrom] using h
  | cons p ps ih =>
    cases hr : p.receiver? with
    | some r =>
      rw [segmentsFrom_receiver hr]
      exact ih _ _ _ h
    | none =>
      rw [segmentsFrom_pattern hr rfl]
      have hin := place_within h p origin (valueOf (p.sought fetch) m)
      exact forall_mem_cons.2 ⟨⟨hin.start_le, hin.stop_le⟩, ih _ _ _ hin.next_le⟩

/-! ## Shares -/

theorem share_isInfix (n : Nat) (t : Text) : ∀ s ∈ share n t, s <:+: t := by
  fun_induction share n t with
  | case1 => simp
  | case2 => simp
  | case3 n t ih =>
    have hword : (firstWord t).1 <:+: t :=
      (List.takeWhile_prefix _).isInfix.trans (dropWhile_suffix _).isInfix
    have hrest : (firstWord t).2 <:+: t :=
      (((drop_suffix _ _).trans (dropWhile_suffix _)).trans (dropWhile_suffix _)).isInfix
    exact forall_mem_cons.2 ⟨hword, fun s hs => (ih s hs).trans hrest⟩

theorem names_named {shares : List Text} (h : receivers.length ≤ shares.length) :
    (named receivers shares).map Prod.fst = receivers.reduceOption := by
  induction receivers generalizing shares with
  | nil => rfl
  | cons r rs ih =>
    cases shares with
    | nil => cases h
    | cons s ss =>
      cases r <;> simp_all [named, reduceOption]

theorem gifts_isInfix (g : Segment) : ∀ x ∈ g.gifts src, x.2 <:+: src := by
  intro x hx
  obtain ⟨⟨r, s⟩, hrs, hx⟩ := mem_filterMap.1 hx
  obtain ⟨name, -, rfl⟩ := Option.map_eq_some_iff.1 hx
  exact (share_isInfix _ _ s (of_mem_zip hrs).2).trans
    ((drop_suffix _ _).isInfix.trans (List.take_prefix _ _).isInfix)

/-- The variables of a template, in order. -/
def namesOf (template : List Piece) : List Text := (template.filterMap Piece.receiver?).reduceOption

theorem names_gifts (src : Text) (g : Segment) : (g.gifts src).map Prod.fst = g.receivers.reduceOption :=
  names_named (length_share _ _).ge

theorem names_flatMap (gs : List Segment) :
    (gs.flatMap (Segment.gifts src)).map Prod.fst = (gs.flatMap Segment.receivers).reduceOption := by
  induction gs with
  | nil => rfl
  | cons g gs ih => rw [flatMap_cons, map_append, names_gifts, ih, flatMap_cons, reduceOption_append]

/-! ## Assigning -/

def give (gifts : List (Text × Text)) : Engine σ Unit := gifts.forM fun x => Engine.assign x.1 x.2

theorem give_cons (x : Text × Text) : (give (x :: gifts) : Engine σ Unit) = assign x.1 x.2 >>= fun _ => give gifts := rfl

theorem assignAll_eq_give (receivers : List (Option Text)) (shares : List Text) :
    (assignAll assign receivers shares : Engine σ Unit) = give (named receivers shares) := by
  induction receivers generalizing shares with
  | nil => rfl
  | cons r rs ih =>
    cases shares with
    | nil => cases r <;> rfl
    | cons s ss =>
      cases r with
      | none => exact ih ss
      | some name => exact congrArg (fun c => assign name s >>= fun _ => c) (ih ss)

theorem give_append : (give (gifts ++ gifts') : Engine σ Unit) = give gifts >>= fun _ => give gifts' := by
  simp [give]

/-- A run assigns the gifts one after the other; it may be cut short by a condition of which `F` holds. -/
inductive Hands (F : Condition → Prop) (gifts : List (Text × Text)) (m : Machine σ) : Engine.Result σ Unit → Prop
  | all {m' : Machine σ} (h : give gifts m = .ok () m') : Hands F gifts m (.ok () m')
  | cut {made : List (Text × Text)} {m' : Machine σ} {c : Condition} (hmade : made <+: gifts)
    (h : give made m = .ok () m') (hc : F c) : Hands F gifts m (.error (.raised c) m')

theorem Hands.bind {a b : Engine σ Unit} (h : Hands F gifts m (a m))
    (h' : ∀ m1, give gifts m = .ok () m1 → Hands F gifts' m1 (b m1)) :
    Hands F (gifts ++ gifts') m ((a >>= fun _ => b) m) := by
  cases ha : a m with
  | error e m1 =>
    rw [ha] at h
    rw [bind_of_error ha]
    cases h with
    | cut hmade hgive hc => exact .cut (hmade.trans (prefix_append _ _)) hgive hc
  | ok v m1 =>
    rw [ha] at h
    rw [bind_of_ok ha]
    cases h with
    | all hgive =>
      -- what the second part makes comes after all that the first one has made
      have hmore {gs : List (Text × Text)} {m2 : Machine σ} (h2 : give gs m1 = .ok () m2) :
          give (gifts ++ gs) m = .ok () m2 := by
        rw [give_append, bind_of_ok hgive, h2]
      cases hb : b m1 with
      | ok v m2 =>
        have hnext := h' m1 hgive
        rw [hb] at hnext
        cases hnext with
        | all h2 => exact .all (hmore h2)
      | error e m2 =>
        have hnext := h' m1 hgive
        rw [hb] at hnext
        cases hnext with
        | cut hmade h2 hc => exact .cut ((prefix_append_right_inj gifts).2 hmade) (hmore h2) hc

variable {v : Variables} {name value : Text}

theorem assign?_eq_none (h : v.assign? name value = none) : name.head? = some '.' := by
  by_contra hne
  unfold Variables.assign? at h
  obtain ⟨-, hn⟩ | ⟨a, rest, -, -, ⟨-, hn⟩ | ⟨-, hn⟩⟩ := VarName.ofText_cases hne <;> rw [hn] at h <;> cases h

theorem assign_of_some (h : m.interp.vars.assign? name value = some v) :
    assign name value m = .ok () (m.modifyInterp fun i => i.setVariables v) := by
  rw [assign, bind_of_ok (interp_apply m), h]
  rfl

theorem Hands.give (hF : ∀ x ∈ gifts, x.1.head? = some '.' → F (badName x.1).condition) (m : Machine σ) :
    Hands F gifts m (give gifts m) := by
  induction gifts generalizing m with
  | nil => exact .all rfl
  | cons x gifts ih =>
    obtain ⟨hx, hF⟩ := forall_mem_cons.1 hF
    have hone : Hands F [x] m (assign x.1 x.2 m) := by
      cases hv : m.interp.vars.assign? x.1 x.2 with
      | some v =>
        rw [assign_of_some hv]
        refine .all ?_
        rw [give_cons, bind_of_ok (assign_of_some hv)]
        rfl
      | none =>
        rw [assign, bind_of_ok (interp_apply m), hv]
        exact .cut nil_prefix rfl (hx (assign?_eq_none hv))
    exact hone.bind fun m1 _ => ih hF m1

theorem fetch_cases (name : Text) (m : Machine σ) : (∃ v, fetch name m = .ok v m) ∨
      ∃ f : Fault, f.event = .novalue ∧ fetch name m = .error (.raised f.condition) m := by
  rw [fetch, bind_of_ok (interp_apply m)]
  cases m.interp.vars.peek? name with
  | some v => exact .inl ⟨v, rfl⟩
  | none =>
    split
    · exact .inl ⟨name, rfl⟩
    · split
      · exact .inr ⟨.noValue _, rfl, rfl⟩
      · split
        · exact .inr ⟨.uninitialized _, rfl, rfl⟩
        · exact .inl ⟨_, rfl⟩

/-- What taking a text apart may raise: NOVALUE for a variable that is a pattern, and the error for a bad name, of which the
number is 31, for a variable whose name begins with a point. -/
def Raises (template : List Piece) (c : Condition) : Prop :=
  (∃ name f, .pattern name ∈ template ∧ Fault.event f = .novalue ∧ c = f.condition) ∨
    ∃ name ∈ namesOf template, name.head? = some '.' ∧ c = (Fault.badName name).condition

theorem sought_cases (p : Piece) (m : Machine σ) : (∃ v, p.sought fetch m = .ok v m) ∨
      ∃ name f, p = .pattern name ∧ event f = .novalue ∧ p.sought fetch m = .error (.raised f.condition) m := by
  cases p with
  | pattern name =>
    obtain hv | ⟨f, hf, h⟩ := fetch_cases name m
    · exact .inl hv
    · exact .inr ⟨name, f, rfl, hf, h⟩
  | _ => exact .inl ⟨_, rfl⟩

theorem Hands.fill (receivers : List (Option Text)) (pos stop : Nat) (m : Machine σ)
    (hF : ∀ name ∈ receivers.reduceOption, name.head? = some '.' → F (badName name).condition) :
    Hands F (Segment.gifts src ⟨receivers, pos, stop⟩) m (fill assign src receivers pos stop m) := by
  rw [Template.fill, assignAll_eq_give]
  refine Hands.give (fun x hx => hF x.1 ?_) m
  rw [← names_gifts src ⟨receivers, pos, stop⟩]
  exact mem_map_of_mem hx

theorem Hands.walk (ps : List Piece) (receivers : List (Option Text)) (pos origin : Nat) (m : Machine σ)
    (hpattern : ∀ name f, .pattern name ∈ ps → event f = .novalue → F f.condition)
    (hname : ∀ name ∈ (receivers ++ ps.filterMap receiver?).reduceOption,
      name.head? = some '.' → F (badName name).condition) :
    Hands F ((segmentsFrom src ps receivers pos origin m).flatMap (Segment.gifts src)) m
      (walk fetch assign src ps receivers pos origin m) := by
  induction ps generalizing receivers pos origin m with
  | nil =>
    rw [filterMap_nil, append_nil] at hname
    simpa [segmentsFrom, Template.walk] using Hands.fill receivers pos src.length m hname
  | cons p ps ih =>
    have hpattern' : ∀ name f, .pattern name ∈ ps → event f = .novalue → F f.condition :=
      fun name f h => hpattern name f (mem_cons_of_mem _ h)
    cases hr : p.receiver? with
    | some r =>
      rw [walk_receiver hr, segmentsFrom_receiver hr]
      rw [filterMap_cons_some hr, append_cons] at hname
      exact ih _ _ _ m hpattern' hname
    | none =>
      rw [filterMap_cons_none hr, reduceOption_append] at hname
      rw [walk_pattern hr, segmentsFrom_pattern hr rfl]
      obtain ⟨v, hv⟩ | ⟨name, f, rfl, hf, herror⟩ := sought_cases p m
      · have hvalue : valueOf (p.sought fetch) m = v := by rw [valueOf, hv]
        rw [bind_of_ok hv, hvalue]
        refine (Hands.fill _ _ _ m fun name hn => hname name (mem_append_left _ hn)).bind fun m1 hm1 => ?_
        -- the next segment starts from the machine in which this one has been handed out
        have hstate : stateAfter (Template.fill Engine.assign src receivers pos (p.place src pos origin v).stop) m = m1 := by
          rw [stateAfter, Template.fill, assignAll_eq_give]
          rw [Segment.gifts] at hm1
          rw [hm1]
        rw [hstate]
        exact ih _ _ _ m1 hpattern' fun name hn => hname name (mem_append_right _ hn)
      · rw [bind_of_error herror]
        exact .cut nil_prefix rfl (hpattern name f mem_cons_self hf)

/-! ## Columns -/

theorem placeAt_column {c : Int} (h : c ≤ src.length + 1) (pos : Nat) :
    placeAt src pos (c - 1) = ⟨if pos < (c - 1).toNat then (c - 1).toNat else src.length, (c - 1).toNat, (c - 1).toNat⟩ := by
  unfold placeAt
  rw [Nat.min_eq_left (by omega)]

theorem gifts_columns (before after : List Piece) (x : Text) {c1 c2 : Int} (h1 : 1 ≤ c1) (hlt : c1 < c2)
    (h2 : c2 ≤ src.length + 1) (receivers : List (Option Text)) (pos origin : Nat) (m : Machine σ) :
    ∃ gs gs', (segmentsFrom src (before ++ .column c1 :: .var x :: .column c2 :: after) receivers pos origin m).flatMap
        (Segment.gifts src) = gs ++ (x, (src.take (c2 - 1).toNat).drop (c1 - 1).toNat) :: gs' ∧
      gs.map Prod.fst = (receivers ++ before.filterMap receiver?).reduceOption := by
  induction before generalizing receivers pos origin m with
  | nil =>
    have hplace1 := placeAt_column (show c1 ≤ src.length + 1 by omega) pos
    have hplace2 := placeAt_column h2 (c1 - 1).toNat
    -- the second column lies after the first, so the segment between them ends there
    rw [if_pos (by omega)] at hplace2
    rw [nil_append, segmentsFrom_pattern rfl hplace1.symm, segmentsFrom_receiver rfl, segmentsFrom_pattern rfl hplace2.symm]
    exact ⟨_, _, rfl, by simpa using names_gifts src _⟩
  | cons p before ih =>
    rw [cons_append]
    cases hr : p.receiver? with
    | some r =>
      rw [segmentsFrom_receiver hr, filterMap_cons_some hr]
      simpa using ih (receivers ++ [r]) pos origin m
    | none =>
      rw [segmentsFrom_pattern hr rfl, filterMap_cons_none hr, flatMap_cons]
      obtain ⟨gs, gs', hgs, hnames⟩ := ih [] _ _ _
      rw [nil_append] at hnames
      rw [hgs, ← append_assoc]
      exact ⟨_, gs', rfl, by rw [map_append, names_gifts, hnames, reduceOption_append]⟩

/-- **A template is safe on every source.** All segments lie in the source. Each variable is given one part of the source, in
the order of the template, and between two columns this part is what the columns say. A run assigns exactly this, unless a
condition cuts it short. -/
theorem apply_safe (template : List Piece) (src : Text) (m : Machine σ) :
    (∀ g ∈ segments src template m, g.start ≤ g.stop ∧ g.stop ≤ src.length) ∧
    (giftsOf src template m).map Prod.fst = namesOf template ∧
    (∀ x ∈ giftsOf src template m, x.2 <:+: src) ∧
    (∀ before x (c1 c2 : Int) after, template = before ++ .column c1 :: .var x :: .column c2 :: after →
      1 ≤ c1 → c1 < c2 → c2 ≤ src.length + 1 →
      (giftsOf src template m)[(namesOf before).length]? = some (x, (src.take (c2 - 1).toNat).drop (c1 - 1).toNat)) ∧
    Hands (Raises template) (giftsOf src template m) m (apply Engine.fetch Engine.assign template src m) := by
  refine ⟨segmentsFrom_within _ _ _ m (Nat.zero_le _), ?_, ?_, ?_, ?_⟩
  · rw [giftsOf, names_flatMap, segments, receivers_segmentsFrom]
    rfl
  · intro x hx
    obtain ⟨g, -, hx⟩ := List.mem_flatMap.1 hx
    exact gifts_isInfix g x hx
  · rintro before x c1 c2 after rfl h1 hlt h2
    obtain ⟨gs, gs', hgs, hnames⟩ := gifts_columns before after x h1 hlt h2 [] 0 0 m
    rw [List.nil_append] at hnames
    rw [giftsOf, segments, hgs, namesOf, ← hnames, List.length_map]
    simp
  · exact Hands.walk template [] 0 0 m (fun name f h hf => .inl ⟨name, f, h, hf, rfl⟩)
      fun name hn hdot => .inr ⟨name, hn, hdot, rfl⟩

end Template

end Rexx
