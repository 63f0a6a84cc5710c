import Mathlib
import Rexx.Machine.State

/-!
# `Module.Loading` — a module is loaded whole or not at all

All names that a module declares are checked before any of them is registered.
-/

namespace Rexx

open Declared List Text

variable {σ α : Type} {ds : List (Declared α)} {key : Declared α → Text}

/-! ## One table -/

theorem Table.getElem?_insert (t : Table α) (k name : Text) (v : α) :
    (t.insert k v)[name]? = if k = name then some v else t[name]? := by
  rw [Std.TreeMap.getElem?_insert]
  simp only [Std.LawfulEqCmp.compare_eq_iff_eq]

def Table.Admits (t : Table (Entry α)) (owner : Text) (names : List Text) : Prop :=
  ∀ name ∈ names, ∀ e, t[name]? = some e → e.owner = owner

/-- **Declarations are taken over into a table**: under the name of each stands the last one that has the name, and nothing
else has changed. -/
structure Table.TakesOver (t : Table (Entry α)) (owner : Text) (key : Declared α → Text) (ds : List (Declared α))
    (t' : Table (Entry α)) : Prop where
  registered : ∀ before d after, ds = before ++ d :: after → (∀ d' ∈ after, key d' ≠ key d) →
    t'[key d]? = some ⟨d.code, owner, d.desc, d.params⟩
  owned : ∀ d ∈ ds, ∃ e, t'[key d]? = some e ∧ e.owner = owner
  others : ∀ name, name ∉ ds.map key → t'[name]? = t[name]?

variable {e : Entry α} {owner : Text} {t t' : Table (Entry α)} {name : Text}

theorem Declared.exists_last (h : name ∈ ds.map key) :
    ∃ before d after, ds = before ++ d :: after ∧ key d = name ∧ ∀ d' ∈ after, key d' ≠ key d := by
  induction ds with
  | nil => cases h
  | cons d ds ih =>
    by_cases hlater : name ∈ ds.map key
    · obtain ⟨before, d', after, rfl, hkey, hlast⟩ := ih hlater
      exact ⟨d :: before, d', after, rfl, hkey, hlast⟩
    · obtain rfl : name = key d := (mem_cons.1 h).resolve_right hlater
      exact ⟨[], d, ds, rfl, rfl, fun d' hd' heq => hlater (mem_map.2 ⟨d', hd', heq⟩)⟩

theorem Table.TakesOver.cases (h : t.TakesOver owner key ds t') (he : t'[name]? = some e) :
    t[name]? = some e ∨ ∃ d ∈ ds, e.code = d.code := by
  by_cases hname : name ∈ ds.map key
  · obtain ⟨before, d, after, hds, rfl, hlast⟩ := exists_last hname
    cases (h.registered before d after hds hlast).symm.trans he
    exact .inr ⟨d, by simp [hds], rfl⟩
  · exact .inl ((h.others name hname).symm.trans he)

theorem Table.TakesOver.kept (h : t.TakesOver owner key ds t') (hadmits : t.Admits owner (ds.map key))
    (he : t[name]? = some e) (hne : e.owner ≠ owner) : t'[name]? = some e := by
  rw [h.others name fun hmem => hne (hadmits name hmem e he)]
  exact he

namespace Loader

theorem conflict?_eq_none_iff {kind : Provision} {t : Table (Entry α)} {id : Text} {names : List Text} :
    conflict? kind t id names = none ↔ t.Admits id names := by
  unfold conflict?
  rw [findSome?_eq_none_iff]
  refine forall₂_congr fun name _ => ?_
  cases t[name]? with
  | none => simp
  | some e => simp

def enter (id : Text) (key : Declared α → Text) (t : Table (Entry α)) (d : Declared α) : Table (Entry α) :=
  t.insert (key d) ⟨d.code, id, d.desc, d.params⟩

theorem getElem?_enter (id : Text) (key : Declared α → Text) (t : Table (Entry α)) (d : Declared α) (name : Text) :
    (enter id key t d)[name]? = if key d = name then some ⟨d.code, id, d.desc, d.params⟩ else t[name]? :=
  t.getElem?_insert ..

theorem register_eq_foldl (id : Text) (key : Declared α → Text) (t : Table (Entry α)) (ds : List (Declared α)) :
    register id t ds (ds.map key) = ds.foldl (enter id key) t := by
  induction ds generalizing t with
  | nil => rfl
  | cons d ds ih => exact ih _

theorem foldl_enter_others (id : Text) (key : Declared α → Text) (t : Table (Entry α)) (ds : List (Declared α))
    {name : Text} (h : name ∉ ds.map key) : (ds.foldl (enter id key) t)[name]? = t[name]? := by
  induction ds generalizing t with
  | nil => rfl
  | cons d ds ih =>
    rw [map_cons, mem_cons, not_or] at h
    rw [foldl_cons, ih _ h.2, getElem?_enter, if_neg fun heq => h.1 heq.symm]

theorem register_takesOver (id : Text) (key : Declared α → Text) (t : Table (Entry α)) (ds : List (Declared α)) :
    t.TakesOver id key ds (register id t ds (ds.map key)) := by
  have hregistered : ∀ before d after, ds = before ++ d :: after → (∀ d' ∈ after, key d' ≠ key d) →
      (register id t ds (ds.map key))[key d]? = some ⟨d.code, id, d.desc, d.params⟩ := by
    intro before d after hds hlast
    have hd : key d ∉ after.map key := by
      rw [mem_map]
      rintro ⟨d', hd', heq⟩
      exact hlast d' hd' heq
    rw [register_eq_foldl, hds, foldl_append, foldl_cons, foldl_enter_others _ _ _ _ hd, getElem?_enter,
      if_pos rfl]
  refine ⟨hregistered, fun d hd => ?_, fun name hname => ?_⟩
  · have hmem : key d ∈ ds.map key := mem_map_of_mem hd
    obtain ⟨before, d', after, hds, hkey, hlast⟩ := exists_last hmem
    rw [← hkey]
    exact ⟨_, hregistered before d' after hds hlast, rfl⟩
  · rw [register_eq_foldl]
    exact foldl_enter_others id key t ds hname

end Loader

/-! ## All tables -/

def Declared.functionName (as : Text) (f : Declared α) : Text := Loader.functionLead as ++ Text.upper f.name

def Declared.operationName (o : Declared α) : Text := Text.upper o.name

def Target.nameAs (t : Target σ) (as : Text) : Text := Text.upper (if as.isEmpty then t.name else as)

/-- The identity of the module that an image brings in: the one that it declares, or else that of the image. -/
def Image.identity (image : Image σ) (d : Declaration σ) : Text := if d.id.isEmpty then image.id else d.id

namespace Provisions

/-- **A declaration that is taken over** declares either a target alone or at least one function or operation, under names
that nobody else has. -/
inductive Admits (p : Provisions σ) (d : Declaration σ) (id as : Text) : Prop where
  | target {t : Target σ} (target : d.target = some t) (functions : d.functions = []) (operations : d.operations = [])
      (free : ∀ b, p.targets[t.nameAs as]? = some b → b.owner = id)
  | code (target : d.target = none) (some : d.functions ≠ [] ∨ d.operations ≠ [])
      (functions : p.functions.Admits id (d.functions.map (Declared.functionName as)))
      (operations : p.operations.Admits id (d.operations.map Declared.operationName))

/-- **What is registered when a declaration is taken over**, and what another owner has stays. -/
structure TakesOver (p : Provisions σ) (d : Declaration σ) (id as : Text) (p' : Provisions σ) : Prop where
  functions : p.functions.TakesOver id (Declared.functionName as) d.functions p'.functions
  operations : p.operations.TakesOver id Declared.operationName d.operations p'.operations
  target : ∀ t, d.target = some t → p'.targets[t.nameAs as]? = some ⟨t, [], id⟩
  otherTargets : ∀ name, (∀ t, d.target = some t → t.nameAs as ≠ name) → p'.targets[name]? = p.targets[name]?

variable {p p' : Provisions σ} {d : Declaration σ} {id as : Text}

/-- Nothing that another owner has is replaced. -/
structure KeepsForeign (p : Provisions σ) (id : Text) (p' : Provisions σ) : Prop where
  functions : ∀ (name : Text) e, p.functions[name]? = some e → e.owner ≠ id → p'.functions[name]? = some e
  operations : ∀ (name : Text) e, p.operations[name]? = some e → e.owner ≠ id → p'.operations[name]? = some e
  targets : ∀ (name : Text) b, p.targets[name]? = some b → b.owner ≠ id → p'.targets[name]? = some b

theorem Admits.functions (h : p.Admits d id as) : p.functions.Admits id (d.functions.map (functionName as)) := by
  cases h with
  | target _ hf _ _ => simp [hf, Table.Admits]
  | code _ _ hf _ => exact hf

theorem Admits.operations (h : p.Admits d id as) : p.operations.Admits id (d.operations.map operationName) := by
  cases h with
  | target _ _ ho _ => simp [ho, Table.Admits]
  | code _ _ _ ho => exact ho

theorem TakesOver.keepsForeign (h : p.TakesOver d id as p') (hadmits : p.Admits d id as) : p.KeepsForeign id p' where
  functions name e he hne := h.functions.kept hadmits.functions he hne
  operations name e he hne := h.operations.kept hadmits.operations he hne
  targets name b hb hne := by
    refine (h.otherTargets name ?_).trans hb
    intro t ht heq
    cases hadmits with
    | target ht' _ _ hfree =>
      rw [ht] at ht'
      cases ht'
      exact hne (hfree b (heq ▸ hb))
    | code ht' _ _ _ =>
      rw [ht] at ht'
      cases ht'

end Provisions

namespace Loader

variable {p p' : Provisions σ} {d : Declaration σ} {id spec as : Text} {reg : Registration}

/-- What is remembered of a module that is taken over. -/
def registrationOf (d : Declaration σ) (id spec as : Text) : Registration :=
  ⟨id, spec, d.desc, d.functions.map (Declared.functionName as), d.operations.map Declared.operationName,
    d.target.map (Target.nameAs · as)⟩

theorem upper_upper (s : Text) : upper (upper s) = upper s := by
  unfold upper
  rw [map_map]
  exact map_congr_left fun c _ => c.toUpper_toUpper_eq_toUpper

theorem nameAs_nameAs (t : Target σ) (as : Text) : t.nameAs (t.nameAs as) = t.nameAs as := by
  unfold Target.nameAs
  cases as with
  | nil =>
    cases t.name with
    | nil => rfl
    | cons c s => exact upper_upper (c :: s)
  | cons c s => exact upper_upper (c :: s)

theorem add_of_free {r : Registry σ} {t : Target σ} {auth owner : Text}
    (h : ∀ b, r[t.nameAs as]? = some b → b.owner = owner) :
    r.add t as auth owner = .ok (r.insert (t.nameAs as) ⟨t, auth, owner⟩) := by
  unfold Registry.add Target.nameAs at *
  dsimp only
  split
  · rename_i b hb
    rw [if_pos (h b hb)]
  · rfl

theorem add_of_taken {r : Registry σ} {t : Target σ} {auth owner : Text} {b : Binding σ}
    (hb : r[t.nameAs as]? = some b) (hne : b.owner ≠ owner) :
    r.add t as auth owner = .error ⟨.target, t.nameAs as, b.owner⟩ := by
  unfold Registry.add Target.nameAs at *
  simp only [hb, if_neg hne]

theorem merge_of_admits (h : p.Admits d id as) (spec : Text) :
    ∃ p', merge p d id spec as = .ok (p', registrationOf d id spec as) ∧ p.TakesOver d id as p' := by
  cases h with
  | @target t ht hf ho hfree =>
    have hadd : p.targets.add t (t.nameAs as) [] id = .ok (p.targets.insert (t.nameAs as) ⟨t, [], id⟩) := by
      rw [add_of_free (by rw [nameAs_nameAs]; exact hfree), nameAs_nameAs]
    have hget : ∀ name : Text, (p.targets.insert (t.nameAs as) ⟨t, [], id⟩)[name]? =
        if t.nameAs as = name then some ⟨t, [], id⟩ else p.targets[name]? :=
      fun name => Table.getElem?_insert ..
    refine ⟨{ p with targets := p.targets.insert (t.nameAs as) ⟨t, [], id⟩ }, ?_, ?_, ?_, ?_, ?_⟩
    · rw [merge]
      simp only [hf, ho, registrationOf, ht]
      rw [show upper (if as.isEmpty then t.name else as) = t.nameAs as from rfl, hadd]
      rfl
    · rw [hf]
      exact register_takesOver id _ p.functions []
    · rw [ho]
      exact register_takesOver id _ p.operations []
    · intro t' ht'
      rw [ht] at ht'
      cases ht'
      rw [hget, if_pos rfl]
    · intro name hname
      rw [hget, if_neg (hname t ht)]
  | code ht hsome hf ho =>
    let functions := register id p.functions d.functions (d.functions.map (functionName as))
    let operations := register id p.operations d.operations (d.operations.map operationName)
    refine ⟨{ p with functions, operations }, ?_, register_takesOver id (functionName as) p.functions d.functions,
      register_takesOver id operationName p.operations d.operations, ?_, fun _ _ => rfl⟩
    · have hsome : ¬ (d.functions.isEmpty && d.operations.isEmpty) = true := by
        simpa [List.isEmpty_iff, imp_iff_not_or] using hsome
      have hf : conflict? .function p.functions id (d.functions.map fun f => functionLead as ++ upper f.name) = none :=
        conflict?_eq_none_iff.2 hf
      have ho : conflict? .operation p.operations id (d.operations.map fun o => upper o.name) = none :=
        conflict?_eq_none_iff.2 ho
      rw [merge, ht]
      dsimp only
      rw [if_neg hsome, hf, ho, registrationOf, ht]
      rfl
    · intro t ht'
      rw [ht] at ht'
      cases ht'

theorem merge_of_not_admits (h : ¬ p.Admits d id as) (spec : Text) : ∃ f, merge p d id spec as = .error f := by
  cases ht : d.target with
  | some t =>
    rw [merge, ht]
    dsimp only
    split
    · exact ⟨_, rfl⟩
    · rename_i hempty
      simp only [Bool.or_eq_true, Bool.not_eq_true', isEmpty_eq_false_iff, not_or, not_not] at hempty
      -- The declaration is a target alone, so somebody else has the name.
      have htaken : ∃ b, p.targets[t.nameAs as]? = some b ∧ b.owner ≠ id := by
        by_contra hfree
        push Not at hfree
        exact h (.target ht hempty.1 hempty.2 hfree)
      obtain ⟨b, hb, hne⟩ := htaken
      have hadd : p.targets.add t (t.nameAs as) [] id = .error _ := add_of_taken ((nameAs_nameAs t as).symm ▸ hb) hne
      rw [show upper (if as.isEmpty then t.name else as) = t.nameAs as from rfl, hadd]
      exact ⟨_, rfl⟩
  | none =>
    rw [merge, ht]
    dsimp only
    split
    · exact ⟨_, rfl⟩
    · rename_i hsome
      split
      · exact ⟨_, rfl⟩
      · exact ⟨_, rfl⟩
      · rename_i hf ho
        refine absurd (.code ht ?_ (conflict?_eq_none_iff.1 hf) (conflict?_eq_none_iff.1 ho)) h
        simpa [imp_iff_not_or] using hsome

theorem merge_spec (h : merge p d id spec as = .ok (p', reg)) :
    p.Admits d id as ∧ reg = registrationOf d id spec as ∧ p.TakesOver d id as p' := by
  by_cases ha : p.Admits d id as
  · obtain ⟨p'', hm, htakes⟩ := merge_of_admits ha spec
    rw [hm] at h
    cases h
    exact ⟨ha, rfl, htakes⟩
  · obtain ⟨f, hm⟩ := merge_of_not_admits ha spec
    rw [hm] at h
    cases h

/-! ## Loading -/

/-- The specifier leads to an image that has not been loaded before, and the entry of the image makes a declaration.
-/
structure Declares (s : State σ) (sp : SearchPath σ) (spec : Text) (image : Image σ) (d : Declaration σ) (host : σ) :
    Prop where
  resolved : s.loader.resolve sp spec = .ok image
  unknown : s.loader.known? image = none
  detected : ∃ detect, image.detect = some detect ∧ detect s.host = .ok d host

/-- The loader that has seen an image, which brings in the module with an identity. -/
def sees (l : Loader σ) (image : Image σ) (id : Text) : Loader σ := { l with seen := l.seen.insert image.id id }

def holds (l : Loader σ) (id : Text) (reg : Registration) : Loader σ := { l with loaded := l.loaded.insert id reg }

/-- **The ways in which loading goes**, with the module that is taken over, if one is. -/
inductive Loads (s : State σ) (sp : SearchPath σ) (spec as : Text) :
    Option Text → Except ModuleFault Registration → State σ → Prop where
  | fails {f : ModuleFault} (host : σ) (h : ∀ image d host, ¬ Declares s sp spec image d host)
      (unknown : ∀ image, s.loader.resolve sp spec = .ok image → s.loader.known? image = none) :
      Loads s sp spec as none (.error f) { s with host }
  | known {image : Image σ} {reg : Registration} (resolved : s.loader.resolve sp spec = .ok image)
      (known : s.loader.known? image = some reg) : Loads s sp spec as none (.ok reg) s
  | again {image : Image σ} {d : Declaration σ} {host : σ} {reg : Registration} (h : Declares s sp spec image d host)
      (loaded : s.loader.loaded[image.identity d]? = some reg) :
      Loads s sp spec as none (.ok reg) { s with loader := s.loader.sees image (image.identity d), host }
  | rejected {image : Image σ} {d : Declaration σ} {host : σ} {f : ModuleFault} (h : Declares s sp spec image d host)
      (new : s.loader.loaded[image.identity d]? = none)
      (rejected : merge s.provisions d (image.identity d) spec as = .error f) :
      Loads s sp spec as none (.error f) { s with host }
  | merged {image : Image σ} {d : Declaration σ} {host : σ} {p : Provisions σ} {reg : Registration}
      (h : Declares s sp spec image d host) (new : s.loader.loaded[image.identity d]? = none)
      (merged : merge s.provisions d (image.identity d) spec as = .ok (p, reg)) :
      Loads s sp spec as (some (image.identity d)) (.ok reg)
        ⟨(s.loader.sees image (image.identity d)).holds (image.identity d) reg, p, host⟩

theorem load_loads (s : State σ) (sp : SearchPath σ) (spec as : Text) :
    ∃ merged, Loads s sp spec as merged (load s sp spec as).1 (load s sp spec as).2 := by
  unfold load
  cases hr : s.loader.resolve sp spec with
  | error f =>
    refine ⟨none, .fails s.host (fun image d host hd => ?_) fun image hi => ?_⟩
    · cases hr.symm.trans hd.resolved
    · cases hr.symm.trans hi
  | ok image =>
    dsimp only
    cases hk : s.loader.known? image with
    | some reg => exact ⟨none, .known hr hk⟩
    | none =>
      have hunknown : ∀ image', s.loader.resolve sp spec = .ok image' → s.loader.known? image' = none := by
        intro image' hi
        cases hr.symm.trans hi
        exact hk
      cases hdetect : image.detect with
      | none =>
        refine ⟨none, .fails s.host (fun image' d host hd => ?_) hunknown⟩
        cases hr.symm.trans hd.resolved
        obtain ⟨_, hd, _⟩ := hd.detected
        cases hdetect.symm.trans hd
      | some detect =>
        dsimp only
        cases hd : detect s.host with
        | error e host =>
          have hfails : ∀ image' d host', ¬ Declares s sp spec image' d host' := by
            intro image' d host' hd'
            cases hr.symm.trans hd'.resolved
            obtain ⟨detect', hdetect', hd'⟩ := hd'.detected
            cases hdetect.symm.trans hdetect'
            cases hd.symm.trans hd'
          cases e with
          | refused message => exact ⟨none, .fails host hfails hunknown⟩
          | exception message => exact ⟨none, .fails host hfails hunknown⟩
        | ok d host =>
          have hdeclares : Declares s sp spec image d host := ⟨hr, hk, detect, hdetect, hd⟩
          unfold accept
          dsimp only
          rw [show (if d.id.isEmpty then image.id else d.id) = image.identity d from rfl]
          cases hl : s.loader.loaded[image.identity d]? with
          | some reg => exact ⟨none, .again hdeclares hl⟩
          | none =>
            cases hm : merge s.provisions d (image.identity d) spec as with
            | error f => exact ⟨none, .rejected hdeclares hl hm⟩
            | ok q => exact ⟨_, .merged hdeclares hl hm⟩

variable {s s' : State σ} {sp : SearchPath σ} {merged : Option Text} {image : Image σ} {host : σ}

theorem Declares.unique {image' : Image σ} {d' : Declaration σ} {host' : σ} (h : Declares s sp spec image d host)
    (h' : Declares s sp spec image' d' host') : image' = image ∧ d' = d ∧ host' = host := by
  obtain ⟨hr, _, detect, hdetect, hd⟩ := h
  obtain ⟨hr', _, detect', hdetect', hd'⟩ := h'
  cases hr.symm.trans hr'
  cases hdetect.symm.trans hdetect'
  cases hd.symm.trans hd'
  exact ⟨rfl, rfl, rfl⟩

theorem Loads.of_error {f : ModuleFault} (h : Loads s sp spec as merged (.error f) s') :
    s'.loader = s.loader ∧ s'.provisions = s.provisions := by
  cases h with
  | fails _ _ _ => exact ⟨rfl, rfl⟩
  | rejected _ _ _ => exact ⟨rfl, rfl⟩

/-- **A module is loaded whole or not at all.** -/
theorem load_all_or_nothing (s : State σ) (sp : SearchPath σ) (spec as : Text) :
    (∀ f, (load s sp spec as).1 = .error f →
      (load s sp spec as).2.loader = s.loader ∧ (load s sp spec as).2.provisions = s.provisions) ∧
    ∀ image d host, Declares s sp spec image d host → s.loader.loaded[image.identity d]? = none →
      ((∃ reg, (load s sp spec as).1 = .ok reg) ↔ s.provisions.Admits d (image.identity d) as) ∧
      ∀ reg, (load s sp spec as).1 = .ok reg →
        reg = registrationOf d (image.identity d) spec as ∧
        s.provisions.TakesOver d (image.identity d) as (load s sp spec as).2.provisions ∧
        s.provisions.KeepsForeign (image.identity d) (load s sp spec as).2.provisions ∧
        (load s sp spec as).2.loader = (s.loader.sees image (image.identity d)).holds (image.identity d) reg := by
  obtain ⟨merged, hl⟩ := load_loads s sp spec as
  refine ⟨fun f hf => (hf ▸ hl).of_error, fun image d host hd hnew => ?_⟩
  generalize hr : (load s sp spec as).1 = r at hl ⊢
  generalize (load s sp spec as).2 = s' at hl ⊢
  cases hl with
  | fails _ hno _ => exact absurd hd (hno image d host)
  | known hresolved hknown =>
    cases hd.resolved.symm.trans hresolved
    cases hd.unknown.symm.trans hknown
  | again hd' hloaded =>
    obtain ⟨rfl, rfl, rfl⟩ := hd.unique hd'
    cases hnew.symm.trans hloaded
  | rejected hd' _ hm =>
    obtain ⟨rfl, rfl, rfl⟩ := hd.unique hd'
    refine ⟨⟨fun ⟨_, h⟩ => (by cases h), fun ha => ?_⟩, fun _ h => (by cases h)⟩
    obtain ⟨p', hm', _⟩ := merge_of_admits ha spec
    cases hm.symm.trans hm'
  | merged hd' _ hm =>
    obtain ⟨rfl, rfl, rfl⟩ := hd.unique hd'
    obtain ⟨ha, rfl, htakes⟩ := merge_spec hm
    refine ⟨⟨fun _ => ha, fun _ => ⟨_, rfl⟩⟩, fun reg h => ?_⟩
    cases h
    exact ⟨rfl, htakes, htakes.keepsForeign ha, rfl⟩

def threeFunctions : Declaration Unit :=
  ⟨"mod", [], [⟨"f", fun _ => pure "1", [], []⟩, ⟨"g", fun _ => pure "2", [], []⟩, ⟨"F", fun _ => pure "3", [], []⟩], [], none⟩

def declareThree : Detect Unit := fun host => .ok threeFunctions host

def shelved (owner : Text) : State Unit where
  loader := ⟨[], (∅ : Table (Option (Detect Unit))).insert "m" (some declareThree), ∅, ∅⟩
  provisions := ⟨(∅ : Table (Entry (HostFunction Unit))).insert "P.G" ⟨fun _ => pure [], owner, [], []⟩, ∅, ∅⟩
  host := ()

theorem shelved_declares (owner : Text) :
    Declares (shelved owner) ⟨[], []⟩ "m" ⟨"registry:m", some declareThree⟩ threeFunctions () where
  resolved := by rfl
  unknown := by rfl
  detected := ⟨_, rfl, rfl⟩

theorem shelved_admits (owner : Text) : (shelved owner).provisions.Admits threeFunctions "mod" "p.(.*)" ↔ owner = "mod" := by
  have hget : ∀ name : Text, (shelved owner).provisions.functions[name]? =
      if ("P.G" : Text) = name then some ⟨fun _ => pure [], owner, [], []⟩ else none := by
    intro name
    show ((∅ : Table (Entry (HostFunction Unit))).insert "P.G" _)[name]? = _
    rw [Table.getElem?_insert]
    split <;> rfl
  constructor
  · intro h
    cases h with
    | target ht _ _ _ => cases ht
    | code _ _ hf _ => exact hf "P.G" (by decide) _ ((hget _).trans (if_pos rfl))
  · rintro rfl
    refine .code rfl (.inl (by decide)) (fun name _ e he => ?_) (fun name hname => (by cases hname))
    rw [hget] at he
    split at he
    · cases he
      rfl
    · cases he

theorem load_all_or_nothing_shelved :
    ((∃ reg, (load (shelved "mod") ⟨[], []⟩ "m" "p.(.*)").1 = .ok reg) ∧
      ∃ e, (load (shelved "mod") ⟨[], []⟩ "m" "p.(.*)").2.provisions.functions[("P.F" : Text)]? = some e ∧
        e.owner = "mod") ∧
    (∃ f, (load (shelved "host") ⟨[], []⟩ "m" "p.(.*)").1 = .error f) ∧
      (load (shelved "host") ⟨[], []⟩ "m" "p.(.*)").2.provisions = (shelved "host").provisions := by
  obtain ⟨_, hall⟩ := load_all_or_nothing (shelved "mod") ⟨[], []⟩ "m" "p.(.*)"
  obtain ⟨hiff, hok⟩ := hall _ _ _ (shelved_declares "mod") rfl
  obtain ⟨reg, hreg⟩ := hiff.2 ((shelved_admits "mod").2 rfl)
  obtain ⟨_, htakes, _, _⟩ := hok reg hreg
  obtain ⟨herror, hall'⟩ := load_all_or_nothing (shelved "host") ⟨[], []⟩ "m" "p.(.*)"
  have hrefused : ∃ f, (load (shelved "host") ⟨[], []⟩ "m" "p.(.*)").1 = .error f := by
    cases hr : (load (shelved "host") ⟨[], []⟩ "m" "p.(.*)").1 with
    | error f => exact ⟨f, rfl⟩
    | ok reg' =>
      have hadmits := (hall' _ _ _ (shelved_declares "host") rfl).1.1 ⟨reg', hr⟩
      exact absurd ((shelved_admits "host").1 hadmits) (by decide)
  obtain ⟨f, hf⟩ := hrefused
  exact ⟨⟨⟨reg, hreg⟩, htakes.functions.owned _ List.mem_cons_self⟩, ⟨f, hf⟩, (herror f hf).2⟩

end Loader

end Rexx
