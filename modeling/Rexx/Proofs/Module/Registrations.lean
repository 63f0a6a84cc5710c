import Rexx.Machine.Provide
import Rexx.Proofs.Module.Loading

/-!
# `Module.Registrations` — modules are registered once

What an interpreter has of modules changes when modules are loaded and when the host registers functions, operations
and targets.
-/

namespace Rexx

open List Loader

variable {σ α : Type}

/-! ## Names that belong to an owner -/

def Table.Owns (t : Table (Entry α)) (owner : Text) (names : List Text) : Prop :=
  ∀ name ∈ names, ∃ e, t[name]? = some e ∧ e.owner = owner

variable {ds : List (Declared α)} {key : Declared α → Text} {names : List Text}
  {t t' : Table (Entry α)}

theorem Table.Owns.takesOver {owner id : Text} (h : t.Owns owner names) (hadmits : t.Admits id (ds.map key))
    (htakes : t.TakesOver id key ds t') : t'.Owns owner names := by
  intro name hname
  obtain ⟨e, he, ho⟩ := h name hname
  by_cases hd : name ∈ ds.map key
  · obtain ⟨d, hd', rfl⟩ := mem_map.1 hd
    obtain ⟨e', he', ho'⟩ := htakes.owned d hd'
    exact ⟨e', he', ho'.trans ((hadmits _ hd e he).symm.trans ho)⟩
  · exact ⟨e, (htakes.others name hd).trans he, ho⟩

theorem Table.TakesOver.owns {id : Text} (h : t.TakesOver id key ds t') : t'.Owns id (ds.map key) := by
  intro name hname
  obtain ⟨d, hd, rfl⟩ := mem_map.1 hname
  exact h.owned d hd

theorem Table.Owns.provide {kind : Provision} {name owner id : Text} {code : α}
    (h : t.Owns id names) (hp : Rexx.provide kind t name code owner = .ok t') : t'.Owns id names := by
  unfold Rexx.provide at hp
  dsimp only at hp
  split at hp
  · cases hp
  · rename_i hfree
    cases hp
    intro name' hname'
    obtain ⟨e, he, ho⟩ := h name' hname'
    rw [Table.getElem?_insert]
    split
    · rename_i heq
      have howner := conflict?_eq_none_iff.1 hfree _ mem_cons_self e (heq ▸ he)
      exact ⟨_, rfl, howner.symm.trans ho⟩
    · exact ⟨e, he, ho⟩

namespace Loader

/-! ## The invariant -/

/-- **Registrations are true**: the modules that were taken over, each once, are those that are loaded; images that were
seen lead to them; and the names that they are registered with are theirs. -/
structure Faithful (s : State σ) (log : List Text) : Prop where
  once : log.Nodup
  loaded : ∀ id, id ∈ log ↔ s.loader.loaded[id]? ≠ none
  seen : ∀ (source id : Text), s.loader.seen[source]? = some id → s.loader.loaded[id]? ≠ none
  named : ∀ (id : Text) reg, s.loader.loaded[id]? = some reg → reg.id = id
  functions : ∀ (id : Text) reg, s.loader.loaded[id]? = some reg → s.provisions.functions.Owns id reg.functions
  operations : ∀ (id : Text) reg, s.loader.loaded[id]? = some reg → s.provisions.operations.Owns id reg.operations

variable {s s' : State σ} {sp : SearchPath σ} {spec as : Text} {log : List Text} {merged : Option Text}
  {r : Except ModuleFault Registration}

theorem Faithful.congr (h : Faithful s log) (hloaded : s'.loader.loaded = s.loader.loaded)
    (hseen : s'.loader.seen = s.loader.seen)
    (hfunctions : ∀ id names, s.provisions.functions.Owns id names → s'.provisions.functions.Owns id names)
    (hoperations : ∀ id names, s.provisions.operations.Owns id names → s'.provisions.operations.Owns id names) :
    Faithful s' log where
  once := h.once
  loaded := hloaded ▸ h.loaded
  seen := by rw [hloaded, hseen]; exact h.seen
  named := hloaded ▸ h.named
  functions id reg hreg := hfunctions id _ (h.functions id reg (hloaded ▸ hreg))
  operations id reg hreg := hoperations id _ (h.operations id reg (hloaded ▸ hreg))

theorem Faithful.loads (h : Faithful s log) (hl : Loads s sp spec as merged r s') : Faithful s' (log ++ merged.toList) := by
  have hsame : ∀ host, Faithful { s with host } (log ++ (none : Option Text).toList) := by
    intro host
    rw [Option.toList_none, append_nil]
    exact h.congr rfl rfl (fun _ _ => id) fun _ _ => id
  cases hl with
  | fails host _ _ => exact hsame host
  | known _ _ => exact hsame s.host
  | rejected _ _ _ => exact hsame _
  | @again image d host reg hd hloaded =>
    have hk := hsame host
    refine ⟨hk.once, hk.loaded, fun source id hs => ?_, hk.named, hk.functions, hk.operations⟩
    replace hs : (s.loader.seen.insert image.id (image.identity d))[source]? = some id := hs
    rw [Std.TreeMap.getElem?_insert] at hs
    split at hs
    · cases hs
      simp [sees, hloaded]
    · exact h.seen source id hs
  | @merged image d host p reg hd hnew hm =>
    obtain ⟨ha, rfl, htakes⟩ := merge_spec hm
    have hget : ∀ id : Text, ((s.loader.sees image (image.identity d)).holds (image.identity d)
        (registrationOf d (image.identity d) spec as)).loaded[id]? =
        if image.identity d = id then some (registrationOf d (image.identity d) spec as) else s.loader.loaded[id]? :=
      fun id => s.loader.loaded.getElem?_insert ..
    refine ⟨?_, fun id => ?_, fun source id hs => ?_, fun id reg hreg => ?_, fun id reg hreg => ?_, fun id reg hreg => ?_⟩
    · -- The module was not loaded, so it is not among those that were taken over.
      refine h.once.append (nodup_singleton _) (disjoint_singleton.2 fun hmem => ?_)
      exact (h.loaded _).1 hmem hnew
    · rw [hget, mem_append, h.loaded, Option.toList_some, mem_singleton]
      split
      · rename_i heq
        simp [heq]
      · rename_i hne
        exact ⟨fun hid => hid.resolve_right fun heq => hne heq.symm, .inl⟩
    · replace hs : (s.loader.seen.insert image.id (image.identity d))[source]? = some id := hs
      rw [Std.TreeMap.getElem?_insert] at hs
      rw [hget]
      split at hs
      · cases hs
        simp
      · split
        · simp
        · exact h.seen source id hs
    · rw [hget] at hreg
      split at hreg
      · rename_i heq
        cases hreg
        exact heq
      · exact h.named id reg hreg
    · rw [hget] at hreg
      split at hreg
      · rename_i heq
        cases hreg
        exact heq ▸ htakes.functions.owns
      · exact (h.functions id reg hreg).takesOver ha.functions htakes.functions
    · rw [hget] at hreg
      split at hreg
      · rename_i heq
        cases hreg
        exact heq ▸ htakes.operations.owns
      · exact (h.operations id reg hreg).takesOver ha.operations htakes.operations

/-- **An image that leads to a module that is loaded**, by whatever way: the load gives the registration that there is, and
registers nothing. -/
theorem load_of_loaded {image : Image σ} {id : Text} {reg : Registration} (hr : s.loader.resolve sp spec = .ok image)
    (hid : s.loader.seen[image.id]? = some id ∨
      ∃ d host, Declares s sp spec image d host ∧ image.identity d = id)
    (hreg : s.loader.loaded[id]? = some reg) :
    (load s sp spec as).1 = .ok reg ∧ (load s sp spec as).2.provisions = s.provisions ∧
      (load s sp spec as).2.loader.loaded = s.loader.loaded ∧
      ((load s sp spec as).2.loader = s.loader ∨ (load s sp spec as).2.loader = s.loader.sees image id) := by
  obtain ⟨merged, hl⟩ := load_loads s sp spec as
  generalize (load s sp spec as).1 = r at hl ⊢
  generalize (load s sp spec as).2 = s' at hl ⊢
  -- An image that was seen is known.
  have hknown : s.loader.seen[image.id]? = some id → s.loader.known? image = some reg := by
    intro hs
    rw [known?, hs, Option.bind_some, hreg]
  have hdeclares : ∀ image' d host, Declares s sp spec image' d host → image' = image ∧ image.identity d = id := by
    intro image' d host hd
    obtain rfl : image' = image := by
      cases hr.symm.trans hd.resolved
      rfl
    refine ⟨rfl, ?_⟩
    obtain hs | ⟨d', host', hd', hid⟩ := hid
    · cases (hknown hs).symm.trans hd.unknown
    · obtain ⟨_, rfl, _⟩ := hd'.unique hd
      exact hid
  cases hl with
  | fails host hno hunknown =>
    obtain hs | ⟨d, host', hd, _⟩ := hid
    · cases (hknown hs).symm.trans (hunknown image hr)
    · exact absurd hd (hno image d host')
  | known hr' hk =>
    cases hr.symm.trans hr'
    obtain hs | ⟨d, host', hd, _⟩ := hid
    · cases (hknown hs).symm.trans hk
      exact ⟨rfl, rfl, rfl, .inl rfl⟩
    · cases hd.unknown.symm.trans hk
  | again hd hloaded =>
    obtain ⟨rfl, rfl⟩ := hdeclares _ _ _ hd
    cases hreg.symm.trans hloaded
    exact ⟨rfl, rfl, rfl, .inr rfl⟩
  | rejected hd hnew _ =>
    obtain ⟨rfl, rfl⟩ := hdeclares _ _ _ hd
    cases hreg.symm.trans hnew
  | merged hd hnew _ =>
    obtain ⟨rfl, rfl⟩ := hdeclares _ _ _ hd
    cases hreg.symm.trans hnew

end Loader

/-! ## Histories -/

namespace Machine

/-- **What happens to the registrations of an interpreter**, with the modules that were taken over, in order. -/
inductive Equipped : Machine σ → List Text → Prop where
  | bare {m : Machine σ} (loaded : m.interp.loader.loaded = ∅) (seen : m.interp.loader.seen = ∅) : Equipped m []
  | load {m : Machine σ} {log : List Text} {merged : Option Text} (spec as : Text)
      (loads : Loader.Loads m.loading m.searchPath spec as merged (m.load spec as).1 (m.load spec as).2.loading)
      (before : Equipped m log) : Equipped (m.load spec as).2 (log ++ merged.toList)
  | addFunction {m : Machine σ} {log : List Text} {name owner : Text} {f : HostFunction σ} {i : Interpreter σ}
      (added : m.interp.addFunction name f owner = .ok i) (before : Equipped m log) : Equipped { m with interp := i } log
  | addOperation {m : Machine σ} {log : List Text} {name owner : Text} {op : HostOperation σ} {i : Interpreter σ}
      (added : m.interp.addOperation name op owner = .ok i) (before : Equipped m log) : Equipped { m with interp := i } log
  | addTarget {m m' : Machine σ} {log : List Text} {t : Target σ} {as auth owner : Text}
      (added : m.addTarget t as auth owner = .ok m') (before : Equipped m log) : Equipped m' log
  | otherwise {m m' : Machine σ} {log : List Text} (loaded : m'.interp.loader.loaded = m.interp.loader.loaded)
      (seen : m'.interp.loader.seen = m.interp.loader.seen) (functions : m'.interp.functions = m.interp.functions)
      (operations : m'.interp.operations = m.interp.operations) (before : Equipped m log) : Equipped m' log

variable {m m' : Machine σ} {log : List Text}

theorem Equipped.exists_load (h : m.Equipped log) (spec as : Text) :
    ∃ merged : Option Text, Equipped (m.load spec as).2 (log ++ merged.toList) := by
  obtain ⟨merged, hl⟩ := load_loads m.loading m.searchPath spec as
  exact ⟨merged, .load spec as hl h⟩

theorem Equipped.faithful (h : m.Equipped log) : Faithful m.loading log := by
  induction h with
  | @bare m hloaded hseen =>
    have hnone : ∀ id : Text, m.interp.loader.loaded[id]? = none := by
      intro id
      rw [hloaded]
      rfl
    refine ⟨nodup_nil, fun id => ?_, fun source id hs => ?_, fun id reg hreg => ?_, fun id reg hreg => ?_,
      fun id reg hreg => ?_⟩
    · simp [loading, hnone]
    · rw [show m.loading.loader.seen = ∅ from hseen] at hs
      cases hs
    · cases (hnone id).symm.trans hreg
    · cases (hnone id).symm.trans hreg
    · cases (hnone id).symm.trans hreg
  | load spec as hl _ ih => exact ih.loads hl
  | @addFunction m log name owner f i hadd _ ih =>
    obtain ⟨t, ht, rfl⟩ : ∃ t, provide .function m.interp.functions name f owner = .ok t ∧
        i = { m.interp with functions := t } := by
      unfold Interpreter.addFunction at hadd
      cases hp : provide .function m.interp.functions name f owner with
      | error c => rw [hp] at hadd; cases hadd
      | ok t => rw [hp] at hadd; cases hadd; exact ⟨t, rfl, rfl⟩
    exact ih.congr rfl rfl (fun _ _ ho => ho.provide ht) fun _ _ => id
  | @addOperation m log name owner op i hadd _ ih =>
    obtain ⟨t, ht, rfl⟩ : ∃ t, provide .operation m.interp.operations name op owner = .ok t ∧
        i = { m.interp with operations := t } := by
      unfold Interpreter.addOperation at hadd
      cases hp : provide .operation m.interp.operations name op owner with
      | error c => rw [hp] at hadd; cases hadd
      | ok t => rw [hp] at hadd; cases hadd; exact ⟨t, rfl, rfl⟩
    exact ih.congr rfl rfl (fun _ _ => id) fun _ _ ho => ho.provide ht
  | @addTarget m m' log t as auth owner hadd _ ih =>
    obtain ⟨targets, rfl⟩ : ∃ targets, m' = { m with targets } := by
      unfold Machine.addTarget at hadd
      cases hp : m.targets.add t as auth owner with
      | error c => rw [hp] at hadd; cases hadd
      | ok targets => rw [hp] at hadd; cases hadd; exact ⟨targets, rfl⟩
    exact ih.congr rfl rfl (fun _ _ => id) fun _ _ => id
  | otherwise hloaded hseen hf ho _ ih =>
    refine ih.congr hloaded hseen (fun id names h => ?_) fun id names h => ?_
    · exact (congrArg (fun t => t.Owns id names) hf).mpr h
    · exact (congrArg (fun t => t.Owns id names) ho).mpr h

/-- **A module is registered at most once, and its registration stays true.** -/
theorem modules_registered_once (h : m.Equipped log) :
    log.Nodup ∧ (∀ id, id ∈ log ↔ m.interp.loader.loaded[id]? ≠ none) ∧
    (∀ source id : Text, m.interp.loader.seen[source]? = some id → ∃ reg, m.interp.loader.loaded[id]? = some reg) ∧
    (∀ (spec as : Text) (image : Image σ) (id : Text) reg, m.interp.loader.resolve m.searchPath spec = .ok image →
      (m.interp.loader.seen[image.id]? = some id ∨
        ∃ d host, Loader.Declares m.loading m.searchPath spec image d host ∧ image.identity d = id) →
      m.interp.loader.loaded[id]? = some reg →
      (m.load spec as).1 = .ok reg ∧ (m.load spec as).2.interp.functions = m.interp.functions ∧
        (m.load spec as).2.interp.operations = m.interp.operations ∧ (m.load spec as).2.targets = m.targets ∧
        (m.load spec as).2.interp.loader.loaded = m.interp.loader.loaded ∧
        ((m.load spec as).2.interp.loader = m.interp.loader ∨
          (m.load spec as).2.interp.loader = m.interp.loader.sees image id)) ∧
    (∀ (id : Text) reg, m.interp.loader.loaded[id]? = some reg →
      reg.id = id ∧ m.interp.functions.Owns id reg.functions ∧ m.interp.operations.Owns id reg.operations) ∧
    ∀ spec as, ∃ merged : Option Text, (m.load spec as).2.Equipped (log ++ merged.toList) := by
  have hk := h.faithful
  refine ⟨hk.once, hk.loaded, fun source id hs => Option.ne_none_iff_exists'.1 (hk.seen source id hs), ?_,
    fun id reg hreg => ⟨hk.named id reg hreg, hk.functions id reg hreg, hk.operations id reg hreg⟩, h.exists_load⟩
  intro spec as image id reg hr hid hreg
  obtain ⟨hok, hp, hloaded, hseen⟩ := Loader.load_of_loaded (s := m.loading) hr hid hreg
  exact ⟨hok, congrArg Provisions.functions hp, congrArg Provisions.operations hp, congrArg Provisions.targets hp, hloaded,
    hseen⟩

def besideShelf : Machine Unit :=
  ⟨{ (Interpreter.fresh 0 : Interpreter Unit) with loader := (Loader.shelved "mod").loader }, ∅, .empty,
    ⟨0, ⟨#[], 0⟩, [], []⟩, ()⟩

theorem modules_registered_once_twice :
    (∃ merged : Option Text, (besideShelf.load "m" "p.(.*)").2.Equipped ([] ++ merged.toList)) ∧
    ∃ reg, (besideShelf.load "m" "p.(.*)").2.interp.loader.loaded[("mod" : Text)]? = some reg ∧
      ((besideShelf.load "m" "p.(.*)").2.load "m" "q").1 = .ok reg := by
  have hbare : besideShelf.Equipped [] := .bare rfl rfl
  obtain ⟨merged, hm⟩ := (modules_registered_once hbare).2.2.2.2.2 "m" "p.(.*)"
  obtain ⟨_, _, hseen, hagain, _⟩ := modules_registered_once hm
  have hs : (besideShelf.load "m" "p.(.*)").2.interp.loader.seen[("registry:m" : Text)]? = some "mod" := by rfl
  obtain ⟨reg, hreg⟩ := hseen _ _ hs
  have hresolve : (besideShelf.load "m" "p.(.*)").2.interp.loader.resolve
      (besideShelf.load "m" "p.(.*)").2.searchPath "m" = .ok ⟨"registry:m", some Loader.declareThree⟩ := by rfl
  exact ⟨⟨merged, hm⟩, reg, hreg, (hagain "m" "q" _ "mod" reg hresolve (.inl hs) hreg).1⟩

end Machine

end Rexx
