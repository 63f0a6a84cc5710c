import Rexx.Machine.Provide
import Rexx.Proofs.Isolation.Routines

/-!
# `Target.Ownership` — names of targets keep their owners

A registry of targets is changed by hosts, by modules that interpreters load, and by ADDRESS clauses that they
execute.
-/

namespace Rexx

open Engine Loader Registry

namespace Registry

variable {σ : Type} {r r' r'' : Registry σ} {ω : Nat → Text}

def KeepsOwners (r r' : Registry σ) : Prop :=
  ∀ (name : Text) b, r[name]? = some b → ∃ b', r'[name]? = some b' ∧ b'.owner = b.owner

def Owned (ω : Nat → Text) (r : Registry σ) : Prop := ∀ (name : Text) b, r[name]? = some b → ω b.target.id = b.owner

def Registers (ω : Nat → Text) (r r' : Registry σ) : Prop :=
  ∀ (name : Text) b, r'[name]? = some b → r[name]? = some b ∨ ω b.target.id = b.owner

theorem KeepsOwners.refl (r : Registry σ) : r.KeepsOwners r := fun _ b hb => ⟨b, hb, rfl⟩

theorem KeepsOwners.trans (h : r.KeepsOwners r') (h' : r'.KeepsOwners r'') : r.KeepsOwners r'' := by
  intro name b hb
  obtain ⟨b', hb', ho⟩ := h name b hb
  obtain ⟨b'', hb'', ho'⟩ := h' name b' hb'
  exact ⟨b'', hb'', ho'.trans ho⟩

theorem Owned.registers (hr : r.Owned ω) (h : r.Registers ω r') : r'.Owned ω := fun name b hb =>
  (h name b hb).elim (hr name b) id

/-! ## Single changes -/

variable {b : Binding σ} {name auth asName : Text}

theorem keepsOwners_bind {k : Text} (h : ∀ e, r[k]? = some e → e.owner = b.owner) : r.KeepsOwners (r.insert k b) := by
  intro name e he
  rw [Table.getElem?_insert]
  split
  · rename_i hk
    subst hk
    exact ⟨b, rfl, (h e he).symm⟩
  · exact ⟨e, he, rfl⟩

theorem registers_bind {k : Text} (h : ω b.target.id = b.owner) : r.Registers ω (r.insert k b) := by
  intro name e he
  rw [Table.getElem?_insert] at he
  split at he
  · cases he
    exact .inr h
  · exact .inl he

theorem add_spec {t : Target σ} {as auth owner : Text} (h : r.add t as auth owner = .ok r') :
    r' = r.insert (t.nameAs as) ⟨t, auth, owner⟩ ∧ ∀ e, r[t.nameAs as]? = some e → e.owner = owner := by
  have hfree : ∀ e, r[t.nameAs as]? = some e → e.owner = owner := by
    intro e he
    by_contra hne
    rw [add_of_taken he hne] at h
    cases h
  rw [add_of_free hfree] at h
  cases h
  exact ⟨rfl, hfree⟩

theorem switch_error {f : Fault} (h : r.switch name auth asName = .error f) :
    f.condition.event = .syntaxError ∧ f.condition.code = 43 := by
  unfold switch at h
  dsimp only at h
  split at h
  · cases h
  · split at h
    · cases h
      exact ⟨rfl, rfl⟩
    · split at h
      · split at h <;> cases h
      · split at h
        · cases h
          exact ⟨rfl, rfl⟩
        · cases h

theorem Owned.switch {target : Option Text} (hr : r.Owned ω)
    (h : r.switch name auth asName = .ok (r', target)) : r.KeepsOwners r' ∧ r.Registers ω r' := by
  obtain rfl | ⟨b, hb, rfl, hsame⟩ := switch_spec h
  · exact ⟨.refl _, fun _ _ => .inl⟩
  · have howner : ω b.target.id = b.owner := hr _ b hb
    refine ⟨keepsOwners_bind fun e he => ?_, registers_bind howner⟩
    calc e.owner = ω e.target.id := (hr _ e he).symm
      _ = ω b.target.id := by rw [hsame e he]
      _ = b.owner := howner

end Registry

namespace Machine

variable {σ : Type} {m m' : Machine σ} {ω : Nat → Text}

theorem load_keepsOwners (m : Machine σ) (spec as : Text) : m.targets.KeepsOwners (m.load spec as).2.targets := by
  obtain ⟨merged, h⟩ := Loader.load_loads m.loading m.searchPath spec as
  show m.loading.provisions.targets.KeepsOwners (Loader.load m.loading m.searchPath spec as).2.provisions.targets
  generalize (Loader.load m.loading m.searchPath spec as).2 = s at h
  generalize (Loader.load m.loading m.searchPath spec as).1 = reg at h
  cases h with
  | @merged image d host p reg _ _ hmerged =>
    obtain ⟨hadmits, _, htakes⟩ := Loader.merge_spec hmerged
    intro name b hb
    by_cases hname : ∃ t, d.target = some t ∧ t.nameAs as = name
    · obtain ⟨t, ht, rfl⟩ := hname
      refine ⟨_, htakes.target t ht, ?_⟩
      cases hadmits with
      | target ht' _ _ hfree =>
        cases ht.symm.trans ht'
        exact (hfree b hb).symm
      | code ht' _ _ _ => cases ht.symm.trans ht'
    · exact ⟨b, (htakes.otherTargets name fun t ht h => hname ⟨t, ht, h⟩).trans hb, rfl⟩
  | _ => exact .refl _

theorem load_of_error {spec as : Text} {f : ModuleFault} (h : (m.load spec as).1 = .error f) :
    (m.load spec as).2 = { m with host := (m.load spec as).2.host } := by
  obtain ⟨merged, hl⟩ := load_loads m.loading m.searchPath spec as
  have herror : (Loader.load m.loading m.searchPath spec as).1 = .error f := h
  rw [herror] at hl
  obtain ⟨hloader, hprovisions⟩ := hl.of_error
  unfold load
  dsimp only
  rw [hloader, hprovisions]
  rfl

/-! ## Ticks -/

theorem Turns.targets (h : m.Turns m') : m'.targets = m.targets := by
  rw [h]

theorem AboutTo.unique {c c' : Cursor} {s s' : Stmt} (h : m.AboutTo c s) (h' : m.AboutTo c' s') : s = s' := by
  cases Option.some.inj (h.cursor.symm.trans h'.cursor)
  exact Option.some.inj (h.stmt.symm.trans h'.stmt)

variable {auth cmd : Option Expr} {pos : Position} {k : Option Clause} {c : Cursor}

theorem Executes.eq {s : Stmt} (hk : m.Executes k) (h : m.AboutTo c s) : k = none ∨ k = s.clause? := by
  obtain hk | ⟨c', s', hs, hk⟩ := hk
  · exact .inl hk
  · rw [← hk, hs.unique h]
    exact .inr rfl

theorem Act.targets (h : m.Act k m') : m'.targets = m.targets ∨
    (∃ name auth asName cmd token target, k = some (.address name auth asName cmd) ∧
      m.targets.switch (name.getD []) token (asName.getD []) = .ok (m'.targets, target)) ∨
    ∃ x as spec, k = some (.require x as) ∧ m' = (m.load spec (as.getD [])).2 := by
  cases h with
  | evaluates h => exact .inl h.targets
  | switches hk h => exact .inr (.inl ⟨_, _, _, _, _, _, hk, h⟩)
  | loads hk spec => exact .inr (.inr ⟨_, _, spec, hk, rfl⟩)
  | _ => exact .inl rfl

def Requires (m : Machine σ) : Prop := ∃ c pos x as, m.AboutTo c (.clause pos (.require x as))

theorem tick_keepsOwners_of_requires (h : m.Requires) : m.targets.KeepsOwners m.tick.targets := by
  obtain ⟨c, pos, x, as, habout⟩ := h
  refine tick_keeps (R := fun m m' => m.targets.KeepsOwners m'.targets) .trans (fun h => ?_) fun hk h => ?_
  · rw [h.targets]
    exact .refl _
  · obtain heq | ⟨_, _, _, _, _, _, rfl, _⟩ | ⟨_, _, spec, _, rfl⟩ := h.targets
    · rw [heq]
      exact .refl _
    · obtain hk | hk := hk.eq habout <;> cases hk
    · exact load_keepsOwners _ spec _

theorem tick_keepsOwners_of_not_requires (h : ¬ m.Requires) :
    m.targets.Owned ω → m.targets.KeepsOwners m.tick.targets ∧ m.tick.targets.Owned ω := by
  refine tick_keeps (R := fun m m' => m.targets.Owned ω → m.targets.KeepsOwners m'.targets ∧ m'.targets.Owned ω)
    (fun h h' hm => ?_) (fun h hm => ?_) fun hk hact hm => ?_
  · obtain ⟨hkeeps, howned⟩ := h hm
    obtain ⟨hkeeps', howned'⟩ := h' howned
    exact ⟨hkeeps.trans hkeeps', howned'⟩
  · rw [h.targets]
    exact ⟨.refl _, hm⟩
  · obtain heq | ⟨_, _, _, _, _, _, _, hs⟩ | ⟨x, as, _, rfl, _⟩ := hact.targets
    · rw [heq]
      exact ⟨.refl _, hm⟩
    · obtain ⟨hkeeps, hregisters⟩ := hm.switch hs
      exact ⟨hkeeps, hm.registers hregisters⟩
    · obtain hk | ⟨c, s, habout, hs⟩ := hk
      · cases hk
      · cases s <;> cases hs
        exact absurd ⟨c, _, x, as, habout⟩ h

theorem tick_keepsOwners (hm : m.targets.Owned ω) (h : m.Requires → m.targets.Registers ω m.tick.targets) :
    m.targets.KeepsOwners m.tick.targets ∧ m.tick.targets.Owned ω := by
  by_cases hreq : m.Requires
  · exact ⟨tick_keepsOwners_of_requires hreq, hm.registers (h hreq)⟩
  · exact tick_keepsOwners_of_not_requires hreq hm

theorem tick_of_alias {n : Option Text} {a : Text}
    (h : m.AboutTo c (.clause pos (.address n auth (some a) cmd))) (ha : a ≠ []) {name : Text} (hname : name ≠ Text.upper a) :
    m.tick.targets[name]? = m.targets[name]? := by
  refine tick_keeps (R := fun m m' => m'.targets[name]? = m.targets[name]?) (fun h h' => h'.trans h) (fun h => ?_)
    fun hk hact => ?_
  · rw [h.targets]
  · obtain heq | ⟨_, _, _, _, _, _, rfl, hs⟩ | ⟨_, _, _, rfl, _⟩ := hact.targets
    · rw [heq]
    · obtain hk | hk := hk.eq h
      · cases hk
      · cases hk
        obtain heq | ⟨b, _, heq, _⟩ := switch_spec hs
        · rw [heq]
        · have hempty : (Option.getD (some a) []).isEmpty = false := List.isEmpty_eq_false_iff.2 ha
          rw [heq, hempty, Table.getElem?_insert]
          exact if_neg hname.symm
    · obtain hk | hk := hk.eq h <;> cases hk

theorem step_of_refused {n token : Text} {asName : Option Text}
    {f : Fault} (h : m.AboutTo c (.clause pos (.address (some n) auth asName cmd)))
    (hauth : evalOpt [0] auth (m.announced c (.clause pos (.address (some n) auth asName cmd))) =
      .ok token m')
    (hrefused : m.targets.switch n token (asName.getD []) = .error f) :
    step m = .error (.raised f.condition) m' ∧ m'.targets = m.targets ∧
      m'.top.target = m.top.target := by
  have hevolves := (evaluates_evaluative.evalOpt 0 auth _).ok hauth
  have htargets : m'.targets = m.targets := hevolves.targets
  have htarget : m'.top.target = m.top.target := by
    rw [hevolves.top.same]
    rfl
  refine ⟨?_, htargets, htarget⟩
  rw [step_of_aboutTo h]
  show execAddress n auth (asName.getD []) cmd _ = _
  have hname : n.isEmpty = false := by
    cases n with
    | nil => cases hrefused
    | cons _ _ => rfl
  unfold execAddress
  rw [hname]
  simp only [Bool.false_eq_true, if_false]
  rw [bind_of_ok hauth, switchTo, bind_assoc, bind_of_ok (get_apply m'), htargets, hrefused]
  rfl

theorem tick_targets_of_raised {e : Condition} (hhalted : m.interp.halted = false)
    (h : step m = .error (.raised e) m') : m.tick.targets = m'.targets := by
  unfold tick
  rw [hhalted, h]
  exact (raise_turns m' e).targets

end Machine

namespace Registry

variable {σ : Type} {r r' : Registry σ} {ω : Nat → Text}

/-- **What hosts and interpreters do to a registry** that they share, if each target is registered for the one owner that
`ω` gives it. -/
inductive Changes (ω : Nat → Text) (r : Registry σ) : Registry σ → Prop where
  | added {t : Target σ} {as auth owner : Text} {r' : Registry σ} (add : r.add t as auth owner = .ok r')
      (own : ω t.id = owner) : Changes ω r r'
  | refused {t : Target σ} {as auth owner : Text} {f : Conflict} (add : r.add t as auth owner = .error f) : Changes ω r r
  | loaded {m : Machine σ} {spec as : Text} (shared : m.targets = r) (own : r.Registers ω (m.load spec as).2.targets) :
      Changes ω r (m.load spec as).2.targets
  | ticked {m : Machine σ} (shared : m.targets = r) (own : m.Requires → r.Registers ω m.tick.targets) :
      Changes ω r m.tick.targets

theorem Changes.keepsOwners (h : r.Changes ω r') (hr : r.Owned ω) : r.KeepsOwners r' ∧ r'.Owned ω := by
  cases h with
  | added hadd hown =>
    obtain ⟨rfl, hfree⟩ := add_spec hadd
    exact ⟨keepsOwners_bind hfree, hr.registers (registers_bind hown)⟩
  | refused _ => exact ⟨.refl r, hr⟩
  | @loaded m spec as hm hown =>
    subst hm
    exact ⟨m.load_keepsOwners spec as, hr.registers hown⟩
  | ticked hm hown =>
    subst hm
    exact Machine.tick_keepsOwners hr hown

theorem keepsOwners_of_changes (h : Relation.ReflTransGen (Changes ω) r r') (hr : r.Owned ω) :
    r.KeepsOwners r' ∧ r'.Owned ω := by
  induction h with
  | refl => exact ⟨.refl r, hr⟩
  | tail _ h ih =>
    obtain ⟨hkeeps, howned⟩ := h.keepsOwners ih.2
    exact ⟨ih.1.trans hkeeps, howned⟩

/-- **Names of targets keep their owners.** Whatever is done to a registry that any number of interpreters share, if no
target is registered for two owners, a name that is bound stays bound and stays with its owner. -/
theorem names_keep_owners (h : Relation.ReflTransGen (Changes ω) ∅ r) (h' : Relation.ReflTransGen (Changes ω) r r') :
    (∀ (name : Text) b, r[name]? = some b → ∃ b', r'[name]? = some b' ∧ b'.owner = b.owner) ∧
    ∀ m : Machine σ, m.targets = r' →
      (∀ t as auth owner, (∃ f, m.addTarget t as auth owner = .error f) ↔
        ∃ b, r'[t.nameAs as]? = some b ∧ b.owner ≠ owner) ∧
      (∀ spec as f, (m.load spec as).1 = .error f → (m.load spec as).2 = { m with host := (m.load spec as).2.host }) ∧
      (∀ c pos n auth asName cmd token m1 f, m.interp.halted = false →
        m.AboutTo c (.clause pos (.address (some n) auth asName cmd)) →
        Engine.evalOpt [0] auth (m.announced c (.clause pos (.address (some n) auth asName cmd))) =
          .ok token m1 → r'.switch n token (asName.getD []) = .error f →
        Engine.step m = .error (.raised f.condition) m1 ∧ f.condition.event = .syntaxError ∧ f.condition.code = 43 ∧
          m1.top.target = m.top.target ∧ m.tick.targets = r') ∧
      ∀ c pos n auth a cmd, m.AboutTo c (.clause pos (.address (some n) auth (some a) cmd)) → a ≠ [] →
        ∀ name : Text, name ≠ Text.upper a → m.tick.targets[name]? = r'[name]? := by
  have hempty : (∅ : Registry σ).Owned ω := by
    intro name b hb
    rw [Std.TreeMap.getElem?_emptyc] at hb
    cases hb
  have hr : r.Owned ω := (keepsOwners_of_changes h hempty).2
  refine ⟨(keepsOwners_of_changes h' hr).1, ?_⟩
  rintro m rfl
  refine ⟨fun t as auth owner => ⟨?_, ?_⟩, fun spec as f hf => m.load_of_error hf, ?_, ?_⟩
  · rintro ⟨f, hf⟩
    by_contra hfree
    push Not at hfree
    unfold Machine.addTarget at hf
    rw [Loader.add_of_free hfree] at hf
    cases hf
  · rintro ⟨b, hb, hne⟩
    refine ⟨⟨.target, t.nameAs as, b.owner⟩, ?_⟩
    unfold Machine.addTarget
    rw [Loader.add_of_taken hb hne]
    rfl
  · intro c pos n auth asName cmd token m1 f hhalted habout hauth hrefused
    obtain ⟨hstep, htargets, htarget⟩ := Machine.step_of_refused habout hauth hrefused
    obtain ⟨hevent, hcode⟩ := switch_error hrefused
    exact ⟨hstep, hevent, hcode, htarget, (Machine.tick_targets_of_raised hhalted hstep).trans htargets⟩
  · intro c pos n auth a cmd habout ha name hname
    exact Machine.tick_of_alias habout ha hname

def deferring : Target Unit := ⟨0, "T", true, false, false, [], fun op params _ => pure (.wait ⟨op, params, 0⟩)⟩

def withDeferring : Registry Unit := (∅ : Registry Unit).insert "T" ⟨deferring, "given", "host"⟩

def aliasing : Machine Unit :=
  { Machine.idle.begin (.ofBody [] [] [.clause ⟨1, 1⟩ (.address (some "T") (some (.literal "7" none)) (some "U") none)]) []
    with targets := withDeferring }

theorem names_keep_owners_aliasing :
    aliasing.tick.targets["U".toList]?.map Binding.auth = some "7".toList ∧
    aliasing.tick.targets["T".toList]? = withDeferring["T".toList]? ∧
    ∃ b, aliasing.tick.targets["T".toList]? = some b ∧ b.owner = "host".toList := by
  have hadd : (∅ : Registry Unit).add deferring [] "given" "host" = .ok withDeferring := rfl
  have hadded : Changes (fun _ => "host".toList) (∅ : Registry Unit) withDeferring := .added hadd rfl
  have habout : aliasing.AboutTo (.at aliasing.interp.program.body 0 none)
      (.clause ⟨1, 1⟩ (.address (some "T") (some (.literal "7" none)) (some "U") none)) := ⟨rfl, nofun, rfl⟩
  have hticked : Changes (fun _ => "host".toList) withDeferring aliasing.tick.targets := by
    refine .ticked rfl fun hreq => ?_
    obtain ⟨_, _, _, _, hreq⟩ := hreq
    cases habout.unique hreq
  obtain ⟨_, hnames⟩ := names_keep_owners (.single hadded) .refl
  obtain ⟨_, _, _, halias⟩ := hnames aliasing rfl
  obtain ⟨howners, _⟩ := names_keep_owners (.single hadded) (.single hticked)
  refine ⟨by decide +kernel, halias _ _ _ _ _ _ habout nofun _ (by decide), ?_⟩
  exact howners "T" ⟨deferring, "given", "host"⟩ rfl

def addressing (source : Text) : Machine Unit :=
  (({ Machine.idle with targets := withDeferring }).start source [] []).toOption.getD Machine.idle

theorem empty_alias_replaces_token :
    (addressing "address t auth 'x' as ''").targets["T".toList]?.map Binding.auth = some "given".toList ∧
    (addressing "address t auth 'x' as ''").tick.targets["T".toList]?.map Binding.auth = some "x".toList := by
  decide +kernel

end Registry

end Rexx
