import Rexx.Proofs.Trap.Unwinding

/-!
# `Machine.Numeric` — the settings for numbers

NUMERIC changes one setting at a time, and tests the new value against the other one.
-/

namespace Rexx

open Engine Machine

/-- The digits are more than the fuzz, and no more than numbers carry. -/
structure Number.Settings.Consistent (s : Number.Settings) : Prop where
  fuzz_nonneg : 0 ≤ s.fuzz
  fuzz_lt : s.fuzz < s.digits
  digits_le : s.digits ≤ 15

namespace Engine

variable {σ : Type}

theorem settingsWith_consistent {setting : NumericSetting} {s s' : Number.Settings} {n : Int} (hs : s.Consistent)
    (h : settingsWith setting s n = .ok s') : s'.Consistent := by
  obtain ⟨h0, hlt, hle⟩ := hs
  unfold settingsWith Number.maxDigits at h
  cases setting with
  | digits =>
    simp only [Bool.or_eq_true, decide_eq_true_eq] at h
    split at h
    · cases h
    · cases h
      exact ⟨h0, by dsimp only; omega, by dsimp only; omega⟩
  | fuzz =>
    simp only [Bool.or_eq_true, decide_eq_true_eq] at h
    split at h
    · cases h
    · cases h
      exact ⟨by dsimp only; omega, by dsimp only; omega, hle⟩

theorem setNumeric_cases (setting : NumericSetting) (given : Option Text) (m : Machine σ) :
    (∃ m', setNumeric setting given m = .ok () m') ∨ ∃ e, setNumeric setting given m = .error (.raised e) m := by
  unfold setNumeric
  cases settingGiven setting given with
  | error f => exact .inr ⟨f.condition, rfl⟩
  | ok n =>
    cases hs : settingsWith setting m.interp.options.numeric n with
    | error f =>
      refine .inr ⟨f.condition, ?_⟩
      show (orFail (settingsWith setting m.interp.options.numeric n) >>= _) m = _
      rw [hs]
      rfl
    | ok changed =>
      refine .inl ⟨m.modifyInterp fun i => { i with options := { i.options with numeric := changed } }, ?_⟩
      show (orFail (settingsWith setting m.interp.options.numeric n) >>= _) m = _
      rw [hs]
      rfl

theorem execNumeric_evaluates (setting : NumericSetting) (x : Option Expr) (m : Machine σ) :
    Ensures (fun _ _ => True) (Evolves Set.univ) (Suspends (Evolves Set.univ) Set.univ)
      (execClause (.numeric setting x)) m := by
  have hgiven := evaluates_evaluative.evalIfAny (evaluates_evaluative.eval 0) x m
  refine Ensures.bind ⟨fun _ _ => trivial, .trans, fun h h' => h'.after fun _ => h.trans⟩ hgiven fun given m1 _ => ?_
  obtain ⟨m2, hset⟩ | ⟨e, hset⟩ := setNumeric_cases setting given m1
  · exact .of_ok (bind_of_ok hset) trivial
  · exact .of_raised (bind_of_error hset) (.refl _ _)

end Engine

namespace Machine

variable {σ : Type} {m m' m'' u : Machine σ} {c : Cursor} {s : Stmt}

/-! ## Runs -/

def KeepsSettings (m u : Machine σ) : Prop := m.interp.options.numeric.Consistent → u.interp.options.numeric.Consistent

theorem KeepsSettings.of_eq (h : u.interp.options.numeric = m.interp.options.numeric) : m.KeepsSettings u := by
  intro hm
  rwa [h]

theorem Turns.numeric (h : m.Turns m') : m'.interp.options.numeric = m.interp.options.numeric := by
  rw [h]

theorem Act.keepsSettings {k : Option Clause} (h : m.Act k m') : m.KeepsSettings m' := by
  cases h with
  | evaluates h => exact .of_eq h.numeric
  | counts _ hset => exact fun hm => settingsWith_consistent hm hset
  | forms _ form => exact fun ⟨h0, hlt, hle⟩ => ⟨h0, hlt, hle⟩
  | _ => exact .of_eq rfl

theorem tick_keepsSettings (m : Machine σ) : m.KeepsSettings m.tick :=
  tick_keeps (fun h h' hm => h' (h hm)) (fun h => .of_eq h.numeric) fun _ => Act.keepsSettings

/-- **What a host does with an interpreter** that it has set up: it begins programs, lets them run, answers their requests,
and attends to other things than the settings for numbers. -/
inductive Served (m u : Machine σ) : Prop where
  | begun {source name : Text} {args : Args} (start : m.start source name args = .ok u)
  | tick (running : m.interp.status = .running) (next : u = m.tick)
  | answered {r : Response} (answer : m.answer? r = some u)
  | attended (attends : m.Attends u) (numeric : u.interp.options.numeric = m.interp.options.numeric)

theorem Served.keepsSettings (h : m.Served u) : m.KeepsSettings u := by
  cases h with
  | begun hs =>
    unfold start at hs
    cases hp : Program.parse _ _ with
    | error e =>
      rw [hp] at hs
      cases hs
    | ok p =>
      rw [hp] at hs
      cases hs
      exact .of_eq rfl
  | tick _ hu =>
    rw [hu]
    exact tick_keepsSettings m
  | answered ha => exact .of_eq (answer?_turns ha).numeric
  | attended _ hn => exact .of_eq hn

/-! ## Clauses that are not completed -/

/-- **The passes of the clause that `m` is about to execute**, as long as it calls no routine of the script: a pass waits
for the host, which answers and attends to other things than the settings for numbers. -/
inductive Passing (m : Machine σ) : Machine σ → Prop where
  | first : Passing m m
  | paused {u u' : Machine σ} (before : Passing m u) (pass : Engine.step u = .error .suspended u')
      (here : u'.stack.depth = u.stack.depth) : Passing m u'
  | answered {u u' : Machine σ} {r : Response} (before : Passing m u) (answer : u.answer? r = some u') : Passing m u'
  | attended {u u' : Machine σ} (before : Passing m u) (attends : u.Attends u')
      (numeric : u'.interp.options.numeric = u.interp.options.numeric) : Passing m u'

theorem answer?_cursors {r : Response} (h : m.answer? r = some u) : u.top.cursors = m.top.cursors := by
  obtain ⟨hold, _, _, rfl⟩ := answer?_spec h
  exact congrArg Place.top (complete_place m.interp hold.depth hold.site r.outcome)

variable {pos : Position} {x : Option Expr} {setting : NumericSetting}

theorem Passing.numeric (hm : m.AboutTo c (.clause pos (.numeric setting x))) (h : m.Passing u) :
    u.AboutTo c (.clause pos (.numeric setting x)) ∧ u.interp.options.numeric = m.interp.options.numeric := by
  induction h with
  | first => exact ⟨hm, rfl⟩
  | @paused u u' _ hstep hhere ih =>
    obtain ⟨hu, hnumeric⟩ := ih
    rw [step_of_aboutTo hu] at hstep
    have hsuspends := (execNumeric_evaluates setting x _).suspended hstep
    -- A routine that was entered would have a frame of its own.
    cases hsuspends with
    | held h _ _ hh =>
      have hcursors := h.top.same
      obtain ⟨q, _, rfl⟩ := Option.map_eq_some_iff.1 hh
      exact ⟨⟨by rw [hcursors]; exact hu.cursor, hu.phase, hu.stmt⟩, h.numeric.trans hnumeric⟩
    | @entered m0 k i a needsValue h _ _ he =>
      subst he
      have hdeeper : m0.stack.depth + 1 = u.stack.depth := hhere
      have hdepth : m0.stack.depth = u.stack.depth := h.steady.depth
      omega
    | refused h => exact ⟨⟨by rw [h.top.same]; exact hu.cursor, hu.phase, hu.stmt⟩, h.numeric.trans hnumeric⟩
  | answered _ ha ih =>
    obtain ⟨hu, hnumeric⟩ := ih
    exact ⟨⟨by rw [answer?_cursors ha]; exact hu.cursor, hu.phase, hu.stmt⟩, (answer?_turns ha).numeric.trans hnumeric⟩
  | attended _ ha hn ih =>
    obtain ⟨hu, hnumeric⟩ := ih
    exact ⟨⟨by rw [ha.top]; exact hu.cursor, hu.phase, hu.stmt⟩, hn.trans hnumeric⟩

theorem tick_numeric_of_raised {q : Interpreter σ × Condition}
    (hm : m.AboutTo c (.clause pos (.numeric setting x))) (h : m.raised? = some q) :
    m.tick.interp.options.numeric = m.interp.options.numeric := by
  unfold raised? at h
  unfold tick
  split at h
  · rename_i hhalted
    rw [if_pos hhalted]
    exact (raise_turns (m.modifyInterp fun i => { i with halted := false }) _).numeric
  · rename_i hhalted
    rw [if_neg hhalted]
    split at h
    · rename_i e m' hstep
      rw [hstep]
      refine (raise_turns m' e).numeric.trans ?_
      rw [step_of_aboutTo hm] at hstep
      exact ((execNumeric_evaluates setting x _).raised hstep).numeric
    · cases h

/-- **The settings for numbers stay consistent.** -/
theorem numeric_settings_consistent (hm : m.interp.options.numeric.Consistent) (h : Relation.ReflTransGen Served m u) :
    u.interp.options.numeric.Consistent ∧
    (∃ n, 1 ≤ n ∧ n ≤ 15 ∧ ∀ x y, u.interp.options.numeric.compare x y = Number.compareTo n x y) ∧
    ∀ c pos setting x w q, u.AboutTo c (.clause pos (.numeric setting x)) → u.Passing w → w.raised? = some q →
      w.tick.interp.options.numeric = u.interp.options.numeric := by
  have hu : u.interp.options.numeric.Consistent := by
    induction h with
    | refl => exact hm
    | tail _ h ih => exact h.keepsSettings ih
  refine ⟨hu, ⟨_, ?_, ?_, fun x y => rfl⟩, fun c pos setting x w q habout hw hq => ?_⟩
  · have hlt := hu.fuzz_lt
    omega
  · have hle := hu.digits_le
    have h0 := hu.fuzz_nonneg
    omega
  · obtain ⟨hw', hnumeric⟩ := hw.numeric habout
    exact (tick_numeric_of_raised hw' hq).trans hnumeric

def calibratingBody : List Stmt :=
  [.clause ⟨1, 1⟩ (.numeric .digits none), .clause ⟨2, 1⟩ (.numeric .fuzz (some (.literal "X" none)))]

def calibrating : Machine Unit :=
  (idle.begin (.ofBody [] [] calibratingBody) []).modifyInterp fun i =>
    { i with options := { i.options with numeric := ⟨2, 1, .engineering⟩ } }

theorem numeric_settings_consistent_calibrating :
    calibrating.interp.options.numeric.Consistent ∧ Relation.ReflTransGen Served calibrating calibrating.tick ∧
    calibrating.tick.AboutTo (.at calibratingBody 1 none) (.clause ⟨2, 1⟩ (.numeric .fuzz (some (.literal "X" none)))) ∧
    calibrating.tick.raised?.isSome = true ∧ calibrating.tick.tick.interp.options.numeric = ⟨9, 1, .engineering⟩ := by
  have hm : calibrating.interp.options.numeric.Consistent := ⟨by decide, by decide, by decide⟩
  have hrun : Relation.ReflTransGen Served calibrating calibrating.tick := .single (.tick rfl rfl)
  have habout : calibrating.tick.AboutTo (.at calibratingBody 1 none)
      (.clause ⟨2, 1⟩ (.numeric .fuzz (some (.literal "X" none)))) := ⟨rfl, nofun, rfl⟩
  have hraised : calibrating.tick.raised?.isSome = true := by decide +kernel
  obtain ⟨q, hq⟩ := Option.isSome_iff_exists.1 hraised
  obtain ⟨_, _, hkept⟩ := numeric_settings_consistent hm hrun
  exact ⟨hm, hrun, habout, hraised, hkept _ _ _ _ _ q habout .first hq⟩

end Machine

end Rexx
