import Rexx.Proofs.Evaluation.Expressions

/-!
# `Replay.Passes` — computations that are given up and made again

A computation that is suspended is given up, and made again from its start as often as it takes.
-/

namespace Rexx

variable {σ α β : Type} {S T : Set Site} {site : Site}

/-! ## Later machines of one clause -/

/-- The interpreter executes clauses. -/
abbrev Machine.Running (m : Machine σ) : Prop := m.interp.status = .running

structure Machine.Recalls (m u : Machine σ) : Prop where
  memo : ∀ k v, m.top.memo.lookup k = some v → u.top.memo.lookup k = some v
  replies : ∀ k r, m.top.replies.lookup k = some r → u.top.replies.lookup k = some r
  numeric : u.interp.options.numeric = m.interp.options.numeric

/-- A later machine of the same clause: the frame keeps what it kept, has new entries only for sites in `S`, and numbers
are treated as before. -/
structure Machine.Later (S : Set Site) (m u : Machine σ) : Prop where
  top : m.top.Extends S u.top
  numeric : u.interp.options.numeric = m.interp.options.numeric
  status : u.interp.status = m.interp.status
  depth : u.stack.depth = m.stack.depth

namespace Machine

variable {m m' u : Machine σ}

theorem Recalls.refl (m : Machine σ) : m.Recalls m := ⟨fun _ _ h => h, fun _ _ h => h, rfl⟩

theorem Recalls.trans (h : m.Recalls m') (h' : m'.Recalls u) : m.Recalls u :=
  ⟨fun k v hk => h'.memo k v (h.memo k v hk), fun k r hk => h'.replies k r (h.replies k r hk),
    h'.numeric.trans h.numeric⟩

theorem Later.trans (h : m.Later S m') (h' : m'.Later S u) : m.Later S u :=
  ⟨h.top.trans h'.top, h'.numeric.trans h.numeric, h'.status.trans h.status, h'.depth.trans h.depth⟩

theorem Later.recalls (h : m.Later S u) : m.Recalls u := ⟨h.top.memo, h.top.replies, h.numeric⟩

theorem Evolves.later (h : m.Evolves S m') : m.Later S m' := ⟨h.top, h.numeric, h.status, h.depth⟩

end Machine

namespace Engine

/-! ## Passes -/

/-- The computation `c`, made in passes from `m` on, ends with a result. -/
inductive Replays (ρ : Machine σ → Machine σ → Prop) (c : Engine σ α) : Machine σ → Result σ α → Prop where
  | value {m m' : Machine σ} {v : α} (h : c m = .ok v m') : Replays ρ c m (.ok v m')
  | raises {m m' : Machine σ} {e : Condition} (h : c m = .error (.raised e) m') : Replays ρ c m (.error (.raised e) m')
  | again {m m1 u : Machine σ} {r : Result σ α} (h : c m = .error .suspended m1) (resume : ρ m1 u)
      (rest : Replays ρ c u r) : Replays ρ c m r

/-- The computation has become settled with a value: on every machine that knows as much of the clause it gives that value
and changes nothing. -/
def Settled (c : Engine σ α) (v : α) (m : Machine σ) : Prop := ∀ u, m.Recalls u → c u = .ok v u

/-- What `ρ` leads to, after an evaluation was suspended that began with a machine that has `P`, is a later machine of the
same clause; and such machines have `P`. -/
structure Faithful (P : Machine σ → Prop) (ρ : Machine σ → Machine σ → Prop) : Prop where
  keeps : ∀ {S : Set Site} {m u : Machine σ}, P m → m.Later S u → P u
  later : ∀ {S : Set Site} {m m1 u : Machine σ}, P m → m.Suspends (Machine.Evolves S) S m1 → ρ m1 u → m.Later S u

variable {P : Machine σ → Prop} {ρ : Machine σ → Machine σ → Prop} {c : Engine σ α} {a : Engine σ α} {f : α → Engine σ β}
  {m : Machine σ} {v : α} {r : Result σ β} {known : Text → Engine σ α}

structure Settles (P : Machine σ → Prop) (ρ : Machine σ → Machine σ → Prop) (c : Engine σ α) : Prop where
  evaluates : ∀ m, Evaluates Set.univ c m
  settled : ∀ {m m' : Machine σ} {v : α}, P m → Replays ρ c m (.ok v m') → Settled c v m'

structure Resumable (P : Machine σ → Prop) (ρ : Machine σ → Machine σ → Prop) (c : Engine σ α) : Prop where
  recalls : ∀ {u m1 u' : Machine σ}, P u → c u = .error .suspended m1 → ρ m1 u' → u.Recalls u' ∧ P u'

theorem Settled.self (h : Settled c v m) : c m = .ok v m := h m (.refl m)

theorem Settled.later {u : Machine σ} (h : Settled c v m) (hu : m.Recalls u) : Settled c v u :=
  fun u' h' => h u' (hu.trans h')

theorem Replays.later (hρ : Faithful P ρ) (hc : ∀ m, Evaluates S c m) {r : Result σ α} (hm : P m)
    (h : Replays ρ c m r) :
    match r with
    | .ok _ m' => m.Later S m'
    | .error _ m' => m.Later S m' := by
  induction h with
  | value h => exact ((hc _).ok h).later
  | raises h => exact ((hc _).raised h).later
  | @again m m1 u r h resume rest ih =>
    have hu : m.Later S u := hρ.later hm ((hc m).suspended h) resume
    have ih := ih (hρ.keeps hm hu)
    cases r with
    | ok v m' => exact hu.trans ih
    | error e m' => exact hu.trans ih

theorem Replays.later_of_ok (hρ : Faithful P ρ) (hc : ∀ m, Evaluates S c m) {m' : Machine σ} (hm : P m)
    (h : Replays ρ c m (.ok v m')) : m.Later S m' :=
  h.later hρ hc hm

theorem Settles.keeps (hρ : Faithful P ρ) (hc : Settles P ρ c) {m' : Machine σ} (hm : P m)
    (h : Replays ρ c m (.ok v m')) : P m' :=
  hρ.keeps hm (h.later_of_ok hρ hc.evaluates hm)

theorem Resumable.of_defers (hρ : Faithful P ρ) (hc : ∀ m, Defers c m) : Resumable P ρ c :=
  ⟨fun hu h hr =>
    have hlater := hρ.later hu ((hc _).suspended h) hr
    ⟨hlater.recalls, hρ.keeps hu hlater⟩⟩

theorem Resumable.of_evaluates (hρ : Faithful P ρ) (hc : ∀ m, Evaluates S c m) : Resumable P ρ c :=
  .of_defers hρ fun m => (hc m).defers

theorem Resumable.of_immediate (hc : Immediate c) : Resumable P ρ c := ⟨fun _ h _ => absurd h (hc _ _)⟩

theorem Resumable.seq (ha : Resumable P ρ a) (hok : ∀ {u v u'}, P u → a u = .ok v u' → u.Recalls u' ∧ P u')
    (hf : ∀ v, Resumable P ρ (f v)) : Resumable P ρ (a >>= f) := by
  refine ⟨fun {u m1 u'} hu h hr => ?_⟩
  cases hau : a u with
  | error e m' =>
    rw [bind_of_error hau] at h
    cases h
    exact ha.recalls hu hau hr
  | ok v u1 =>
    obtain ⟨hrecalls, hu1⟩ := hok hu hau
    obtain ⟨hrest, hu'⟩ := (hf v).recalls hu1 ((bind_of_ok hau).symm.trans h) hr
    exact ⟨hrecalls.trans hrest, hu'⟩

/-! ## Sequencing -/

theorem Replays.congr {c' : Engine σ α} (heq : ∀ u, P u → c u = c' u)
    (hkeep : ∀ u m1 u', P u → c' u = .error .suspended m1 → ρ m1 u' → P u') {r : Result σ α} (hm : P m) :
    Replays ρ c m r ↔ Replays ρ c' m r := by
  constructor
  · intro h
    induction h with
    | value h => exact .value ((heq _ hm).symm.trans h)
    | raises h => exact .raises ((heq _ hm).symm.trans h)
    | again h resume _ ih =>
      have h' := (heq _ hm).symm.trans h
      exact .again h' resume (ih (hkeep _ _ _ hm h' resume))
  · intro h
    induction h with
    | value h => exact .value ((heq _ hm).trans h)
    | raises h => exact .raises ((heq _ hm).trans h)
    | again h resume _ ih => exact .again ((heq _ hm).trans h) resume (ih (hkeep _ _ _ hm h resume))

theorem Replays.of_eq {m' : Machine σ} {r : Result σ α} (heq : c m = c m') (h : Replays ρ c m' r) : Replays ρ c m r := by
  cases h with
  | value h => exact .value (heq.trans h)
  | raises h => exact .raises (heq.trans h)
  | again h resume rest => exact .again (heq.trans h) resume rest

theorem Replays.bind_settled_iff (hm : P m) (ha : Settled a v m)
    (hf : Resumable P ρ (f v)) : Replays ρ (a >>= f) m r ↔ Replays ρ (f v) m r := by
  let Q (u : Machine σ) : Prop := Settled a v u ∧ P u
  refine Replays.congr (P := Q) (fun _ hu => bind_of_ok hu.1.self) (fun _ _ _ hu h hr => ?_) ⟨ha, hm⟩
  obtain ⟨hrecalls, hP⟩ := hf.recalls hu.2 h hr
  exact ⟨hu.1.later hrecalls, hP⟩

theorem Replays.of_immediate (hc : Immediate c) (m : Machine σ) : Replays ρ c m (c m) := by
  cases h : c m with
  | ok v m' => exact .value h
  | error e m' =>
    cases e with
    | suspended => exact absurd h (hc _ _)
    | raised e => exact .raises h

/-- The results of `a` and then `f`, where a condition that `a` raises ends it. -/
def Sequel (A : Machine σ → Result σ α → Prop) (F : α → Machine σ → Result σ β → Prop) (m : Machine σ)
    (r : Result σ β) : Prop :=
  (∃ v m', A m (.ok v m') ∧ F v m' r) ∨ ∃ e m', A m (.error (.raised e) m') ∧ r = .error (.raised e) m'

theorem Replays.bind_iff (hρ : Faithful P ρ) (ha : Settles P ρ a) (hf : ∀ v, Resumable P ρ (f v)) (hm : P m) :
    Replays ρ (a >>= f) m r ↔ Sequel (Replays ρ a) (fun v => Replays ρ (f v)) m r := by
  constructor
  · intro h
    induction h with
    | @value m m' w h =>
      rw [bind_apply] at h
      cases ham : a m with
      | ok v m1 =>
        rw [ham] at h
        exact .inl ⟨v, m1, .value ham, .value h⟩
      | error e m1 =>
        rw [ham] at h
        cases h
    | @raises m m' e h =>
      rw [bind_apply] at h
      cases ham : a m with
      | ok v m1 =>
        rw [ham] at h
        exact .inl ⟨v, m1, .value ham, .raises h⟩
      | error e' m1 =>
        rw [ham] at h
        cases h
        exact .inr ⟨e, m', .raises ham, rfl⟩
    | @again m m1 u r h resume rest ih =>
      rw [bind_apply] at h
      cases ham : a m with
      | ok v m0 =>
        -- The first part was done: the next pass passes it over, so the second part alone is made again.
        rw [ham] at h
        obtain ⟨hrecalls, hu⟩ := (hf v).recalls (ha.keeps hρ hm (.value ham)) h resume
        have hset : Settled a v u := (ha.settled hm (.value ham)).later hrecalls
        exact .inl ⟨v, m0, .value ham, .again h resume ((bind_settled_iff hu hset (hf v)).1 rest)⟩
      | error e m0 =>
        rw [ham] at h
        cases h
        have hu := hρ.keeps hm (hρ.later hm ((ha.evaluates m).suspended ham) resume)
        obtain ⟨v, m', hv, hr⟩ | ⟨e, m', he, hr⟩ := ih hu
        · exact .inl ⟨v, m', .again ham resume hv, hr⟩
        · exact .inr ⟨e, m', .again ham resume he, hr⟩
  · rintro (⟨v, m', hv, hr⟩ | ⟨e, m', he, rfl⟩)
    · have hset : Settled a v m' := ha.settled hm hv
      have hm' := ha.keeps hρ hm hv
      clear hm
      generalize hres : (EStateM.Result.ok v m' : Result σ α) = r1 at hv
      induction hv with
      | @value m m1 w h =>
        cases hres
        cases hr with
        | value hr => exact .value ((bind_of_ok h).trans hr)
        | raises hr => exact .raises ((bind_of_ok h).trans hr)
        | again hr resume rest =>
          obtain ⟨hrecalls, hu⟩ := (hf v).recalls hm' hr resume
          exact .again ((bind_of_ok h).trans hr) resume ((bind_settled_iff hu (hset.later hrecalls) (hf v)).2 rest)
      | raises h => cases hres
      | again h resume _ ih => exact .again (bind_of_error h) resume (ih hres)
    · clear hm
      generalize hres : (EStateM.Result.error (.raised e) m' : Result σ α) = r1 at he
      induction he with
      | value h => cases hres
      | raises h =>
        cases hres
        exact .raises (bind_of_error h)
      | again h resume _ ih => exact .again (bind_of_error h) resume (ih hres)

/-! ## Settled parts -/

theorem Settles.pure (v : α) : Settles P ρ (Pure.pure v) := by
  refine ⟨fun m => .pure v m, fun {m m' w} _ h => ?_⟩
  cases h with
  | value h =>
    cases h
    exact fun _ _ => rfl
  | again h => cases h

variable (g : Number.Settings → Except Fault α)

theorem numeric_evaluates (m : Machine σ) : Evaluates S (numeric >>= fun s => orFail (g s)) m :=
  .bind (.of_same (numeric_apply m)) fun _ m1 _ => .orFail _ m1

theorem Settles.of_numeric : Settles P ρ (numeric >>= fun s => orFail (g s)) := by
  have hok : ∀ {m m' : Machine σ} {v : α}, (numeric >>= fun s => orFail (g s)) m = .ok v m' ↔
      g m.interp.options.numeric = .ok v ∧ m' = m := by
    intro m m' v
    rw [bind_of_ok (numeric_apply m), orFail_apply]
    cases g m.interp.options.numeric <;> simp [eq_comm]
  refine ⟨numeric_evaluates g, fun {m m' w} _ h => ?_⟩
  cases h with
  | value h =>
    obtain ⟨hg, rfl⟩ := hok.1 h
    intro u hu
    exact hok.2 ⟨by rw [hu.numeric, hg], rfl⟩
  | @again _ m1 _ _ h =>
    rw [bind_of_ok (numeric_apply m)] at h
    cases hg : g m.interp.options.numeric <;> rw [hg] at h <;> cases h

theorem Settles.bind (hρ : Faithful P ρ) (ha : Settles P ρ a) (hf : ∀ v, Settles P ρ (f v)) : Settles P ρ (a >>= f) := by
  refine ⟨fun m => .bind (ha.evaluates m) fun v m1 _ => (hf v).evaluates m1, fun {m m' w} hm h => ?_⟩
  obtain ⟨v, m1, hv, hw⟩ | ⟨e, m1, _, hw⟩ :=
    (Replays.bind_iff hρ ha (fun v => .of_evaluates hρ (hf v).evaluates) hm).1 h
  · intro u hu
    have hm1 := ha.keeps hρ hm hv
    have h1 : m1.Recalls u := (hw.later_of_ok hρ (hf v).evaluates hm1).recalls.trans hu
    exact (bind_of_ok (ha.settled hm hv u h1)).trans ((hf v).settled hm1 hw u hu)
  · cases hw

/-! ## Values that are kept -/

theorem Replays.noted {c : Engine σ Text} {m' : Machine σ} {v : Text} (h : Replays ρ (remember site c) m (.ok v m')) :
    m'.top.memo.lookup site = some v := by
  generalize hres : (EStateM.Result.ok v m' : Result σ Text) = r at h
  induction h with
  | @value m1 m2 w h =>
    cases hres
    cases hn : m1.top.memo.lookup site with
    | some w =>
      rw [remember_of_some hn] at h
      cases h
      exact hn
    | none =>
      cases hc : c m1 with
      | ok w m3 =>
        rw [remember_of_ok hn hc] at h
        cases h
        simp [Machine.note, Machine.modifyInterp, Interpreter.modifyTop, Stack.modifyTop]
      | error e m3 =>
        rw [remember_of_error hn hc] at h
        cases h
  | raises h => cases hres
  | again _ _ _ ih => exact ih hres

theorem remember_settles {c : Engine σ Text} (hc : ∀ m, Evaluates S (remember site c) m) :
    Settles P ρ (remember site c) :=
  ⟨fun m => (hc m).weaken, fun _ h _ hu => remember_of_some (hu.memo site _ h.noted)⟩

theorem Defers.orNoted (hknown : ∀ v, Immediate (known v))
    (hc : m.top.memo.lookup site = none → Defers c m) : Defers (orNoted site known c) m := by
  cases hn : m.top.memo.lookup site with
  | some v => exact (Defers.of_immediate (hknown v)).congr (orNoted_of_some hn)
  | none => exact (hc hn).congr (orNoted_of_none hn)

theorem orNoted_bind_apply {known : Text → Engine σ β} (hin : ∀ m, Evaluates site.inner a m)
    (hn : m.top.memo.lookup site = none) :
    orNoted site known (a >>= f) m = (a >>= fun v => orNoted site known (f v)) m := by
  rw [orNoted_of_none hn]
  cases ha : a m with
  | error e m1 => rw [bind_of_error ha, bind_of_error ha]
  | ok v m1 =>
    have h1 : m1.top.memo.lookup site = none :=
      (((hin m).ok ha).top.memo_eq site.self_not_mem_inner).trans hn
    rw [bind_of_ok ha, bind_of_ok ha, orNoted_of_none h1]

theorem Replays.orNoted_bind_iff (hρ : Faithful P ρ) {known : Text → Engine σ β} (ha : Settles P ρ a)
    (hin : ∀ m, Evaluates site.inner a m) (hf : ∀ v, Resumable P ρ (orNoted site known (f v))) (hm : P m)
    (hn : m.top.memo.lookup site = none) :
    Replays ρ (orNoted site known (a >>= f)) m r ↔
      Sequel (Replays ρ a) (fun v => Replays ρ (orNoted site known (f v))) m r := by
  -- A note is looked for before the operands are evaluated. That makes no difference to looking for it after them: if
  -- there is one, the operands are settled.
  let Q (u : Machine σ) : Prop := P u ∧ (u.top.memo.lookup site = none ∨ ∃ v, Settled a v u)
  have heq : ∀ u, Q u → orNoted site known (a >>= f) u = (a >>= fun v => orNoted site known (f v)) u := by
    rintro u ⟨_, hu⟩
    cases hn : u.top.memo.lookup site with
    | some w =>
      obtain hu | ⟨v, hv⟩ := hu
      · rw [hn] at hu
        cases hu
      · rw [orNoted_of_some hn, bind_of_ok hv.self, orNoted_of_some hn]
    | none => exact orNoted_bind_apply hin hn
  have hkeep : ∀ u m1 u', Q u → (a >>= fun v => orNoted site known (f v)) u = .error .suspended m1 → ρ m1 u' →
      Q u' := by
    rintro u m1 u' ⟨hP, hu⟩ h hr
    cases ha' : a u with
    | ok v m0 =>
      rw [bind_of_ok ha'] at h
      have hset := ha.settled hP (.value ha')
      obtain ⟨hrecalls, hP'⟩ := (hf v).recalls (ha.keeps hρ hP (.value ha')) h hr
      exact ⟨hP', .inr ⟨v, hset.later hrecalls⟩⟩
    | error e m0 =>
      rw [bind_of_error ha'] at h
      cases h
      have hlater := hρ.later hP ((hin u).suspended ha') hr
      refine ⟨hρ.keeps hP hlater, ?_⟩
      obtain hu | ⟨v, hv⟩ := hu
      · exact .inl ((hlater.top.memo_eq site.self_not_mem_inner).trans hu)
      · exact .inr ⟨v, hv.later hlater.recalls⟩
  exact (Replays.congr heq hkeep ⟨hm, .inl hn⟩).trans (Replays.bind_iff hρ ha hf hm)

theorem Replays.remember_bind_iff (hρ : Faithful P ρ) {f : α → Engine σ Text} (ha : Settles P ρ a)
    (hin : ∀ m, Evaluates site.inner a m) (hf : ∀ v, Resumable P ρ (remember site (f v)))
    {r : Result σ Text} (hm : P m) (hn : m.top.memo.lookup site = none) :
    Replays ρ (remember site (a >>= f)) m r ↔ Sequel (Replays ρ a) (fun v => Replays ρ (remember site (f v))) m r := by
  simp only [remember] at hf ⊢
  rw [bind_assoc]
  exact Replays.orNoted_bind_iff hρ ha hin hf hm hn

/-! ## Expressions -/

theorem settles_expressive (hρ : Faithful P ρ) {names : List (Text × Bool)} :
    Expressive Set.univ names fun _ c => Settles P ρ c where
  below _ _ := trivial
  pure := .pure
  bind := .bind hρ
  expand _ _ := remember_settles fun _ => remember_evaluates (Site.self_mem_tree _) fun _ => .of_same rfl
  fetch _ name := remember_settles fun m => remember_evaluates (Site.self_mem_tree _) fun _ => fetch_evaluates name m
  operator _ := .of_numeric _
  call _ _ _ args _ _ _ _ hin := remember_settles fun m => remember_bind_evaluates (hin m) fun v m' hn =>
    call_evaluates (Site.self_mem_tree _) _ (args v) true _ m' hn

end Engine

end Rexx
