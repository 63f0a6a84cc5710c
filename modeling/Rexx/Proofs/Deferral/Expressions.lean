import Rexx.Proofs.Deferral.Evaluation

/-!
# `Deferral.Expressions` — expressions with answers that come later

Evaluating an expression with answers at once comes to the same as evaluating it in passes on the twin.
-/

namespace Rexx

open Interpreter Machine

/-! ## Where calls go -/

namespace Interpreter

variable {σ : Type} {i i' : Interpreter σ} {names : List (Text × Bool)}

def Enters (i : Interpreter σ) (name : Text) (quoted : Bool) : Prop :=
  Builtin.ofName? name = none ∧ i.functions[name]? = none ∧ quoted = false ∧ i.program.labels[name]? ≠ none

/-- Calls of the names enter no routine of the program. -/
def Outward (i : Interpreter σ) (names : List (Text × Bool)) : Prop := ∀ p ∈ names, ¬ i.Enters p.1 p.2

end Interpreter

theorem Machine.Evolves.outward {σ : Type} {S : Set Site} {m m' : Machine σ} {names : List (Text × Bool)}
    (h : m.Evolves S m') (hm : m.interp.Outward names) : m'.interp.Outward names :=
  fun p hmem => by rw [Enters, h.functions, h.program]; exact hm p hmem

namespace Engine

variable {σ α β : Type} {answer : Text → Params → σ → Outcome} {m m' u : Machine σ} {site : Site}
  {c : Engine σ α} {known : Text → Engine σ α}

/-! ## Calls -/

theorem Detached.tracks_of_eq {c' : Engine σ α} (hc' : Detached c') (h : m.Twin answer u) (hm : c m = c' m)
    (hu : c u = c' u) : Tracks answer c m u := by
  have halike := hc'.alike h
  rw [← hm, ← hu] at halike
  refine ⟨c u, ?_, halike⟩
  cases hc : c u with
  | ok v w => exact .value hc
  | error e w =>
    cases e with
    | suspended => exact absurd (hu.symm.trans hc) (hc'.immediate u w)
    | raised e => exact .raises hc

theorem target_twin (h : m.Twin answer u) : u.top.target = m.top.target := by
  rw [Machine.top, h.interp]
  rfl

theorem binding?_twin (h : m.Twin answer u) : m.binding? m.top = (u.binding? u.top).map (Binding.atOnce answer) := by
  unfold binding?
  rw [target_twin h]
  cases m.top.target with
  | none => rfl
  | some t => exact h.targets t

variable {needsValue quoted : Bool} {w : Machine σ} {name : Text}

theorem binding?_sameRegistries (h : u.SameRegistries w) : w.binding? w.top = u.binding? u.top := by
  unfold binding?
  rw [h.target, h.targets]

theorem method?_twin (h : m.Twin answer u) (name : Text) : method? u name = method? m name := by
  unfold method?
  rw [binding?_twin h, target_twin h, Option.any_map]
  rfl

theorem method?_sameRegistries (h : u.SameRegistries w) (name : Text) : method? w name = method? u name := by
  unfold method?
  rw [binding?_sameRegistries h, h.target]

theorem call_apply_method {a : Args} (hb : Builtin.ofName? name = none)
    (hf : m.interp.functions[name]? = none) (hl : (if quoted then none else m.interp.program.labels[name]?) = none) :
    call site name a needsValue quoted m = match method? m name with
      | some target => callMethod site target name a m
      | none => fail (.routineNotFound name) m := by
  simp only [call, hb, bind_apply, interp_apply, hf, hl]
  show (match method? m name with
    | some target => callMethod site target name a
    | none => fail (.routineNotFound name)) m = _
  cases method? m name <;> rfl

theorem call_tracks {g : Text → Engine σ α} {a : Args}
    (h : m.Twin answer u) (hrun : u.Running) (hout : ¬ m.interp.Enters name quoted) (hg : ∀ v, Detached (g v))
    (hm : c m = (call site name a needsValue quoted >>= g) m)
    (hc : ∀ w, u.Matches w → c w = (call site name a needsValue quoted >>= g) w) : Tracks answer c m u := by
  have hu := hc u (.refl u)
  have hfunctions : u.interp.functions = m.interp.functions := by rw [h.interp]; rfl
  have hprogram : u.interp.program = m.interp.program := by rw [h.interp]; rfl
  cases hb : Builtin.ofName? name with
  | some b =>
    have hcall : (call site name a needsValue quoted : Engine σ Text) = callBuiltin b a := by simp only [call, hb]
    rw [hcall] at hm hu
    exact (Detached.bind ⟨oblivious_computing.callBuiltin b a, immediate_computing.callBuiltin b a⟩ hg).tracks_of_eq h hm hu
  | none =>
    cases hf : m.interp.functions[name]? with
    | some f =>
      have hcall : ∀ w : Machine σ, w.interp.functions = m.interp.functions →
          (call site name a needsValue quoted >>= g) w = (callFunction name f.code a >>= g) w := by
        intro w hw
        rw [← hw] at hf
        simp only [call, hb, bind_apply, interp_apply, hf]
      exact (Detached.bind (.callFunction name f.code a) hg).tracks_of_eq h (hm.trans (hcall m rfl))
        (hu.trans (hcall u hfunctions))
    | none =>
      have hl : (if quoted then none else m.interp.program.labels[name]?) = none := by
        cases quoted with
        | true => rfl
        | false =>
          by_contra hl
          exact hout ⟨hb, hf, rfl, hl⟩
      have hcall : ∀ w : Machine σ, w.interp.functions = m.interp.functions → w.interp.program = m.interp.program →
          method? w name = method? m name →
          (call site name a needsValue quoted >>= g) w = match method? m name with
            | some target => (callMethod site target name a >>= g) w
            | none => .error (.raised (Fault.routineNotFound name).condition) w := by
        intro w hwf hwp hw
        rw [bind_apply, call_apply_method hb (hwf ▸ hf) (hwp ▸ hl), hw]
        cases method? m name with
        | some target => exact (bind_apply (callMethod site target name a) g w).symm
        | none => rfl
      have hcm := hcall m rfl rfl rfl
      have hcw : ∀ w, u.Matches w → _ := fun w hw =>
        hcall w (hw.functions.trans hfunctions) (hw.program.trans hprogram)
          ((method?_sameRegistries hw.toSameRegistries name).trans (method?_twin h name))
      cases ht : method? m name with
      | none =>
        rw [ht] at hcm
        have hcu := hcw u (.refl u)
        rw [ht] at hcu
        refine ⟨_, .raises (hu.trans hcu), ?_⟩
        rw [hm, hcm]
        exact .raises h
      | some target =>
        -- The method is dispatched; its outcome is checked and its output handed on.
        have hmethod : ∀ w : Machine σ, (callMethod site target name a >>= g) w =
            (dispatch site target name (a.mapIdx fun i value => (Text.ofNat (i + 1), value)) true >>= fun r =>
              check r >>= fun _ => g r.output) w := by
          intro w
          simp only [callMethod, bind_assoc, pure_bind]
        rw [ht] at hcm
        refine dispatch_tracks h hrun (fun r => ?_) (fun r => .bind (.check r) fun _ => hg _)
          (hm.trans (hcm.trans (hmethod m))) fun w hw => ?_
        · rw [check_plain, Outcome.output_plain]
        · have hcw' := hcw w hw
          rw [ht] at hcw'
          exact (hc w hw).trans (hcw'.trans (hmethod w))

/-! ## Values that are kept -/

theorem Detached.orNoted (hknown : ∀ v, Detached (known v)) (hc : Detached c) : Detached (orNoted site known c) where
  oblivious m replies targets channel := by
    have hmemo : (m.refit replies targets channel).top.memo = m.top.memo := rfl
    cases hn : m.top.memo.lookup site with
    | some v =>
      rw [orNoted_of_some hn, orNoted_of_some (hmemo ▸ hn)]
      exact (hknown v).oblivious m replies targets channel
    | none =>
      rw [orNoted_of_none hn, orNoted_of_none (hmemo ▸ hn)]
      exact hc.oblivious m replies targets channel
  immediate := by
    refine .bind .top fun f => ?_
    split
    · exact (hknown _).immediate
    · exact hc.immediate

theorem Detached.remember {c : Engine σ Text} (hc : Detached c) : Detached (remember site c) := by
  exact .orNoted .pure (.bind hc fun v => .bind (.modifyTop fun _ _ => rfl) fun _ => .pure v)

theorem memo_twin (h : m.Twin answer u) : u.top.memo = m.top.memo := by
  rw [Machine.top, h.interp]
  rfl

theorem Tracks.orNoted_bind {known : Text → Engine σ β} {a : Engine σ α} {f : α → Engine σ β}
    (hknown : ∀ v, Detached (known v)) (ha : Settles Running (HostAnswers answer) a)
    (hin : ∀ m, Evaluates site.inner a m) (hf : ∀ v, Resumable Running (HostAnswers answer) (orNoted site known (f v)))
    (h : m.Twin answer u) (hrun : u.Running) (htracks : Tracks answer a m u)
    (hrest : ∀ v m' u', a m = .ok v m' → m'.Twin answer u' → u'.Running →
      m'.top.memo.lookup site = none → Tracks answer (orNoted site known (f v)) m' u') :
    Tracks answer (orNoted site known (a >>= f)) m u := by
  have hρ := hostAnswers_faithful answer
  have hmemo := memo_twin h
  cases hn : m.top.memo.lookup site with
  | some v =>
    exact (hknown v).tracks_of_eq h (orNoted_of_some hn) (orNoted_of_some (hmemo ▸ hn))
  | none =>
    have hrest' : ∀ v m' u', a m = .ok v m' → m'.Twin answer u' → u'.Running →
        Tracks answer (orNoted site known (f v)) m' u' := fun v m' u' ha' h' hrun' =>
      hrest v m' u' ha' h' hrun' ((((hin m).ok ha').top.memo_eq site.self_not_mem_inner).trans hn)
    obtain ⟨r, hr, halike⟩ := Tracks.bind ha hf hrun htracks hrest'
    refine ⟨r, (Replays.orNoted_bind_iff hρ ha hin hf hrun (hmemo ▸ hn)).2 ((Replays.bind_iff hρ ha hf hrun).1 hr), ?_⟩
    rwa [orNoted_bind_apply hin hn]

theorem Tracks.remember_call {a : Engine σ α} {f : α → Args} {quoted : Bool}
    (ha : Settles Running (HostAnswers answer) a) (hin : ∀ m, Evaluates site.inner a m) (h : m.Twin answer u)
    (hrun : u.Running) (hout : ¬ m.interp.Enters name quoted) (htracks : Tracks answer a m u) :
    Tracks answer (remember site (a >>= fun v => call site name (f v) true quoted)) m u := by
  have hρ := hostAnswers_faithful answer
  have hresume : ∀ v, Resumable Running (HostAnswers answer) (remember site (call site name (f v) true quoted)) :=
    fun v => .of_evaluates hρ fun m =>
      remember_evaluates site.self_mem_tree (call_evaluates site.self_mem_tree name (f v) true quoted m)
  simp only [remember] at hresume ⊢
  rw [bind_assoc]
  refine .orNoted_bind .pure ha hin hresume h hrun htracks fun v m' u' ha' h' hrun' hn => ?_
  have hout' : ¬ m'.interp.Enters name quoted := by
    have hev := (hin m).ok ha'
    unfold Enters at hout ⊢
    rwa [hev.functions, hev.program]
  refine call_tracks h' hrun' hout' (fun w => .bind (.modifyTop fun _ _ => rfl) fun _ => .pure w) (orNoted_of_none hn)
    fun w hw => ?_
  exact orNoted_of_none (by rw [hw.memo, memo_twin h', hn])

/-! ## Expressions -/

/-- The computation evaluates something, and comes to the same whether targets answer at once or the host answers later, as
long as calls of the names enter no routine. -/
structure Follows (answer : Text → Params → σ → Outcome) (names : List (Text × Bool)) (c : Engine σ α) : Prop where
  settles : Settles Machine.Running (Machine.HostAnswers answer) c
  evaluates : ∀ m, Evaluates Set.univ c m
  tracks : ∀ {m u : Machine σ}, m.Twin answer u → u.Running → m.interp.Outward names → Tracks answer c m u

namespace Follows

variable {names : List (Text × Bool)} {a : Engine σ α} {f : α → Engine σ β}

theorem tracks_bind (ha : Follows answer names a)
    (hf : ∀ v, Resumable Running (HostAnswers answer) (f v)) (h : m.Twin answer u) (hrun : u.Running)
    (hout : m.interp.Outward names)
    (hrest : ∀ v {m' u' : Machine σ}, m'.Twin answer u' → u'.Running → m'.interp.Outward names → Tracks answer (f v) m' u') :
    Tracks answer (a >>= f) m u :=
  .bind ha.settles hf hrun (ha.tracks h hrun hout) fun v _ _ hv h' hrun' =>
    hrest v h' hrun' (((ha.evaluates m).ok hv).outward hout)

theorem pure (v : α) : Follows answer names (Pure.pure v) :=
  ⟨.pure v, .pure v, fun h _ _ => (Detached.pure v).tracks h⟩

theorem bind (ha : Follows answer names a) (hf : ∀ v, Follows answer names (f v)) : Follows answer names (a >>= f) where
  settles := .bind (hostAnswers_faithful answer) ha.settles fun v => (hf v).settles
  evaluates m := .bind (ha.evaluates m) fun v m' _ => (hf v).evaluates m'
  tracks h hrun hout := ha.tracks_bind (fun v => .of_evaluates (hostAnswers_faithful answer) (hf v).evaluates) h hrun hout
    fun v => (hf v).tracks

theorem remember {c : Engine σ Text} (hc : Detached c)
    (he : ∀ m : Machine σ, m.top.memo.lookup site = none → Evaluates site.tree c m) :
    Follows answer names (remember site c) where
  settles := remember_settles fun m => remember_evaluates site.self_mem_tree (he m)
  evaluates m := (remember_evaluates site.self_mem_tree (he m)).weaken
  tracks h _ _ := hc.remember.tracks h

end Follows

theorem follows_expressive {names : List (Text × Bool)} :
    Expressive Set.univ names fun _ c => Follows answer names c where
  below _ _ := trivial
  pure := .pure
  bind := .bind
  expand _ _ := .remember ⟨fun _ _ _ _ => rfl, .of_ok fun m => ⟨_, m, rfl⟩⟩ fun _ _ => .of_same rfl
  fetch _ name := .remember ⟨fetch_oblivious name, fetch_immediate name⟩ fun m _ => fetch_evaluates name m
  operator {g} _ :=
    ⟨.of_numeric g, numeric_evaluates g, fun h _ _ => (Detached.bind ⟨.numeric, .numeric⟩ fun _ => .orFail _).tracks h⟩
  call {site} hs _ _ args name quoted hname ha hin :=
    ⟨(settles_expressive (hostAnswers_faithful answer)).call hs args hname ha.settles hin,
      fun m => (remember_bind_evaluates (hin m) fun v m' hn =>
        call_evaluates site.self_mem_tree name (args v) true quoted m' hn).weaken,
      fun h hrun hout => .remember_call ha.settles hin h hrun (hout _ hname) (ha.tracks h hrun hout)⟩

theorem eval_follows {names : List (Text × Bool)} (site : Site) {x : Expr} (hx : x.calls ⊆ names) :
    Follows answer names (eval site x) :=
  follows_expressive.eval trivial x hx

end Engine

end Rexx
