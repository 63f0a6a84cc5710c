import Rexx.Proofs.Isolation.Routines

/-!
# `Trap.Causes` — why conditions are raised

Conditions are raised at many places of the evaluator and of the clauses.
-/

namespace Rexx

open Engine

/-! ## Replies that a frame keeps -/

/-- Every reply that the frame keeps belongs to an expression whose value has been noted; only replies that have `G`, and
those for sites in `K`, may be yet to be used. -/
def Frame.Closed (G : Outcome → Prop) (K : Set Site) (f : Frame) : Prop :=
  ∀ k r, f.replies.lookup k = some r → k ∈ K ∨ k ≠ [] ∧ (f.memo.lookup k).isSome ∨ G r

namespace Frame.Closed

variable {G : Outcome → Prop} {K K' : Set Site} {f f' : Frame} {site : Site} {r : Outcome}

theorem of_nil (h : f.replies = []) : f.Closed G K := by
  intro k r hk
  rw [h] at hk
  cases hk

theorem mono (h : f.Closed G K) (hK : K ⊆ K') : f.Closed G K' := fun k r hk => (h k r hk).imp_left fun hk => hK hk

theorem of_reply (h : f.Closed G ∅) (hn : site = [] ∨ f.memo.lookup site = none) (hr : f.replies.lookup site = some r) :
    G r := by
  obtain hk | ⟨hne, hm⟩ | hG := h site r hr
  · exact absurd hk (Set.notMem_empty _)
  · rw [hn.resolve_left hne] at hm
    cases hm
  · exact hG

theorem extended (h : f.Closed G K) (hx : f.Extends K f') : f'.Closed G K := by
  intro k r hk
  cases hr : f.replies.lookup k with
  | some r' =>
    obtain rfl : r' = r := Option.some.inj ((hx.replies k r' hr).symm.trans hk)
    refine (h k r' hr).imp_right fun h => h.imp_left fun ⟨hne, hm⟩ => ⟨hne, ?_⟩
    obtain ⟨v, hv⟩ := Option.isSome_iff_exists.1 hm
    rw [hx.memo k v hv]
    rfl
  | none =>
    by_cases hK : k ∈ K
    · exact .inl hK
    · rw [hx.replies_new k hr hK] at hk
      cases hk

theorem note (h : f.Closed G {site}) (hsite : site ≠ []) (v : Text) :
    ({ f with memo := (site, v) :: f.memo } : Frame).Closed G ∅ := by
  intro k r hk
  right
  by_cases hks : k = site
  · subst hks
    exact .inl ⟨hsite, by simp⟩
  · refine ((h k r hk).resolve_left hks).imp_left fun ⟨hne, hm⟩ => ⟨hne, ?_⟩
    simpa [List.lookup_cons, beq_eq_false_iff_ne.2 hks] using hm

end Frame.Closed

/-! ## Outcomes of which something is known -/

namespace Machine

variable {σ : Type} {F : Machine σ → Outcome → Prop} {S K K' : Set Site} {site : Site} {m m' : Machine σ} {r : Outcome}

structure Sound (m : Machine σ) : Prop where
  hosts : m.Hosts Variables.Grows
  tidy : m.interp.memory.Tidy

theorem Sound.evolved (h : m.Sound) (he : m.Evolves S m') : m'.Sound :=
  ⟨he.hosts h.hosts, ((he.writes _ h.hosts).moves (A := fun _ _ => False) (d := 0)).tidy h.tidy⟩

theorem Sound.retargeted {name auth asName : Text} {p : Registry σ × Option Text} (hm : m.Sound)
    (hsw : m.targets.switch name auth asName = .ok p) : (m.retarget p.1 p.2).Sound := by
  have hhosts := hm.hosts.switch hsw
  refine ⟨⟨hhosts.provisions, hhosts.loader⟩, ?_⟩
  have hwrite : Memory.Write Variables.Grows m.interp.memory (m.retarget p.1 p.2).interp.memory := .frame rfl
  exact hwrite.tidy hm.tidy

theorem Sound.noted (h : m.Sound) (site : Site) (v : Text) : (m.note site v).Sound := by
  have hwrite : Memory.Write Variables.Grows m.interp.memory (m.note site v).interp.memory := .frame rfl
  exact ⟨⟨h.hosts.provisions, h.hosts.loader⟩, hwrite.tidy h.tidy⟩

structure Publishes (F : Machine σ → Outcome → Prop) : Prop where
  congr : ∀ {m m' : Machine σ} {r : Outcome}, m'.interp.vars = m.interp.vars → F m r → F m' r
  settle : ∀ {m : Machine σ} (site : Site) (r : Outcome), m.Sound → F (m.settle site r) r.settled

/-- **`F` will be known of the outcomes of the clause**: it is known of any outcome, or it is known of those that are
published and of the other replies that are yet to be used, but for sites in `K`. -/
inductive Informed (F : Machine σ → Outcome → Prop) (K : Set Site) (m : Machine σ) : Prop where
  | always (known : ∀ m r, F m r)
  | published {G : Outcome → Prop} (known : Publishes F) (kept : ∀ m r, G r → F m r) (sound : m.Sound)
      (closed : m.top.Closed G K)

namespace Informed

theorem congr (h : m.Informed F K) (hsound : m.Sound → m'.Sound)
    (htop : ∀ G, m.top.Closed G K → m'.top.Closed G K') : m'.Informed F K' := by
  cases h with
  | always known => exact .always known
  | published known kept sound closed => exact .published known kept (hsound sound) (htop _ closed)

theorem mono (h : m.Informed F K) (hK : K ⊆ K') : m.Informed F K' := h.congr id fun _ hc => hc.mono hK

theorem evolved (h : m.Informed F K) (he : m.Evolves K m') : m'.Informed F K :=
  h.congr (fun hs => hs.evolved he) fun _ hc => hc.extended he.top

theorem known_of_reply (h : m.Informed F ∅) (hn : site = [] ∨ m.top.memo.lookup site = none)
    (hr : m.top.replies.lookup site = some r) : F m r := by
  cases h with
  | always known => exact known m r
  | published known kept sound closed => exact kept m r (closed.of_reply hn hr)

theorem known_of_settle (h : m.Informed F ∅) (site : Site) (r : Outcome) : F (m.settle site r) r.settled := by
  cases h with
  | always known => exact known _ _
  | published known _ sound => exact known.settle site r sound

theorem known_congr {m0 : Machine σ} (h : m0.Informed F K) (hvars : m'.interp.vars = m.interp.vars) (hr : F m r) : F m' r := by
  cases h with
  | always known => exact known m' r
  | published known => exact known.congr hvars hr

end Informed

end Machine

/-! ## Reasons -/

namespace Machine

variable {σ : Type}

/-- Code of the host that is registered throws the condition. -/
inductive Throws (m : Machine σ) (c : Condition) : Prop where
  | function {name : Text} {f : Entry (HostFunction σ)} {a : Args} {view view' : HostView σ}
      (registered : m.interp.functions[name]? = some f) (throws : f.code a view = .error (.condition c) view')
  | operation {name : Text} {f : Entry (HostOperation σ)} {params : Params} {view view' : HostView σ}
      (registered : m.interp.operations[name]? = some f) (throws : f.code params view = .error (.condition c) view')

/-- **Why a condition is raised**, with what holds of the machine on which it is. -/
inductive Causes (F : Machine σ → Outcome → Prop) (m : Machine σ) : Condition → Prop where
  | fault {f : Fault} (event : f.event = .syntaxError) : m.Causes F f.condition
  | unset (name : Text) (traps : m.stack.traps .novalue = true) : m.Causes F (Fault.noValue name).condition
  | uninitialized (name : Text) (fatal : m.interp.options.noValueFatal = true) :
      m.Causes F (Fault.uninitialized name).condition
  | failed {r : Outcome} (failure : r.success = false)
      (traps : m.stack.traps (Engine.failureEvent r) = true) (known : F m r) : m.Causes F (Engine.failureOf r)
  | thrown {c : Condition} (throws : m.Throws c) : m.Causes F c

end Machine

theorem Registry.switch_syntaxOnly {σ : Type} (r : Registry σ) (name auth asName : Text) :
    SyntaxOnly (r.switch name auth asName) := by
  unfold switch
  dsimp only
  split
  · exact .ok _
  · split
    · exact .error rfl
    · split
      · split
        · exact .ok _
        · exact .ok _
      · split
        · exact .error rfl
        · exact .ok _

namespace Engine

variable {σ α β : Type} {F : Machine σ → Outcome → Prop} {m m' : Machine σ}

/-! ## Computations whose conditions have reasons -/

/-- Every condition that the computation raises has a reason. -/
def Explains (F : Machine σ → Outcome → Prop) (c : Engine σ α) (m : Machine σ) : Prop :=
  ∀ e m', c m = .error (.raised e) m' → m'.Causes F e

namespace Explains

variable {c : Engine σ α}

theorem of_ok {v : α} (hc : c m = .ok v m') : Explains F c m := by
  intro e m1 he
  rw [hc] at he
  cases he

theorem of_suspended (hc : c m = .error .suspended m') : Explains F c m := by
  intro e m1 he
  rw [hc] at he
  cases he

theorem of_raised {e : Condition} (hc : c m = .error (.raised e) m') (h : m'.Causes F e) : Explains F c m := by
  intro e1 m1 he
  rw [hc] at he
  cases he
  exact h

theorem congr {c' : Engine σ α} (h : Explains F c' m) (heq : c m = c' m) : Explains F c m := fun e m' hc =>
  h e m' (heq.symm.trans hc)

theorem bind {a : Engine σ α} {f : α → Engine σ β} (ha : Explains F a m)
    (hf : ∀ v m', a m = .ok v m' → Explains F (f v) m') : Explains F (a >>= f) m := by
  intro e m' h
  cases hm : a m with
  | ok v m1 => exact hf v m1 hm e m' ((bind_of_ok hm).symm.trans h)
  | error e1 m1 =>
    rw [bind_of_error hm] at h
    cases h
    exact ha e m' hm

theorem fail {f : Fault} (h : f.event = .syntaxError) (m : Machine σ) : Explains F (fail f : Engine σ α) m :=
  .of_raised rfl (.fault h)

theorem orFail {r : Except Fault α} (h : SyntaxOnly r) (m : Machine σ) : Explains F (orFail r) m := by
  cases r with
  | ok v => exact .of_ok rfl
  | error f => exact .fail (h f rfl) m

end Explains

/-! ## Variables and calls -/

theorem fetch_explains (name : Text) (m : Machine σ) : Explains F (fetch name) m := by
  refine .bind (.of_ok rfl) fun i m1 h1 => ?_
  cases h1
  split
  · exact .of_ok rfl
  · dsimp only
    split
    · exact .of_ok rfl
    · split
      · exact .of_raised rfl (.unset _ ‹_›)
      · split
        · exact .of_raised rfl (.uninitialized _ ‹_›)
        · exact .of_ok rfl

variable {f : α → Engine σ β} {name : Text} {site : Site}

theorem remember_explains {c : Engine σ Text} (hc : Explains F c m) : Explains F (remember site c) m := by
  refine .bind (.of_ok rfl) fun f m1 h1 => ?_
  cases h1
  split
  · exact .of_ok rfl
  · exact .bind hc fun v m2 _ => .of_ok rfl

theorem callHost_explains (code : HostCode σ α) (m : Machine σ) : Explains F (callHost code) m := by
  intro e m' h
  rw [callHost_apply] at h
  split at h <;> cases h

theorem throws_of_callHost {code : HostCode σ α} {c : Condition} (h : callHost code m = .ok (.error (.condition c)) m') :
    (∃ view', code m.hostView = .error (.condition c) view') ∧ m'.interp.functions = m.interp.functions ∧
      m'.interp.operations = m.interp.operations := by
  rw [callHost_apply] at h
  cases hc : code m.hostView with
  | ok a v =>
    rw [hc] at h
    cases h
  | error e v =>
    rw [hc] at h
    cases h
    exact ⟨⟨v, rfl⟩, rfl, rfl⟩

theorem callFunction_explains {f : Entry (HostFunction σ)} (a : Args) (m : Machine σ)
    (hf : m.interp.functions[name]? = some f) : Explains F (callFunction name f.code a) m := by
  refine .bind (callHost_explains (f.code a) m) fun r m1 h1 => ?_
  cases r with
  | ok value => exact .of_ok rfl
  | error fault =>
    cases fault with
    | condition c =>
      obtain ⟨⟨view', hthrows⟩, hfunctions, _⟩ := throws_of_callHost h1
      exact .of_raised rfl (.thrown (.function (hfunctions ▸ hf) hthrows))
    | exception message => exact .fail rfl m1

theorem explains_elementary : Elementary fun _ (c : Engine σ _) => ∀ m, Explains F c m where
  pure _ _ := .of_ok rfl
  bind ha hf m := .bind (ha m) fun v m1 _ => hf v m1
  fail := .fail
  interp _ := .of_ok rfl
  modifyInterp _ _ _ := .of_ok rfl

theorem explains_computing : Computing fun _ c => ∀ m, Explains F c m where
  toSequential := explains_elementary.toSequential
  numeric _ := .of_ok rfl
  fetch := fetch_explains
  assign := explains_elementary.assign
  reads _ hg _ := .bind (.of_ok rfl) fun m0 m1 _ => hg m0 m1
  draws _ _ := .of_ok rfl
  marks _ _ := .of_ok rfl

theorem enterRoutine_explains (site : Site) (i : Nat) (a : Args) (needsValue : Bool) (m : Machine σ) :
    Explains F (enterRoutine site i a needsValue : Engine σ α) m := by
  have h := enterRoutine_apply (α := α) site i a needsValue m
  by_cases hfull : maxDepth ≤ m.stack.depth
  · rw [if_pos hfull] at h
    exact .of_raised h (.fault rfl)
  · rw [if_neg hfull] at h
    exact .of_suspended h

theorem ask_explains (name : Text) (b : Binding σ) (cmd : Text) (params : Params) (method : Bool) (m : Machine σ) :
    Explains F (ask name b cmd params method) m := by
  unfold ask
  split
  · exact .of_ok rfl
  · refine .bind (callHost_explains _ m) fun r m1 _ => ?_
    cases r <;> exact .of_ok rfl

theorem dispatch_explains (site : Site) (name cmd : Text) (params : Params) (method : Bool) (m : Machine σ) :
    Explains F (dispatch site name cmd params method) m := by
  have hd := dispatch_apply site name cmd params method m
  cases hr : m.top.replies.lookup site with
  | some r =>
    rw [hr] at hd
    exact .of_ok hd
  | none =>
    rw [hr] at hd
    cases hb : m.targets[name]? with
    | none =>
      rw [hb] at hd
      exact .of_raised hd (.fault rfl)
    | some b =>
      rw [hb] at hd
      refine (Explains.bind (ask_explains name b cmd params method m) fun reply m1 _ => ?_).congr hd
      cases reply with
      | wait c => exact .of_suspended (await_apply site c m1)
      | now r => exact .of_ok rfl

theorem check_explains {r : Outcome} (hF : F m r) : Explains F (check r) m := by
  have h := check_apply r m
  by_cases hr : (!r.success && m.stack.traps (failureEvent r)) = true
  · rw [if_pos hr] at h
    simp only [Bool.and_eq_true, Bool.not_eq_true'] at hr
    exact .of_raised h (.failed hr.1 hr.2 hF)
  · rw [if_neg hr] at h
    exact .of_ok h

/-! ## Parts of clauses that evaluate nothing -/

theorem execHostOperation_explains {op : Entry (HostOperation σ)} (params : Params) (m : Machine σ)
    (hop : m.interp.operations[name]? = some op) : Explains F (execHostOperation name op.code params) m := by
  refine .bind (callHost_explains _ m) fun r m1 h1 => ?_
  cases r with
  | ok value => exact .of_ok rfl
  | error fault =>
    cases fault with
    | condition c =>
      obtain ⟨⟨view', hthrows⟩, _, hoperations⟩ := throws_of_callHost h1
      exact .of_raised rfl (.thrown (.operation (hoperations ▸ hop) hthrows))
    | exception message => exact .fail rfl m1

theorem loadModule_explains (as spec : Text) (m : Machine σ) : Explains F (loadModule as spec) m := by
  refine .bind (.of_ok rfl) fun _ m1 _ => .bind (.of_ok rfl) fun _ m2 _ => ?_
  split
  · exact .of_ok rfl
  · exact .fail rfl m2

theorem switchTo_explains (name asName auth : Text) (m : Machine σ) : Explains F (switchTo name asName auth) m := by
  refine .bind (.of_ok rfl) fun m0 m1 _ => ?_
  exact .bind (.orFail (m0.targets.switch_syntaxOnly name auth asName) m1) fun p _ _ => .of_ok rfl

theorem unlessReturned_explains {c : Engine σ Unit} (hc : Explains F c m) :
    Explains F (unlessReturned c) m := by
  refine .bind (.of_ok (top_apply m)) fun f m1 h1 => ?_
  cases h1
  split
  · exact .of_ok rfl
  · exact hc

theorem raised_of_returnWith {value : Option Text} {e : Condition} (h : returnWith value m = .error (.raised e) m') :
    e = Fault.noData.condition ∧ m'.interp.line = m.interp.line ∧
      m'.interp.options.noValueFatal = m.interp.options.noValueFatal := by
  cases hc : m.stack.callers with
  | nil =>
    rw [returnWith_of_nil hc] at h
    cases h
  | cons c cs =>
    rw [returnWith_of_cons hc] at h
    cases hv : c.needsValue && value.isNone with
    | true =>
      rw [handBack_of_noData hv] at h
      cases h
      exact ⟨rfl, rfl, rfl⟩
    | false =>
      obtain ⟨store, pool, hb⟩ := handBack_of_data hv (popped m c cs)
      rw [hb] at h
      cases h

/-! ## Computations that may leave the frame -/

/-- A condition is raised in the line and in the frame that the computation has begun in, but for one: a routine may have been
left without the value that the call needs. -/
def Falls (c : Engine σ α) (m : Machine σ) : Prop :=
  ∀ e m', c m = .error (.raised e) m' → m'.interp.line = m.interp.line ∧
    m'.interp.options.noValueFatal = m.interp.options.noValueFatal ∧
    (m'.stack.depth = m.stack.depth ∨ e = Fault.noData.condition)

variable {k : Option Clause} {c : Engine σ α}

theorem line_of_does (h : m.Does k m') : m'.interp.line = m.interp.line ∧
    m'.interp.options.noValueFatal = m.interp.options.noValueFatal := by
  refine h.keeps (R := fun m m' => m'.interp.line = m.interp.line ∧
    m'.interp.options.noValueFatal = m.interp.options.noValueFatal) (fun _ => ⟨rfl, rfl⟩)
    (fun h h' => ⟨h'.1.trans h.1, h'.2.trans h.2⟩) fun m m' h => ?_
  cases h with
  | evaluates h => exact ⟨by rw [h.interp], by rw [h.interp]⟩
  | _ => exact ⟨rfl, rfl⟩

theorem Falls.of_ok {v : α} (hc : c m = .ok v m') : Falls c m := by
  intro e m1 he
  rw [hc] at he
  cases he

theorem Falls.of_enacts (h : Enacts k c m) : Falls c m := fun _ _ hc =>
  have hd : m.Does k _ := h.raised hc
  ⟨(line_of_does hd).1, (line_of_does hd).2, .inl hd.steady.depth⟩

theorem Falls.bind {a : Engine σ α} (ha : Enacts k a m) (hf : ∀ v m', Falls (f v) m') : Falls (a >>= f) m := by
  intro e m' h
  cases hm : a m with
  | ok v m1 =>
    have hd : m.Does k m1 := ha.ok hm
    obtain ⟨hline, hstrict, hdepth⟩ := hf v m1 e m' ((bind_of_ok hm).symm.trans h)
    exact ⟨hline.trans (line_of_does hd).1, hstrict.trans (line_of_does hd).2,
      hdepth.imp_left fun h => h.trans hd.steady.depth⟩
  | error e1 m1 =>
    rw [bind_of_error hm] at h
    cases h
    exact Falls.of_enacts ha e m' hm

theorem returnWith_falls (value : Option Text) (m : Machine σ) : Falls (returnWith value) m := fun _ _ h =>
  have h' := raised_of_returnWith h
  ⟨h'.2.1, h'.2.2, .inr h'.1⟩

theorem exec_falls (s : Stmt) (m : Machine σ) : Falls (exec s) m := by
  cases hs : s.leaves with
  | false => exact .of_enacts (exec_enacts hs m)
  | true => exact exec_of_leaves hs .bind (fun _ => .of_ok rfl) (fun _ _ => .of_ok rfl) returnWith_falls m

theorem endBlock_falls (c : Cursor) (m : Machine σ) : Falls (endBlock c) m := by
  unfold endBlock
  split
  · exact .of_ok rfl
  · refine .bind (k := none) (.of_same (interp_apply m)) fun i m1 => ?_
    dsimp only
    split
    · exact .of_ok rfl
    · split
      · exact returnWith_falls none m1
      · exact .of_ok rfl

/-! ## Calls -/

theorem ok_of_bind {a : Engine σ α} {v : β} (h : (a >>= f) m = .ok v m') :
    ∃ w m1, a m = .ok w m1 ∧ f w m1 = .ok v m' := by
  cases ha : a m with
  | ok w m1 => exact ⟨w, m1, rfl, (bind_of_ok ha).symm.trans h⟩
  | error e m1 =>
    rw [bind_of_error ha] at h
    cases h

theorem known_of_dispatch {name cmd : Text} {params : Params} {method : Bool} {r : Outcome}
    (h : m.Informed F ∅) (hn : site = [] ∨ m.top.memo.lookup site = none)
    (hd : dispatch site name cmd params method m = .ok r m') : F m' r := by
  rw [dispatch_apply] at hd
  cases hr : m.top.replies.lookup site with
  | some r' =>
    rw [hr] at hd
    cases hd
    exact h.known_of_reply hn hr
  | none =>
    rw [hr] at hd
    cases hb : m.targets[name]? with
    | none =>
      rw [hb] at hd
      cases hd
    | some b =>
      rw [hb] at hd
      obtain ⟨reply, m1, ha, hd⟩ := ok_of_bind hd
      cases reply with
      | wait c =>
        have hd : await site c m1 = .ok r m' := hd
        rw [await_apply] at hd
        cases hd
      | now r' =>
        cases hd
        exact (h.evolved ((ask_evaluates name cmd params method m hb).ok ha)).known_of_settle site r'

theorem call_explains (h : m.Informed F ∅) (hn : site = [] ∨ m.top.memo.lookup site = none)
    (name : Text) (a : Args) (needsValue quoted : Bool) : Explains F (call site name a needsValue quoted) m := by
  unfold call
  split
  · exact explains_computing.callBuiltin _ a m
  · refine .bind (.of_ok rfl) fun i m1 h1 => ?_
    cases h1
    split
    · exact callFunction_explains a m ‹_›
    · split
      · exact enterRoutine_explains site _ a needsValue m
      · refine .bind (.of_ok (targetWith?_apply name m)) fun t m2 h2 => ?_
        cases h2
        split
        · refine .bind (dispatch_explains site _ name _ true m) fun r m3 hd => ?_
          exact .bind (check_explains (known_of_dispatch h hn hd)) fun _ m4 _ => .of_ok rfl
        · exact .fail rfl m

/-! ## Expressions -/

/-- **An evaluation**: every condition that it raises has a reason, and a value leaves no replies to use but for sites in
`K`. -/
structure Informs (F : Machine σ → Outcome → Prop) (K : Set Site) (c : Engine σ α) (m : Machine σ) : Prop where
  explains : Explains F c m
  informed : ∀ {v : α} {m' : Machine σ}, c m = .ok v m' → m'.Informed F K

namespace Informs

variable {K : Set Site} {a : Engine σ α}

theorem of_evaluates {c : Engine σ α} (h : m.Informed F ∅) (he : Evaluates K c m) (ha : Explains F c m) : Informs F K c m :=
  ⟨ha, fun hc => (h.mono (Set.empty_subset K)).evolved (he.ok hc)⟩

variable {site : Site} {f : α → Engine σ β}

theorem bind (ha : Informs F ∅ a m)
    (hf : ∀ v m', a m = .ok v m' → m'.Informed F ∅ → Informs F K (f v) m') : Informs F K (a >>= f) m := by
  refine ⟨.bind ha.explains fun v m1 h => (hf v m1 h (ha.informed h)).explains, fun {v m'} hc => ?_⟩
  obtain ⟨w, m1, h, hc⟩ := ok_of_bind hc
  exact (hf w m1 h (ha.informed h)).informed hc

theorem before (ha : Informs F ∅ a m) (hf : ∀ v m', m'.Informed F ∅ → Explains F (f v) m') : Explains F (a >>= f) m :=
  .bind ha.explains fun v m' h => hf v m' (ha.informed h)

theorem pure (h : m.Informed F ∅) (v : α) : Informs F ∅ (Pure.pure v) m :=
  .of_evaluates h (.pure v m) (.of_ok rfl)

theorem fail {f : Fault} (h : m.Informed F ∅) (hf : f.event = .syntaxError) : Informs F ∅ (fail f : Engine σ α) m :=
  .of_evaluates h (.fail f m) (.fail hf m)

theorem orFail {r : Except Fault α} (h : m.Informed F ∅) (hr : SyntaxOnly r) : Informs F ∅ (orFail r) m := by
  cases r with
  | ok v => exact .pure h v
  | error f => exact .fail h (hr f rfl)

theorem remember {c : Engine σ Text} (hsite : site ≠ []) (h : m.Informed F ∅)
    (hc : m.top.memo.lookup site = none → Informs F {site} c m) : Informs F ∅ (remember site c) m := by
  cases hn : m.top.memo.lookup site with
  | some v =>
    have hv : Engine.remember site c m = .ok v m := remember_of_some hn
    refine ⟨.of_ok hv, fun {w m'} hw => ?_⟩
    rw [hv] at hw
    cases hw
    exact h
  | none =>
    refine ⟨remember_explains (hc hn).explains, fun {w m'} hw => ?_⟩
    cases he : c m with
    | ok v m1 =>
      rw [remember_of_ok hn he] at hw
      cases hw
      exact ((hc hn).informed he).congr (fun hs => hs.noted site _) fun _ hclosed => hclosed.note hsite _
    | error e m1 =>
      rw [remember_of_error hn he] at hw
      cases hw

theorem remember_call (hsite : site ≠ []) (h : m.Informed F ∅) (ha : Informs F ∅ a m)
    (hin : Evaluates site.inner a m) (name : Text) (args : α → Args) (quoted : Bool) :
    Informs F ∅ (Engine.remember site (a >>= fun v => call site name (args v) true quoted)) m := by
  refine .remember hsite h fun hn => .bind ha fun v m1 hv h1 => ?_
  have hn1 : m1.top.memo.lookup site = none := ((hin.ok hv).top.memo_eq site.self_not_mem_inner).trans hn
  exact .of_evaluates h1 (call_evaluates (Set.mem_singleton site) name _ true quoted m1 hn1)
    (call_explains h1 (.inr hn1) name _ true quoted)

end Informs

theorem informs_expressive {names : List (Text × Bool)} :
    Expressive {s | s ≠ []} names fun _ c => ∀ m, m.Informed F ∅ → Informs F ∅ c m where
  below := List.cons_ne_nil
  pure v _ h := .pure h v
  bind ha hf m h := .bind (ha m h) fun v m1 _ h1 => hf v m1 h1
  expand hs _ _ h := .remember hs h fun _ => .of_evaluates h (.of_same rfl) (.of_ok rfl)
  fetch hs name m h := .remember hs h fun _ => .of_evaluates h (fetch_evaluates name m) (fetch_explains name m)
  operator hg m h := .bind (.of_evaluates h (.of_same (numeric_apply m)) (.of_ok rfl)) fun s _ _ h1 => .orFail h1 (hg s)
  call hs _ _ args name quoted _ ha hin m h := .remember_call hs h (ha m h) (hin m) name args quoted

theorem informs_evaluative : Evaluative fun _ c => ∀ m, m.Informed F ∅ → Informs F ∅ c m where
  pure v _ h := .pure h v
  bind ha hf m h := .bind (ha m h) fun v m1 _ h1 => hf v m1 h1
  fail hf _ h := .fail h hf
  eval i x := informs_expressive.eval (List.cons_ne_nil i []) x (List.Subset.refl _)

/-! ## Clauses with a course of their own -/

section Operands

variable (h : m.Informed F ∅)
include h

variable (name : Text) (args : List Expr)

theorem args_informs : Informs F ∅ (evalArgs [] 0 args) m :=
  informs_expressive.evalArgs [] 0 args (List.Subset.refl _) m h

theorem send_explains (target cmd : Text) (params : Params) (method : Bool) :
    Explains F (send target cmd params method) m := by
  refine .bind (dispatch_explains [] target cmd params method m) fun r m1 hd => ?_
  refine .bind (.of_ok rfl) fun _ m2 hadv => check_explains ?_
  cases hadv
  exact h.known_congr (m := m1) rfl (known_of_dispatch h (.inl rfl) hd)

theorem switchTo_informs (name asName auth : Text) : Informs F ∅ (switchTo name asName auth) m := by
  refine ⟨switchTo_explains name asName auth m, fun {v m'} hc => ?_⟩
  rw [switchTo_apply] at hc
  cases hsw : m.targets.switch name auth asName with
  | error f =>
    rw [hsw] at hc
    cases hc
  | ok p =>
    rw [hsw] at hc
    cases hc
    exact h.congr (fun hs => hs.retargeted hsw) fun _ => id

theorem modifyInterp_informs (f : Interpreter σ → Interpreter σ) (hsound : m.Sound → (m.modifyInterp f).Sound)
    (htop : (m.modifyInterp f).top = m.top) : Informs F ∅ (modifyInterp f) m := by
  refine ⟨.of_ok rfl, fun {v m'} hc => ?_⟩
  cases hc
  exact h.congr hsound fun _ hclosed => htop ▸ hclosed

theorem execCall_explains : Explains F (execCall name args) m := by
  refine (args_informs h args).before fun a m1 h1 => ?_
  exact .bind (call_explains h1 (.inl rfl) name a false false) fun _ _ _ => .of_ok rfl

theorem execRoutine_explains : Explains F (execRoutine name args) m := by
  refine unlessReturned_explains (.bind (.of_ok rfl) fun i m1 h1 => ?_)
  cases h1
  dsimp only
  cases ho : if args.isEmpty then m.interp.operations[name]? else none with
  | some op => exact execHostOperation_explains [] m (Option.ite_none_right_eq_some.1 ho).2
  | none => exact execCall_explains h name args

theorem execOperation_explains (params : List (Text × Expr)) : Explains F (execOperation name params) m := by
  refine unlessReturned_explains ((args_informs h _).before fun values m1 h1 => ?_)
  refine .bind (.of_ok rfl) fun i m2 h2 => ?_
  cases h2
  split
  · exact execHostOperation_explains _ m1 ‹_›
  · refine .bind (.of_ok (targetWith?_apply name m1)) fun t m3 h3 => ?_
    cases h3
    split
    · exact .fail rfl m1
    · exact send_explains h1 _ name _ true

theorem execInterpret_explains (x : Expr) : Explains F (execInterpret x) m := by
  refine .bind (explains_elementary.permit m) fun _ m1 h1 => ?_
  obtain ⟨-, rfl⟩ := permit_ok.1 h1
  exact (informs_evaluative.eval 0 x m1 h).before fun source m2 _ => explains_elementary.runText source m2

theorem exec_explains (s : Stmt) : Explains F (exec s) m := by
  have hX : Executive s.clause? s.blocks (fun _ c => ∀ m, m.Informed F ∅ → Informs F ∅ c m)
      (fun _ c => ∀ m, Explains F c m) fun _ c => ∀ m, m.Informed F ∅ → Explains F c m := {
    evaluative := informs_evaluative
    pervasive := explains_computing.toPervasive
    seq ha hf m h := .bind (ha m h).explains fun v m1 hv => hf v m1 ((ha m h).informed hv)
    onward hc m _ := .bind (.of_ok rfl) fun _ m1 _ => hc m1
    acted hc m _ := .bind (hc m) fun _ _ _ => .of_ok rfl
    inward hc _ _ m _ := .bind (.of_ok rfl) fun _ m1 _ => .bind (hc m1) fun _ _ _ => .of_ok rfl
    look m h := .of_evaluates h (.of_same rfl) (.of_ok rfl)
    vars g m h := .of_evaluates h (.of_same rfl) (.of_ok rfl)
    fetch name m h := .of_evaluates h (fetch_evaluates name m) (fetch_explains name m)
    take g m h := modifyInterp_informs h _ (fun hs => ⟨⟨hs.1.1, hs.1.2⟩, hs.2⟩) rfl
    speak _ _ := .of_ok rfl
    change _ _ := .of_ok rfl
    send name cmd params method _ h := send_explains h name cmd params method
    forbid _ _ := .of_ok rfl
    arm _ _ := .of_ok rfl
    disarm _ _ := .of_ok rfl
    trace _ _ _ := .of_ok rfl
    count _ := explains_elementary.setNumeric _
    form _ _ _ := .of_ok rfl
    aim _ _ _ := .of_ok rfl
    switch _ token _ h := switchTo_informs h _ _ token
    load _ := loadModule_explains _
    report _ line m h := modifyInterp_informs h _ (fun hs => ⟨⟨hs.1.1, hs.1.2⟩, hs.2⟩) rfl
    exit _ _ _ _ := .of_ok rfl
    ret _ value m _ := explains_elementary.returnWith value m
    jump label m _ := explains_elementary.jump label m
    leave var again m _ := explains_elementary.leaveLoop var again m
    interpret _ _ h := execInterpret_explains h _
    procedure _ m _ := explains_elementary.execProcedure _ m
    call name args _ h := unlessReturned_explains (execCall_explains h name args)
    routine name args _ h := execRoutine_explains h name args
    operation name params _ h := execOperation_explains h name params }
  exact hX.exec m h

theorem step_explains_of_aboutTo {c : Cursor} {s : Stmt} {e : Condition} (hs : m.AboutTo c s)
    (hstep : step m = .error (.raised e) m') :
    m'.Causes F e ∧ m'.interp.line = m.interp.lineOf c s ∧
      m'.interp.options.noValueFatal = m.interp.options.noValueFatal ∧
      (m'.stack.depth = m.stack.depth ∨ e = Fault.noData.condition) := by
  rw [step_of_aboutTo hs] at hstep
  have h' : (m.announced c s).Informed F ∅ :=
    h.congr (fun hs => ⟨⟨hs.hosts.provisions, hs.hosts.loader⟩, hs.tidy⟩) fun _ => id
  exact ⟨exec_explains h' s e m' hstep, exec_falls s _ e m' hstep⟩

end Operands

/-! ## Steps

The control of a loop may assign variables between a reply and its use, so only what is known of every outcome is known of
those that come up in its guards. -/

section Steps

variable (hF : ∀ (m : Machine σ) (r : Outcome), F m r)
include hF

theorem explains_looping : Looping fun _ c => ∀ m, Explains F c m where
  toPervasive := explains_computing.toPervasive
  eval i x m := (informs_evaluative.eval i x m (.always hF)).explains
  leaveBlock _ := .of_ok rfl
  setLoop _ _ := .of_ok rfl
  beginRound _ _ := .of_ok rfl

theorem step_explains {e : Condition} (hstep : step m = .error (.raised e) m') :
    m'.Causes F e ∧ m'.interp.options.noValueFatal = m.interp.options.noValueFatal ∧
      (m'.stack.depth = m.stack.depth ∨ e = Fault.noData.condition) := by
  by_cases hs : ∃ c s, m.AboutTo c s
  · obtain ⟨c, s, hs⟩ := hs
    obtain ⟨hcause, _, hrest⟩ := step_explains_of_aboutTo (.always hF) hs hstep
    exact ⟨hcause, hrest⟩
  · -- No statement comes next: a block ends, or the control of a loop is tested.
    simp only [not_exists] at hs
    obtain h | ⟨c, h⟩ | ⟨l, h⟩ := step_of_no_stmt hs
    · cases h.symm.trans hstep
    · have hend := h.symm.trans hstep
      exact ⟨explains_elementary.endBlock c m e m' hend, (endBlock_falls c m e m' hend).2⟩
    · have hloop := h.symm.trans hstep
      exact ⟨(explains_looping hF).stepLoop l m e m' hloop, (Falls.of_enacts (k := none) (enacts_looping.stepLoop l m) e m' hloop).2⟩

end Steps

end Engine

end Rexx
