import Rexx.Proofs.Evaluation.Calls

/-!
# `Deferral.Twin` — answers at once and answers later

A target answers a command or method at once, or has the host answer later.
-/

namespace Rexx

open Engine Machine Outcome

/-! ## Outcomes and responses -/

def Outcome.plain (r : Outcome) : Outcome := if r.success then { r with error := [] } else r

def Response.carrying (id : UInt32) (r : Outcome) : Response := ⟨id, r.success, r.output, r.error, r.status⟩

theorem Response.outcome_carrying (id : UInt32) (r : Outcome) :
    (Response.carrying id r).outcome.settled = r.settled.plain := by
  obtain ⟨success, output, status, error⟩ := r
  cases success <;> by_cases hs : status = 0 <;>
    simp [Response.carrying, Response.outcome, settled, plain, hs]

variable (r : Outcome)

theorem Outcome.plain_plain : r.plain.plain = r.plain := by
  obtain ⟨success, output, status, error⟩ := r
  cases success <;> rfl

theorem Outcome.settled_plain : r.plain.settled = r.settled.plain := by
  obtain ⟨success, output, status, error⟩ := r
  cases success <;> by_cases hs : status = 0 <;> simp [settled, plain, hs]

theorem Outcome.output_plain : r.plain.output = r.output := by
  unfold plain
  split <;> rfl

theorem Variables.publish_plain (v : Variables) (r : Outcome) : v.publish r.plain = v.publish r := by
  unfold plain
  split
  · rename_i hs
    simp only [Variables.publish, hs, if_true]
  · rfl

theorem Engine.check_plain {σ : Type} : (check r.plain : Engine σ Unit) = check r := by
  funext m
  unfold plain
  split
  · rename_i hs
    simp [check_apply, hs]
  · rfl

/-! ## Targets that answer at once -/

section

variable {σ : Type} (answer : Text → Params → σ → Outcome)

def Reply.atOnce (host : σ) : Reply → Reply
  | .now r => .now r
  | .wait c => .now (answer c.operation c.params host)

def Target.atOnce (t : Target σ) : Target σ :=
  { t with
    handle := fun cmd params ctx => do
      let reply ← t.handle cmd params ctx
      return reply.atOnce answer (← HostCode.getState) }

theorem Target.handle_atOnce (t : Target σ) (cmd : Text) (params : Params) (ctx : CallContext) (v : HostView σ) :
    (t.atOnce answer).handle cmd params ctx v = match t.handle cmd params ctx v with
      | .ok reply v' => .ok (reply.atOnce answer v'.state) v'
      | .error e v' => .error e v' := by
  show (_ >>= _ : HostCode σ Reply) v = _
  rw [bind_apply]
  cases t.handle cmd params ctx v <;> rfl

def Binding.atOnce (b : Binding σ) : Binding σ := { b with target := b.target.atOnce answer }

def Registry.atOnce (r : Registry σ) : Registry σ := r.map fun _ b => b.atOnce answer

def Machine.atOnce (m : Machine σ) : Machine σ := { m with targets := m.targets.atOnce answer }

end

/-! ## Twins -/

namespace Interpreter

variable {σ : Type}

def withReplies (i : Interpreter σ) (replies : List (Site × Outcome)) : Interpreter σ :=
  i.modifyTop fun f => { f with replies }

end Interpreter

namespace Machine

variable {σ : Type} {answer : Text → Params → σ → Outcome} {m m' u : Machine σ}

def refit (m : Machine σ) (replies : List (Site × Outcome)) (targets : Registry σ) (channel : Channel) : Machine σ :=
  ⟨m.interp.withReplies replies, targets, channel, m.around, m.host⟩

theorem refit_self (m : Machine σ) : m.refit m.top.replies m.targets m.channel = m := rfl

def SameReplies (rs rs' : List (Site × Outcome)) : Prop :=
  rs'.map (Prod.map id Outcome.plain) = rs.map (Prod.map id Outcome.plain)

theorem SameReplies.lookup {rs rs' : List (Site × Outcome)} (h : SameReplies rs rs') (site : Site) :
    (rs'.lookup site).map Outcome.plain = (rs.lookup site).map Outcome.plain := by
  have hmap : ∀ l : List (Site × Outcome),
      (l.map (Prod.map id Outcome.plain)).lookup site = (l.lookup site).map Outcome.plain := by
    intro l
    induction l with
    | nil => rfl
    | cons p l ih =>
      obtain ⟨k, r⟩ := p
      simp only [List.map_cons, Prod.map_apply, id_eq, List.lookup_cons]
      split
      · rfl
      · exact ih
  rw [← hmap, ← hmap, h]

/-- **The twin** `u` of a machine whose targets answer at once: its targets are those that may have the host answer. -/
structure Twin (answer : Text → Params → σ → Outcome) (m u : Machine σ) : Prop where
  interp : u.interp = m.interp.withReplies u.top.replies
  replies : SameReplies m.top.replies u.top.replies
  targets : ∀ name : Text, m.targets[name]? = u.targets[name]?.map (Binding.atOnce answer)
  around : u.around = m.around
  host : u.host = m.host
  room : u.channel.outstanding < 2 ^ 32 - 1

theorem Twin.eq_refit (h : m.Twin answer u) : u = m.refit u.top.replies u.targets u.channel := by
  unfold refit
  rw [← h.interp, ← h.around, ← h.host]

theorem Twin.refit (h : m.Twin answer u) (hr : m'.top.replies = m.top.replies)
    (ht : m'.targets = m.targets) : m'.Twin answer (m'.refit u.top.replies u.targets u.channel) where
  interp := rfl
  replies := hr ▸ h.replies
  targets name := ht ▸ h.targets name
  around := rfl
  host := rfl
  room := h.room

/-! ### Host code and outcomes -/

theorem hostView_refit (m : Machine σ) (replies : List (Site × Outcome)) (targets : Registry σ) (channel : Channel) :
    (m.refit replies targets channel).hostView = m.hostView := by
  have hcallers : (m.refit replies targets channel).stack.callers = m.stack.callers := rfl
  unfold hostView Interpreter.mainVariables Stack.main
  rw [hcallers]
  cases m.stack.callers.getLast? <;> rfl

theorem afterHost_refit (m : Machine σ) (v : HostView σ) (replies : List (Site × Outcome)) (targets : Registry σ)
    (channel : Channel) :
    (m.refit replies targets channel).afterHost v = (m.afterHost v).refit replies targets channel := by
  unfold afterHost Interpreter.setMainVariables Stack.modifyMain
  cases hc : m.stack.callers.isEmpty with
  | true =>
    have hc' : (m.refit replies targets channel).stack.callers.isEmpty = true := hc
    rw [hc']
    rfl
  | false =>
    have hc' : (m.refit replies targets channel).stack.callers.isEmpty = false := hc
    rw [hc']
    rfl

theorem Twin.afterHost (h : m.Twin answer u) (v : HostView σ) : (m.afterHost v).Twin answer (u.afterHost v) := by
  have hr : (m.afterHost v).top.replies = m.top.replies := by
    unfold Machine.afterHost Interpreter.setMainVariables Stack.modifyMain
    split <;> rfl
  have hu : u.afterHost v = (m.afterHost v).refit u.top.replies u.targets u.channel := by
    conv_lhs => rw [h.eq_refit]
    exact afterHost_refit m v _ _ _
  rw [hu]
  exact h.refit hr rfl

theorem settle_interp (m : Machine σ) (site : Site) (r : Outcome) :
    (m.settle site r).interp = (m.interp.setVariables (m.interp.vars.publish r.settled)).withReplies
      ((site, r.settled) :: m.top.replies) := by
  rw [settle_eq]
  rfl

theorem settle_congr {site : Site} {r r' : Outcome} (h : r'.settled = r.settled) : m.settle site r' = m.settle site r := by
  rw [settle_eq, settle_eq, h]

theorem Twin.settle {site : Site} {r r' : Outcome} (h : m.Twin answer u) (hr : r'.plain = r.plain) {ch : Channel}
    (hch : ch.outstanding < 2 ^ 32 - 1) :
    (m.settle site r).Twin answer { u.settle site r' with channel := ch } := by
  have hs : r'.settled.plain = r.settled.plain := by rw [← Outcome.settled_plain, hr, Outcome.settled_plain]
  have hpub : ∀ v : Variables, v.publish r'.settled = v.publish r.settled := fun v => by
    rw [← Variables.publish_plain, hs, Variables.publish_plain]
  have hvars : u.interp.vars = m.interp.vars := by
    rw [h.interp]
    rfl
  have hi : (u.settle site r').interp = (m.settle site r).interp.withReplies
      ((site, r'.settled) :: u.top.replies) := by
    rw [settle_interp, settle_interp, hpub, h.interp]
    rfl
  refine ⟨?_, ?_, h.targets, h.around, h.host, hch⟩
  · show (u.settle site r').interp = (m.settle site r).interp.withReplies (u.settle site r').interp.stack.top.replies
    rw [hi]
    rfl
  · show SameReplies (m.settle site r).interp.stack.top.replies (u.settle site r').interp.stack.top.replies
    rw [hi, settle_interp]
    show List.map _ ((site, r'.settled) :: u.top.replies) =
      List.map _ ((site, r.settled) :: m.top.replies)
    simp only [List.map_cons, Prod.map_apply, hs]
    exact congrArg _ h.replies

end Machine

namespace Engine

variable {σ α β : Type} {m m' : Machine σ}

def Result.refit (r : Result σ α) (replies : List (Site × Outcome)) (targets : Registry σ) (channel : Channel) :
    Result σ α :=
  match r with
  | .ok v m => .ok v (m.refit replies targets channel)
  | .error e m => .error e (m.refit replies targets channel)

def Oblivious (c : Engine σ α) : Prop :=
  ∀ m replies targets channel, c (m.refit replies targets channel) = Result.refit (c m) replies targets channel

namespace Oblivious

theorem pure (v : α) : Oblivious (Pure.pure v : Engine σ α) := fun _ _ _ _ => rfl

theorem fail (f : Fault) : Oblivious (fail f : Engine σ α) := fun _ _ _ _ => rfl

theorem numeric : Oblivious (numeric : Engine σ Number.Settings) := fun _ _ _ _ => rfl

theorem modifyInterp {f : Interpreter σ → Interpreter σ}
    (hf : ∀ i replies, f (i.withReplies replies) = (f i).withReplies replies) : Oblivious (modifyInterp f) := by
  intro m replies targets channel
  show EStateM.Result.ok _ (mk (f (m.interp.withReplies replies)) _ _ _ _) = _
  rw [hf]
  rfl

theorem bind {a : Engine σ α} {f : α → Engine σ β} (ha : Oblivious a) (hf : ∀ v, Oblivious (f v)) :
    Oblivious (a >>= f) := by
  intro m replies targets channel
  rw [bind_apply, bind_apply, ha]
  cases a m with
  | ok v m' => exact hf v m' replies targets channel
  | error e m' => rfl

theorem keeps {c : Engine σ α} (hc : Oblivious c) {v : α} (h : c m = .ok v m') :
    m'.top.replies = m.top.replies ∧ m'.targets = m.targets := by
  have hself := hc m m.top.replies m.targets m.channel
  rw [refit_self, h] at hself
  have hm : m' = m'.refit m.top.replies m.targets m.channel := (EStateM.Result.ok.inj hself).2
  rw [hm]
  exact ⟨rfl, rfl⟩

theorem keeps_of_error {c : Engine σ α} (hc : Oblivious c) {e : Interrupt} (h : c m = .error e m') :
    m'.top.replies = m.top.replies ∧ m'.targets = m.targets := by
  have hself := hc m m.top.replies m.targets m.channel
  rw [refit_self, h] at hself
  have hm : m' = m'.refit m.top.replies m.targets m.channel := (EStateM.Result.error.inj hself).2
  rw [hm]
  exact ⟨rfl, rfl⟩

end Oblivious

/-! ## Oblivious parts of the evaluator -/

theorem modifyTop_oblivious {f : Frame → Frame} (hf : ∀ g replies, f { g with replies } = { f g with replies }) :
    Oblivious (modifyTop f : Engine σ Unit) := by
  refine .modifyInterp fun i replies => ?_
  show i.modifyTop (fun g => f { g with replies }) = i.modifyTop fun g => { f g with replies }
  rw [funext fun g => hf g replies]

theorem assign_oblivious (name value : Text) : Oblivious (assign name value : Engine σ Unit) := by
  intro m replies targets channel
  unfold assign
  rw [bind_of_ok (interp_apply m), bind_of_ok (interp_apply _)]
  have hvars : (m.refit replies targets channel).interp.vars.assign? name value = m.interp.vars.assign? name value := rfl
  rw [hvars]
  cases m.interp.vars.assign? name value <;> rfl

theorem fetch_oblivious (name : Text) : Oblivious (fetch name : Engine σ Text) := by
  intro m replies targets channel
  unfold fetch
  rw [bind_of_ok (interp_apply m), bind_of_ok (interp_apply _)]
  have hv : (m.refit replies targets channel).interp.vars = m.interp.vars := rfl
  have ht : (m.refit replies targets channel).stack.traps .novalue = m.stack.traps .novalue := rfl
  have ho : (m.refit replies targets channel).interp.options = m.interp.options := rfl
  simp only [hv, ht, ho]
  cases m.interp.vars.peek? name with
  | some value => rfl
  | none =>
    split
    · rfl
    · split
      · rfl
      · split <;> rfl

theorem callHost_oblivious (code : HostCode σ α) : Oblivious (callHost code) := by
  intro m replies targets channel
  rw [callHost_apply, callHost_apply, hostView_refit]
  cases code m.hostView with
  | ok a v => simp only [afterHost_refit, Result.refit]
  | error e v => simp only [afterHost_refit, Result.refit]

theorem oblivious_computing : Computing fun _ (c : Engine σ _) => Oblivious c where
  pure := .pure
  bind := .bind
  fail _ := .fail _
  numeric := .numeric
  fetch := fetch_oblivious
  assign := assign_oblivious
  reads hg ho m replies targets channel := by
    rw [bind_of_ok (get_apply _), hg (m.refit replies targets channel) m rfl]
    exact ho m m replies targets channel
  draws _ _ _ _ _ := rfl
  marks _ _ _ _ _ := rfl

theorem check_oblivious (r : Outcome) : Oblivious (check r : Engine σ Unit) := by
  intro m replies targets channel
  have ht : (m.refit replies targets channel).stack.traps (failureEvent r) =
      m.stack.traps (failureEvent r) := rfl
  rw [check_apply, check_apply, ht]
  split <;> rfl

/-! ## Detached computations -/

structure Detached (c : Engine σ α) : Prop where
  oblivious : Oblivious c
  immediate : Immediate c

namespace Detached

theorem pure (v : α) : Detached (Pure.pure v : Engine σ α) := ⟨.pure v, .pure v⟩

theorem fail (f : Fault) : Detached (fail f : Engine σ α) := ⟨.fail f, .fail f⟩

theorem bind {a : Engine σ α} {f : α → Engine σ β} (ha : Detached a) (hf : ∀ v, Detached (f v)) : Detached (a >>= f) :=
  ⟨.bind ha.oblivious fun v => (hf v).oblivious, .bind ha.immediate fun v => (hf v).immediate⟩

theorem orFail (r : Except Fault α) : Detached (orFail r : Engine σ α) := by
  cases r with
  | ok v => exact .pure v
  | error f => exact .fail f

theorem modifyInterp {f : Interpreter σ → Interpreter σ}
    (hf : ∀ i replies, f (i.withReplies replies) = (f i).withReplies replies) : Detached (modifyInterp f) :=
  ⟨.modifyInterp hf, .modifyInterp f⟩

theorem modifyTop {f : Frame → Frame} (hf : ∀ g replies, f { g with replies } = { f g with replies }) :
    Detached (modifyTop f : Engine σ Unit) :=
  ⟨modifyTop_oblivious hf, .modifyTop f⟩

theorem modifyVariables (f : Variables → Variables) : Detached (modifyVariables f : Engine σ Unit) :=
  .modifyInterp fun _ _ => rfl

theorem check (r : Outcome) : Detached (check r : Engine σ Unit) := ⟨check_oblivious r, check_immediate r⟩

theorem callHost (code : HostCode σ α) : Detached (callHost code) := ⟨callHost_oblivious code, callHost_immediate code⟩

theorem raise (c : Condition) : Detached (throw (.raised c) : Engine σ α) := ⟨fun _ _ _ _ => rfl, .raise c⟩

theorem callFunction (name : Text) (f : HostFunction σ) (a : Args) : Detached (callFunction name f a) := by
  refine .bind (.callHost (f a)) fun r => ?_
  cases r with
  | ok value => exact .pure value
  | error fault =>
    cases fault with
    | condition c => exact .raise c
    | exception message => exact .fail _

end Detached

end Engine

end Rexx
