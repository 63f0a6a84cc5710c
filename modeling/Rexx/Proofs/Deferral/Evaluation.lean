import Rexx.Proofs.Channel.Outstanding
import Rexx.Proofs.Deferral.Twin
import Rexx.Proofs.Replay.Passes

/-!
# `Deferral.Evaluation` — evaluation with answers that come later

An expression is evaluated on a machine whose targets answer at once, and in passes on its twin, where the host gives
the same answers later.
-/

namespace Rexx

open Machine

/-! ## Answers of the host -/

namespace Machine

variable {σ : Type} {answer : Text → Params → σ → Outcome} {m m' m1 u : Machine σ} {site : Site} {c : Checkpoint}

def HostAnswers (answer : Text → Params → σ → Outcome) (m u : Machine σ) : Prop :=
  ∃ hold q, m.interp.status = .held hold ∧ m.channel.outgoing.getLast? = some q ∧ q.id = hold.id ∧
    m.answer? (.carrying hold.id (answer q.operation q.params m.host)) = some u

/-- **What the answer to a request leads to**: the machine that posted it, with the outcome kept for the site of the
request and published. -/
theorem hostAnswers_iff_of_hold (answer : Text → Params → σ → Outcome) (hrun : m.interp.status = .running)
    (h : m.hold? site c = some m1) :
    ∃ ch : Channel, ch.outstanding = m.channel.outstanding ∧
      ∀ u, HostAnswers answer m1 u ↔
        u = { m.settle site (answer c.operation c.params m.host).plain with channel := ch } := by
  obtain ⟨⟨id, ch⟩, hp, rfl⟩ := Option.map_eq_some_iff.1 h
  obtain ⟨hfree, rfl⟩ := Channel.post?_spec hp
  refine ⟨_, Channel.outstanding_withdraw_issue m.interp.id (m.around.clock / 1000) m.interp.options.timeout c hfree,
    fun u => ?_⟩
  have hanswer : ∀ r : Outcome, ({ m with
      channel := m.channel.issue id m.interp.id (m.around.clock / 1000) m.interp.options.timeout c
      interp := { m.interp with status := .held ⟨id, site, m.stack.depth⟩ } } : Machine σ).answer?
        (Response.carrying id r) = some { m.settle site r.plain with
          channel := ((m.channel.issue id m.interp.id (m.around.clock / 1000) m.interp.options.timeout c).withdraw id).2 } := by
    intro r
    refine (answer?_of_held rfl rfl).trans (congrArg some ?_)
    rw [settle_congr (r.settled_plain.trans (Response.outcome_carrying id r).symm)]
    exact congrArg (fun i => mk i _ _ _ _) (complete_of_held hrun _ _)
  constructor
  · rintro ⟨hold, q, hst, hq, hid, hu⟩
    cases hst
    have hlast : (m.channel.outgoing ++ [(⟨id, c.operation, c.params⟩ : Request)]).getLast? = some q := hq
    rw [List.getLast?_concat] at hlast
    cases hlast
    exact (Option.some.inj ((hanswer _).symm.trans hu)).symm
  · rintro rfl
    exact ⟨_, ⟨id, c.operation, c.params⟩, rfl, List.getLast?_concat, rfl, hanswer _⟩

theorem HostAnswers.held (h : HostAnswers answer m u) : ∃ hold, m.interp.status = .held hold :=
  let ⟨hold, _, hst, _⟩ := h
  ⟨hold, hst⟩

/-- **Where the next pass starts** when the host has answered: what the suspended pass had come to, with an outcome kept for
one more site. -/
theorem HostAnswers.settled {R : Machine σ → Machine σ → Prop} {S : Set Site} (h : HostAnswers answer m1 u)
    (hs : m.Suspends R S m1) (hrun : ∀ {m0}, R m m0 → m0.interp.status = .running) :
    ∃ m0 k r ch, R m m0 ∧ k ∈ S ∧ m0.top.replies.lookup k = none ∧
      u = { m0.settle k r with channel := ch } := by
  obtain ⟨hold, hst⟩ := h.held
  cases hs with
  | @held m0 k c hp hk ho hh =>
    obtain ⟨ch, _, hiff⟩ := hostAnswers_iff_of_hold answer (hrun hp) hh
    exact ⟨m0, k, _, ch, hp, hk, ho, (hiff u).1 h⟩
  | @entered m0 k i a needsValue hp _ _ he =>
    have hst0 : m1.interp.status = m0.interp.status := by
      rw [he]
      rfl
    exact absurd (hst.symm.trans (hst0.trans (hrun hp))) (by simp)
  | refused hp => exact absurd (hst.symm.trans (hrun hp)) (by simp)

structure SameRegistries (u w : Machine σ) : Prop where
  functions : w.interp.functions = u.interp.functions
  operations : w.interp.operations = u.interp.operations
  program : w.interp.program = u.interp.program
  targets : w.targets = u.targets
  target : w.top.target = u.top.target

structure Matches (u w : Machine σ) : Prop extends SameRegistries u w where
  memo : w.top.memo = u.top.memo

theorem SameRegistries.refl (u : Machine σ) : u.SameRegistries u := ⟨rfl, rfl, rfl, rfl, rfl⟩

theorem SameRegistries.trans {w : Machine σ} (h : m.SameRegistries u) (h' : u.SameRegistries w) : m.SameRegistries w :=
  ⟨h'.functions.trans h.functions, h'.operations.trans h.operations, h'.program.trans h.program,
    h'.targets.trans h.targets, h'.target.trans h.target⟩

theorem Evolves.sameRegistries {S : Set Site} (h : m.Evolves S m') : m.SameRegistries m' :=
  ⟨h.functions, by rw [h.interp], h.program, h.targets, h.target⟩

theorem Matches.refl (u : Machine σ) : u.Matches u := ⟨.refl u, rfl⟩

theorem Matches.trans {w : Machine σ} (h : m.Matches u) (h' : u.Matches w) : m.Matches w :=
  ⟨h.toSameRegistries.trans h'.toSameRegistries, h'.memo.trans h.memo⟩

theorem Matches.afterHost (u : Machine σ) (v : HostView σ) : u.Matches (u.afterHost v) := by
  have htop : (u.afterHost v).top = { u.top with pool := (u.afterHost v).top.pool } := by
    unfold Machine.afterHost Interpreter.setMainVariables Stack.modifyMain
    split <;> rfl
  refine ⟨⟨rfl, rfl, rfl, rfl, ?_⟩, ?_⟩
  · rw [htop]
  · rw [htop]

theorem Matches.settle (u : Machine σ) (site : Site) (r : Outcome) (ch : Channel) :
    u.Matches { u.settle site r with channel := ch } := by
  rw [settle_eq]
  exact ⟨⟨rfl, rfl, rfl, rfl, rfl⟩, rfl⟩

theorem HostAnswers.running (h : HostAnswers answer m u) : u.Running := by
  obtain ⟨hold, q, hst, _, _, hu⟩ := h
  rw [answer?_of_held hst rfl] at hu
  cases hu
  rfl

end Machine

namespace Engine

variable {σ α β : Type} {answer : Text → Params → σ → Outcome} {m m' u : Machine σ} {site : Site} {c : Engine σ α}

theorem hostAnswers_faithful (answer : Text → Params → σ → Outcome) : Faithful Running (HostAnswers answer) where
  keeps hrun h := h.status.trans hrun
  later {S m m1 u} hrun hs hr := by
    obtain ⟨m0, k, r, ch, hp, hk, ho, rfl⟩ := hr.settled hs fun hp => hp.status.trans hrun
    have hlater := (hp.trans (.settle hk m0 ho r)).later
    exact ⟨hlater.top, hlater.numeric, hlater.status, hlater.depth⟩

theorem Replays.congr_registries {c' : Engine σ α} {r : Result σ α} (hrun : u.Running)
    (heq : ∀ w, u.SameRegistries w → c w = c' w) (hc : ∀ w, Defers c' w) :
    Replays (HostAnswers answer) c u r ↔ Replays (HostAnswers answer) c' u r := by
  let P (w : Machine σ) : Prop := w.Running ∧ u.SameRegistries w
  refine Replays.congr (P := P) (fun w hw => heq w hw.2) (fun w m1 u' hw h hr => ?_) ⟨hrun, .refl u⟩
  obtain ⟨m0, k, r, ch, hp, _, _, rfl⟩ := hr.settled ((hc w).suspended h) fun hp => hp.status.trans hw.1
  exact ⟨hr.running,
    hw.2.trans (hp.sameRegistries.trans (Matches.settle m0 k r ch).toSameRegistries)⟩

/-! ## Coming to the same -/

inductive Alike (answer : Text → Params → σ → Outcome) : Result σ α → Result σ α → Prop where
  | value {v : α} {m u : Machine σ} (h : m.Twin answer u) : Alike answer (.ok v m) (.ok v u)
  | raises {e : Condition} {m u : Machine σ} (h : m.Twin answer u) :
      Alike answer (.error (.raised e) m) (.error (.raised e) u)

def Tracks (answer : Text → Params → σ → Outcome) (c : Engine σ α) (m u : Machine σ) : Prop :=
  ∃ r, Replays (Machine.HostAnswers answer) c u r ∧ Alike answer (c m) r

theorem Detached.alike (hc : Detached c) (h : m.Twin answer u) : Alike answer (c m) (c u) := by
  have hu := hc.oblivious m u.top.replies u.targets u.channel
  rw [← h.eq_refit] at hu
  rw [hu]
  cases hm : c m with
  | ok v m' =>
    obtain ⟨hr, ht⟩ := hc.oblivious.keeps hm
    exact .value (h.refit hr ht)
  | error e m' =>
    obtain ⟨hr, ht⟩ := hc.oblivious.keeps_of_error hm
    cases e with
    | suspended => exact absurd hm (hc.immediate m m')
    | raised e => exact .raises (h.refit hr ht)

theorem Detached.tracks (hc : Detached c) (h : m.Twin answer u) : Tracks answer c m u :=
  ⟨c u, .of_immediate hc.immediate u, hc.alike h⟩

theorem Tracks.bind {a : Engine σ α} {f : α → Engine σ β} (ha : Settles Running (HostAnswers answer) a)
    (hf : ∀ v, Resumable Running (HostAnswers answer) (f v)) (hrun : u.Running) (h : Tracks answer a m u)
    (hrest : ∀ v m' u', a m = .ok v m' → m'.Twin answer u' → u'.Running → Tracks answer (f v) m' u') :
    Tracks answer (a >>= f) m u := by
  obtain ⟨r, hr, halike⟩ := h
  have hρ := hostAnswers_faithful answer
  cases hm : a m with
  | ok v m' =>
    rw [hm] at halike
    cases halike with
    | @value _ _ u' h' =>
      obtain ⟨r', hr', halike'⟩ := hrest v m' u' hm h' (ha.keeps hρ hrun hr)
      refine ⟨r', (Replays.bind_iff hρ ha hf hrun).2 (.inl ⟨v, u', hr, hr'⟩), ?_⟩
      rwa [bind_of_ok hm]
  | error e m' =>
    rw [hm] at halike
    cases halike with
    | @raises e _ u' h' =>
      refine ⟨_, (Replays.bind_iff hρ ha hf hrun).2 (.inr ⟨e, u', hr, rfl⟩), ?_⟩
      rw [bind_of_error hm]
      exact .raises h'

theorem ask_twin (h : m.Twin answer u) (name : Text) (b : Binding σ) (cmd : Text) (params : Params) (method : Bool) :
    ∃ reply m' u', ask name b cmd params method u = .ok reply u' ∧
      ask name (b.atOnce answer) cmd params method m = .ok (reply.atOnce answer u'.host) m' ∧ m'.Twin answer u' ∧
      u.Matches u' ∧ u'.interp.status = u.interp.status ∧
      u'.top.replies = u.top.replies := by
  cases hw : refusal? name b.target cmd method with
  | some why =>
    have hw' : refusal? name (b.atOnce answer).target cmd method = some why := hw
    refine ⟨.now (.failed why 1), m, u, ?_, ?_, h, .refl u, rfl, rfl⟩
    · simp only [ask, hw, pure_apply]
    · simp only [ask, hw', pure_apply, Reply.atOnce]
  | none =>
    have hw' : refusal? name (b.atOnce answer).target cmd method = none := hw
    have hview : u.hostView = m.hostView := by
      conv_lhs => rw [h.eq_refit, hostView_refit]
    have hreplies : ∀ v, (u.afterHost v).top.replies = u.top.replies := by
      intro v
      unfold afterHost Interpreter.setMainVariables Stack.modifyMain
      split <;> rfl
    cases hh : b.target.handle cmd params ⟨b.auth, method⟩ m.hostView with
    | ok reply v =>
      refine ⟨reply, m.afterHost v, u.afterHost v, ?_, ?_, h.afterHost v, .afterHost u v, rfl, hreplies v⟩
      · simp only [ask, hw, bind_apply, callHost_apply, hview, hh, pure_apply]
      · have hh' : (b.atOnce answer).target.handle cmd params ⟨(b.atOnce answer).auth, method⟩ m.hostView =
            .ok (reply.atOnce answer v.state) v :=
          (b.target.handle_atOnce answer cmd params _ _).trans (by rw [show (b.atOnce answer).auth = b.auth from rfl, hh])
        simp only [ask, hw', bind_apply, callHost_apply, hh']
        rfl
    | error e v =>
      refine ⟨.now (.failed e.text 1), m.afterHost v, u.afterHost v, ?_, ?_, h.afterHost v, .afterHost u v, rfl,
        hreplies v⟩
      · simp only [ask, hw, bind_apply, callHost_apply, hview, hh, pure_apply]
      · have hh' : (b.atOnce answer).target.handle cmd params ⟨(b.atOnce answer).auth, method⟩ m.hostView =
            .error e v :=
          (b.target.handle_atOnce answer cmd params _ _).trans (by rw [show (b.atOnce answer).auth = b.auth from rfl, hh])
        simp only [ask, hw', bind_apply, callHost_apply, hh', pure_apply, Reply.atOnce]

theorem dispatch_tracks {f : Outcome → Engine σ α} {name cmd : Text} {params : Params} {method : Bool}
    (h : m.Twin answer u) (hrun : u.Running) (hplain : ∀ r, f r.plain = f r) (hf : ∀ r, Detached (f r))
    (hm : c m = (dispatch site name cmd params method >>= f) m)
    (hc : ∀ w, u.Matches w → c w = (dispatch site name cmd params method >>= f) w) : Tracks answer c m u := by
  have hu := hc u (.refl u)
  -- An outcome is used in the same way with and without a text that nobody sees.
  have hsame : ∀ {r r' : Outcome}, r'.plain = r.plain → f r' = f r := fun {r r'} hr => by
    rw [← hplain r', hr, hplain]
  have hends : ∀ {r : Outcome} {w w' : Machine σ}, c w = f r w' → Replays (HostAnswers answer) c w (c w) := by
    intro r w w' hw
    cases hcw : c w with
    | ok v w1 => exact .value hcw
    | error e w1 =>
      cases e with
      | suspended => exact absurd (hw.symm.trans hcw) ((hf r).immediate w' w1)
      | raised e => exact .raises hcw
  have hnow : ∀ {r r' : Outcome} {m' u' w : Machine σ}, m'.Twin answer u' → r'.plain = r.plain → c m = f r m' →
      c w = f r' u' → Replays (HostAnswers answer) c w (c w) ∧ Alike answer (c m) (c w) := by
    intro r r' m' u' w h' hr hm' hw
    refine ⟨hends hw, ?_⟩
    rw [hm', hw, hsame hr]
    exact (hf r).alike h'
  have hlook := h.replies.lookup site
  cases hr : m.top.replies.lookup site with
  | some r =>
    rw [hr] at hlook
    obtain ⟨r', hr', hplain'⟩ := Option.map_eq_some_iff.1 hlook
    have hdm : dispatch site name cmd params method m = .ok r m := by rw [dispatch_apply, hr]
    have hdu : dispatch site name cmd params method u = .ok r' u := by rw [dispatch_apply, hr']
    exact ⟨_, hnow h hplain' (hm.trans (bind_of_ok hdm)) (hu.trans (bind_of_ok hdu))⟩
  | none =>
    have hru : u.top.replies.lookup site = none := by
      rw [hr] at hlook
      exact Option.map_eq_none_iff.1 hlook
    have htargets := h.targets name
    cases hb : u.targets[name]? with
    | none =>
      rw [hb] at htargets
      have hdm : dispatch site name cmd params method m = .error (.raised (Fault.targetNotFound name).condition) m := by
        rw [dispatch_apply, hr, htargets]
        rfl
      have hdu : dispatch site name cmd params method u = .error (.raised (Fault.targetNotFound name).condition) u := by
        rw [dispatch_apply, hru, hb]
      refine ⟨_, .raises (hu.trans (bind_of_error hdu)), ?_⟩
      rw [hm, bind_of_error hdm]
      exact .raises h
    | some b =>
      rw [hb] at htargets
      obtain ⟨reply, m', u', hau, ham, h', hmatch, hst, hreplies⟩ := ask_twin h name b cmd params method
      have hdm : dispatch site name cmd params method m = receive site (reply.atOnce answer u'.host) m' := by
        rw [dispatch_apply, hr, htargets]
        exact bind_of_ok ham
      have hdu : dispatch site name cmd params method u = receive site reply u' := by
        rw [dispatch_apply, hru, hb]
        exact bind_of_ok hau
      cases reply with
      | now r =>
        have hsm : dispatch site name cmd params method m = .ok r.settled (m'.settle site r) := hdm
        have hsu : dispatch site name cmd params method u = .ok r.settled (u'.settle site r) := hdu
        exact ⟨_, hnow (h'.settle rfl h'.room) rfl (hm.trans (bind_of_ok hsm)) (hu.trans (bind_of_ok hsu))⟩
      | wait k =>
        let r := answer k.operation k.params u'.host
        have hsm : dispatch site name cmd params method m = .ok r.settled (m'.settle site r) := hdm
        obtain ⟨id, ch1, hpost⟩ := u'.channel.post?_isSome u'.interp.id (u'.around.clock / 1000)
          u'.interp.options.timeout k h'.room
        obtain ⟨m1, hhold⟩ : ∃ m1, u'.hold? site k = some m1 := ⟨_, by rw [hold?, hpost]; rfl⟩
        have hsu : dispatch site name cmd params method u = .error .suspended m1 := by
          rw [hdu]
          exact (await_apply site k u').trans (by rw [hhold]; rfl)
        obtain ⟨ch, hroom, hiff⟩ := hostAnswers_iff_of_hold answer (hst.trans hrun) hhold
        -- The host answers, and the next pass finds the outcome.
        let w : Machine σ := { u'.settle site r.plain with channel := ch }
        have hdw : dispatch site name cmd params method w = .ok r.plain.settled w := by
          have hlook : w.top.replies.lookup site = some r.plain.settled := by
            rw [Machine.top, settle_interp]
            show ((site, r.plain.settled) :: _).lookup site = _
            simp
          rw [dispatch_apply, hlook]
        obtain ⟨hrest, halike⟩ := hnow (h'.settle r.plain_plain (hroom ▸ h'.room))
          (by rw [Outcome.settled_plain, Outcome.plain_plain]) (hm.trans (bind_of_ok hsm))
          ((hc w (hmatch.trans (.settle u' site _ ch))).trans (bind_of_ok hdw))
        exact ⟨_, .again (hu.trans (bind_of_error hsu)) ((hiff w).2 rfl) hrest, halike⟩

end Engine

end Rexx
