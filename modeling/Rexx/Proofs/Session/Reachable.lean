import Rexx.Proofs.Session.Agreement

/-!
# `Session.Reachable` — requests and interpreters in every session

A host makes any steps in any order, on any number of interpreters and channels.
-/

namespace Rexx

open Hosting Session

open Channel (Course)

inductive HostStep where
  | create (name : Text) (channel registry : Option Text)
  | remove (name : Text)
  | load (name source title : Text) (args : Args)
  | run (name : Text)
  | resume (name : Text) (r : Response)
  | deliver (ref : ChannelRef) (r : Response)
  | take (ref : ChannelRef)
  | cancel (ref : ChannelRef) (id : UInt32) (why : Text)
  | expire (ref : ChannelRef) (now : Nat)
  | halt (name : Text)
  | set (name var value : Text)

namespace Session

variable {σ : Type} {s s' : Session σ} {key : ChannelKey}

def after (s : Session σ) : HostStep → Session σ
  | .create name channel registry => endState (Hosting.create name channel registry s)
  | .remove name => endState (Hosting.remove name s)
  | .load name source title args => endState (Hosting.load name source title args s)
  | .run name => endState (Hosting.run name s)
  | .resume name r => endState (Hosting.resume name r s)
  | .deliver ref r => endState (Hosting.deliver ref r s)
  | .take ref => endState (Hosting.take ref s)
  | .cancel ref id why => endState (Hosting.cancel ref id why s)
  | .expire ref now => endState (Hosting.expire ref now s)
  | .halt name => endState (Hosting.halt name s)
  | .set name var value => endState (Hosting.setVar name var value s)

/-- What the host may do between its steps: register functions, operations and targets, change settings, its own state
and what lies around the interpreters. -/
structure Resembles (s s' : Session σ) : Prop where
  members : ∀ k, (s'.at? k).map (fun p => (p.1.id, p.1.status, p.1.stack.depth, p.2)) =
    (s.at? k).map fun p => (p.1.id, p.1.status, p.1.stack.depth, p.2)
  channels : ∀ key, s'.channelAt key = s.channelAt key
  nextId : s'.nextId = s.nextId

inductive Reachable : Session σ → Prop
  | empty (patience : Nat) (around : Surroundings σ) (host : σ) : Reachable (.empty patience around host)
  | step {s : Session σ} (act : HostStep) : Reachable s → Reachable (s.after act)
  | provide {s s' : Session σ} : s.Resembles s' → Reachable s → Reachable s'

theorem Resembles.at? (h : s.Resembles s') {k : Text} {i' : Interpreter σ} (hk : s'.at? k = some (i', key)) :
    ∃ i, s.at? k = some (i, key) ∧ i.id = i'.id ∧ i.status = i'.status ∧ i.stack.depth = i'.stack.depth := by
  have hm := h.members k
  rw [hk] at hm
  obtain ⟨⟨i, key'⟩, hi, heq⟩ := Option.map_eq_some_iff.1 hm.symm
  simp only [Prod.mk.injEq] at heq
  obtain ⟨hid, hst, hdepth, rfl⟩ := heq
  exact ⟨i, hi, hid, hst, hdepth⟩

theorem Resembles.symm (h : s.Resembles s') : s'.Resembles s :=
  ⟨fun k => (h.members k).symm, fun key => (h.channels key).symm, h.nextId.symm⟩

theorem Resembles.linked (h : s.Resembles s') (hs : s.Linked) : s'.Linked where
  distinct hk hk' hid := by
    obtain ⟨i, hi, hid1, _⟩ := h.at? hk
    obtain ⟨i', hi', hid2, _⟩ := h.at? hk'
    exact hs.distinct hi hi' (hid1.trans (hid.trans hid2.symm))
  fresh hk := by
    obtain ⟨i, hi, hid, _⟩ := h.at? hk
    rw [h.nextId, ← hid]
    exact hs.fresh hi
  agrees {k i' key} hk _ := by
    obtain ⟨i, hi, hid, hst, hdepth⟩ := h.at? hk
    have ha := hs.agrees hi nofun
    rw [h.channels]
    exact ⟨fun id => by rw [← hid, ← hst]; exact ha.waits id, fun hold hh => hdepth ▸ ha.depth hold (hst ▸ hh)⟩
  owned {key id owner} ho := by
    rw [h.channels] at ho
    obtain ⟨k, i, hi, hio⟩ := hs.owned ho
    obtain ⟨i', hi', hid, _⟩ := h.symm.at? hi
    exact ⟨k, i', hi', hid.trans hio⟩

theorem empty_linked (patience : Nat) (around : Surroundings σ) (host : σ) : (empty patience around host).Linked where
  distinct hk := absurd hk (by simp [at?, empty])
  fresh hk := absurd hk (by simp [at?, empty])
  agrees hk := absurd hk (by simp [at?, empty])
  owned {key id owner} hk := by
    cases key <;> simp [channelAt, channelNamed, empty, Channel.owner?_empty] at hk

theorem Linked.after (h : s.Linked) (act : HostStep) : (s.after act).Linked := by
  cases act with
  | create name channel registry => exact create_linked h name channel registry
  | remove name => exact (remove_frees h name).1
  | load name source title args => exact load_linked h name source title args
  | run name => exact run_linked h name
  | resume name r => exact resume_linked h name r
  | deliver ref r => exact (deliver_sound h ref r).linked
  | take ref => exact take_linked h ref
  | cancel ref id why => exact (deliver_sound h ref (.cancelled id why)).linked
  | expire ref now => exact (expire_sound h ref now).linked
  | halt name => exact halt_linked h name
  | set name var value => exact setVar_linked h name var value

theorem Reachable.linked (h : s.Reachable) : s.Linked := by
  induction h with
  | empty patience around host => exact empty_linked patience around host
  | step act _ ih => exact ih.after act
  | provide hp _ ih => exact hp.linked ih

/-! ## What follows -/

theorem Linked.outstanding_iff (h : s.Linked) (key : ChannelKey) (id : UInt32) (owner : Nat) :
    (s.channelAt key).owner? id = some owner ↔
      ∃ name i hold, s.at? name = some (i, key) ∧ i.id = owner ∧ i.status = .held hold ∧ hold.id = id := by
  constructor
  · intro ho
    obtain ⟨name, i, hi, rfl⟩ := h.owned ho
    obtain ⟨hold, hst, hid⟩ := ((h.agrees hi nofun).waits id).1 ho
    exact ⟨name, i, hold, hi, rfl, hst, hid⟩
  · rintro ⟨name, i, hold, hi, rfl, hst, hid⟩
    exact ((h.agrees hi nofun).waits id).2 ⟨hold, hst, hid⟩

theorem Linked.load_drops {name source title : Text} {args : Args} {i : Interpreter σ} (h : s.Linked)
    (hi : s.at? name = some (i, key)) (hl : load name source title args s = .ok () s') {key' : ChannelKey} {id : UInt32}
    (ho : (s.channelAt key').owner? id = some i.id) : (s'.channelAt key').owner? id = none := by
  have hkey := LinkedBut.key_eq h hi ho
  obtain ⟨mb, hmb, rfl, rfl⟩ := member_of_at? hi
  subst hkey
  cases hs : (s.machine mb).start source title args with
  | error e =>
    have he : load name source title args s = .error (.unreadable e) (s.putBack name mb (s.machine mb)) :=
      operate_of_error hmb (by simp only [bind_apply, get_apply, hs, throw_apply])
    cases he.symm.trans hl
  | ok m =>
    obtain ⟨p, -, rfl⟩ := Machine.start_eq_ok.1 hs
    have hok : load name source title args s = .ok () (s.putBack name mb ((s.machine mb).begin p args)) :=
      operate_of_ok hmb (by simp only [bind_apply, get_apply, hs, set_apply])
    cases hok.symm.trans hl
    obtain ⟨_, hsp, hnone⟩ := (s.machine mb).begin_agrees p args (machine_agrees h hmb)
    rw [channelAt_putBack hmb, if_pos rfl]
    refine Option.eq_none_iff_forall_ne_some.2 fun owner ho' => ?_
    by_cases hown : owner = mb.interp.id
    · exact hnone id (hown ▸ ho')
    · rw [← channelOf_eq hmb] at ho
      exact hown (Option.some.inj (((hsp.others id owner hown).1 ho').symm.trans ho))

/-! ## Channels along a run -/

/-- What happened to a channel between two sessions, since the first one or since an unused channel took its place. -/
def Unfolds (key : ChannelKey) (rs : List Channel.Record) (s s' : Session σ) : Prop :=
  ∃ ch, (ch = s.channelAt key ∨ ∃ next, ch = ⟨next, ∅, []⟩) ∧ Course ch rs (s'.channelAt key)

/-- The host goes from one session to another, and on the channel no request is posted under the number on the way. -/
inductive Unissued (key : ChannelKey) (id : UInt32) (s : Session σ) : Session σ → Prop
  | refl : Unissued key id s s
  | step {s' : Session σ} {rs : List Channel.Record} (act : HostStep) (before : Unissued key id s s')
      (unfolds : s'.Unfolds key rs (s'.after act)) (free : ∀ p, .posted p ∈ rs → p.id ≠ id) :
      Unissued key id s (s'.after act)
  | provide {s' s'' : Session σ} (before : Unissued key id s s') (h : s'.Resembles s'') : Unissued key id s s''

theorem Unissued.free {id : UInt32} (h : s.Unissued key id s') (ho : (s.channelAt key).owner? id = none) :
    (s'.channelAt key).owner? id = none := by
  induction h with
  | refl => exact ho
  | step act _ unfolds free ih =>
    obtain ⟨ch, rfl | ⟨next, rfl⟩, hcourse⟩ := unfolds
    · exact hcourse.free ih free
    · exact hcourse.free (by simp [Channel.owner?]) free
  | provide _ h ih => rwa [h.channels]

/-- **Channels and interpreters agree in every session, and every request is answered at most once**: whatever closes a
request, its number is then not outstanding until a request is posted under it again, and as long as it is not, answers to
it and cancellations are refused and change nothing. -/
theorem requests_follow_holds (h : s.Reachable) :
    (∀ key id owner, (s.channelAt key).owner? id = some owner ↔
      ∃ name i hold, s.at? name = some (i, key) ∧ i.id = owner ∧ i.status = .held hold ∧ hold.id = id) ∧
    (∀ name i key hold, s.at? name = some (i, key) → i.status = .held hold → hold.depth = i.stack.depth) ∧
    (∀ ref r f s', Hosting.deliver ref r s = .error f s' → f = .noInterpreter) ∧
    (∀ ref id why f s', Hosting.cancel ref id why s = .error f s' → f = .noInterpreter) ∧
    (∀ ref now f s', Hosting.expire ref now s = .error f s' → f = .noInterpreter) ∧
    (∀ ref key r, Hosting.keyOf? s ref = some key → (s.channelAt key).owner? r.id = none →
      Hosting.deliver ref r s = .ok false s ∧ ∀ why, Hosting.cancel ref r.id why s = .ok false s) ∧
    (∀ ref key r owner, Hosting.keyOf? s ref = some key → (s.channelAt key).owner? r.id = some owner →
      ∃ name i, s.at? name = some (i, key) ∧ i.id = owner ∧
        (∃ s', Hosting.deliver ref r s = .ok true s' ∧ Hosting.Answered key name r s s') ∧
        ∀ why, ∃ s', Hosting.cancel ref r.id why s = .ok true s' ∧
          Hosting.Answered key name (.cancelled r.id why) s s') ∧
    (∀ name i key r hold, s.at? name = some (i, key) → i.status = .held hold → hold.id = r.id →
      ∃ st s', Hosting.resume name r s = .ok st s' ∧ Hosting.Answered key name r s s') ∧
    (∀ name i key key' id, s.at? name = some (i, key) → (s.channelAt key').owner? id = some i.id →
      (∀ source title args s', Hosting.load name source title args s = .ok () s' →
        (s'.channelAt key').owner? id = none) ∧
      ∃ s', Hosting.remove name s = .ok () s' ∧ (s'.channelAt key').owner? id = none) ∧
    (∀ key id s', (s.channelAt key).owner? id = none → s.Unissued key id s' → ∀ ref, Hosting.keyOf? s' ref = some key →
      (∀ r, r.id = id → Hosting.deliver ref r s' = .ok false s') ∧ ∀ why, Hosting.cancel ref id why s' = .ok false s') ∧
    (∀ name i key r, s.at? name = some (i, key) → (∀ hold, i.status = .held hold → hold.id ≠ r.id) →
      ∃ s', Hosting.resume name r s = .error (.notPending r.id) s' ∧ s.Same s') := by
  have hl := h.linked
  refine ⟨hl.outstanding_iff, fun name i key hold hi => (hl.agrees hi nofun).depth hold,
    fun ref r => (Hosting.deliver_sound hl ref r).fault, fun ref id why => (Hosting.deliver_sound hl ref _).fault,
    fun ref now => (Hosting.expire_sound hl ref now).fault, ?_, ?_, ?_, ?_, ?_, ?_⟩
  · intro ref key r hkey ho
    exact ⟨Hosting.deliver_of_none hkey ho, fun why => Hosting.deliver_of_none (r := .cancelled r.id why) hkey ho⟩
  · intro ref key r owner hkey ho
    obtain ⟨name, i, s', hi, hio, hd, hs'⟩ := Hosting.deliver_of_some hl hkey ho
    refine ⟨name, i, hi, hio, ⟨s', hd, hs'⟩, fun why => ?_⟩
    obtain ⟨name', i', s'', hi', hio', hd', hs''⟩ := Hosting.deliver_of_some (r := .cancelled r.id why) hl hkey ho
    cases hl.distinct hi hi' (hio.trans hio'.symm)
    exact ⟨s'', hd', hs''⟩
  · intro name i key r hold hi hst hid
    obtain ⟨mb, hmb, rfl, rfl⟩ := member_of_at? hi
    exact Hosting.resume_of_held hl hmb hst hid
  · intro name i key key' id hi ho
    refine ⟨fun source title args s' hload => hl.load_drops hi hload ho, ?_⟩
    obtain ⟨mb, hmb, rfl, rfl⟩ := member_of_at? hi
    obtain ⟨s', hr, _, _, hch⟩ := Hosting.remove_spec hl hmb
    refine ⟨s', hr, Option.eq_none_iff_forall_ne_some.2 fun owner ho' => ?_⟩
    obtain ⟨ho', hne⟩ := (hch key' id owner).1 ho'
    exact hne (Option.some.inj (ho'.symm.trans ho))
  · intro key id s' ho hun ref hkey
    refine ⟨?_, fun why => Hosting.deliver_of_none (r := .cancelled id why) hkey (hun.free ho)⟩
    rintro r rfl
    exact Hosting.deliver_of_none hkey (hun.free ho)
  · intro name i key r hi hst
    obtain ⟨mb, hmb, rfl, rfl⟩ := member_of_at? hi
    refine ⟨_, Hosting.resume_of_none hmb ?_, same_putBack hmb⟩
    refine Option.eq_none_iff_forall_ne_some.2 fun m hm => ?_
    obtain ⟨hold, hst', hid, _⟩ := Machine.answer?_spec hm
    exact hst hold hst' hid

def pair : Session Unit :=
  ((empty 100 ⟨0, ⟨#[], 0⟩, [], []⟩ ()).after (.create "A" (some "C") (some "R"))).after (.create "B" (some "C") (some "R"))

def asking : Target Unit := ⟨0, "T", true, true, false, [], fun op params _ => pure (.wait ⟨op, params, 0⟩)⟩

def equippedPair : Session Unit :=
  { pair with registries := (∅ : Table (Registry Unit)).insert "R" ((∅ : Registry Unit).insert "T" ⟨asking, [], []⟩) }

def waitingPair : Session Unit := (equippedPair.after (.load "A" "address t\n'work'" "a" [])).after (.run "A")

theorem equippedPair_reachable : equippedPair.Reachable :=
  .provide (s := pair) ⟨fun _ => rfl, fun _ => rfl, rfl⟩ (.step _ (.step _ (.empty _ _ _)))

theorem waitingPair_reachable : waitingPair.Reachable := .step _ (.step _ equippedPair_reachable)

theorem requests_follow_holds_waitingPair :
    waitingPair.Reachable ∧ (waitingPair.channelAt (.named "C")).owner? 1 = some 0 ∧
    (∃ name i hold, waitingPair.at? name = some (i, .named "C") ∧ i.id = 0 ∧ i.status = .held hold ∧ hold.id = 1) ∧
    Hosting.deliver (.named "C") ⟨2, true, "ok", [], 0⟩ waitingPair = .ok false waitingPair ∧
    ∃ s', Hosting.deliver (.named "C") ⟨1, true, "ok", [], 0⟩ waitingPair = .ok true s' ∧ s'.Reachable ∧
      (s'.channelAt (.named "C")).owner? 1 = none ∧
      Hosting.deliver (.named "C") ⟨1, true, "ok", [], 0⟩ s' = .ok false s' ∧
      Hosting.cancel (.named "C") 1 "late" s' = .ok false s' := by
  have hr := waitingPair_reachable
  have ho : (waitingPair.channelAt (.named "C")).owner? 1 = some 0 := by decide +kernel
  have hn : (waitingPair.channelAt (.named "C")).owner? 2 = none := by decide +kernel
  obtain ⟨hiff, _, _, _, _, hfree, htaken, _⟩ := requests_follow_holds hr
  obtain ⟨_, _, _, _, ⟨s', hs', _⟩, _⟩ := htaken (.named "C") (.named "C") ⟨1, true, "ok", [], 0⟩ 0 rfl ho
  have hafter : waitingPair.after (.deliver (.named "C") ⟨1, true, "ok", [], 0⟩) = s' := by rw [after, hs']; rfl
  have hr' : s'.Reachable := hafter ▸ .step _ hr
  have hn' : (s'.channelAt (.named "C")).owner? 1 = none := by
    rw [← hafter]
    decide +kernel
  obtain ⟨_, _, _, _, _, _, _, _, _, hclosed, _⟩ := requests_follow_holds hr'
  obtain ⟨hdeliver, hcancel⟩ := hclosed (.named "C") 1 s' hn' .refl (.named "C") rfl
  exact ⟨hr, ho, (hiff _ _ _).1 ho, (hfree (.named "C") (.named "C") ⟨2, true, "ok", [], 0⟩ rfl hn).1,
    s', hs', hr', hn', hdeliver _ rfl, hcancel "late"⟩

end Session

end Rexx
