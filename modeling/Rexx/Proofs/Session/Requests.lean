import Rexx.Proofs.Session.Containment

/-!
# `Session.Requests` — requests are numbered apart and taken in order

Requests are posted by interpreters that run, taken by the host, and closed when they are answered, cancelled,
withdrawn or forgotten.
-/

namespace Rexx

open Channel Hosting List Session

open Channel (Course History Record)

/-! ## Sessions -/

namespace Session

variable {σ : Type} {s s' s'' : Session σ} {name : Text} {mb : Member σ}

def Continues (s s' : Session σ) : Prop := ∀ key, ∃ rs, s.Unfolds key rs s'

theorem Continues.of_courses (h : ∀ key, ∃ rs, Course (s.channelAt key) rs (s'.channelAt key)) : s.Continues s' := fun key =>
  let ⟨rs, hrs⟩ := h key
  ⟨rs, _, .inl rfl, hrs⟩

theorem Continues.refl (s : Session σ) : s.Continues s := .of_courses fun _ => ⟨[], .nil _⟩

theorem Continues.trans (h : s.Continues s') (h' : s'.Continues s'') : s.Continues s'' := by
  intro key
  obtain ⟨rs, ch, hch, hrs⟩ := h key
  obtain ⟨rs', ch', rfl | hnew, hrs'⟩ := h' key
  · exact ⟨_, ch, hch, hrs.trans hrs'⟩
  · exact ⟨rs', ch', .inr hnew, hrs'⟩

theorem Continues.replaced {key : ChannelKey} {ch : Channel}
    (hs : ∀ key', s'.channelAt key' = if key = key' then ch else s.channelAt key')
    (hch : ∃ rs, Course (s.channelAt key) rs ch) : s.Continues s' := by
  refine .of_courses fun key' => ?_
  rw [hs]
  split
  · rename_i hk
    exact hk ▸ hch
  · exact ⟨[], .nil _⟩

theorem Continues.of_unused
    (h : ∀ key, s'.channelAt key = s.channelAt key ∨ ∃ next, s'.channelAt key = ⟨next, ∅, []⟩) : s.Continues s' := by
  exact fun key => ⟨[], _, h key, .nil _⟩

theorem continues_putBack (hmb : s.members[name]? = some mb) {m : Machine σ}
    (hm : ∃ rs, Course (s.machine mb).channel rs m.channel) : s.Continues (s.putBack name mb m) :=
  .replaced (channelAt_putBack hmb m) (channelOf_eq hmb ▸ hm)

end Session

namespace Hosting

variable {σ α : Type} {s s' : Session σ} {name : Text} {mb : Member σ} {ref : ChannelRef} {key : ChannelKey}
  {r : Response}

theorem operate_continues {act : Operating σ α} (hact : ∀ m, ∃ rs, Course m.channel rs (endState (act m)).channel) :
    s.Continues (endState (operate name act s)) :=
  operate_ends (.refl s) fun _ hmb => continues_putBack hmb (hact _)

theorem halt_continues (name : Text) : s.Continues (endState (halt name s)) := operate_continues fun _ => ⟨[], .nil _⟩

theorem setVar_continues (name var value : Text) : s.Continues (endState (setVar name var value s)) := by
  refine operate_continues fun m => ⟨[], ?_⟩
  cases hv : m.interp.set var value <;> simp only [bind_apply, get_apply, hv] <;> exact .nil _

theorem run_posts (hmb : s.members[name]? = some mb) :
    ∃ ps : List Request, Course (s.channelAt (mb.key name)) (ps.map .posted)
      ((endState (run name s)).channelAt (mb.key name)) := by
  rw [run_of_some hmb, endState, channelAt_putBack hmb, if_pos rfl, ← channelOf_eq hmb]
  exact (s.machine mb).run_course s.patience

theorem run_continues (name : Text) : s.Continues (endState (run name s)) := by
  unfold run
  rw [bind_of_ok (get_apply s)]
  refine operate_continues fun m => ?_
  obtain ⟨ps, hps⟩ := m.run_course s.patience
  exact ⟨_, hps⟩

theorem load_continues (name source title : Text) (args : Args) :
    s.Continues (endState (load name source title args s)) :=
  load_ends (.refl s) (fun _ hmb => continues_putBack hmb ⟨[], .nil _⟩) fun mb p hmb =>
    continues_putBack hmb ((s.machine mb).begin_course p args)

/-! ### Answers -/

/-- **An answer to an interpreter** closes at most the request with its number, and only if that is still open on the
channel; what follows are requests that the interpreter posts. -/
theorem resume_course (name : Text) (r : Response) (key : ChannelKey) :
    ∃ (cs : List Record) (ps : List Request), (cs = [] ∨ cs = [.closed r.id] ∧ (s.channelAt key).owner? r.id ≠ none) ∧
      Course (s.channelAt key) (cs ++ ps.map .posted) ((endState (resume name r s)).channelAt key) := by
  obtain ⟨f, s', hr, hs⟩ | ⟨mb, m, s', hmb, hm, hr, hs⟩ := resume_cases name r s
  · rw [hr, endState, hs.channelAt]
    exact ⟨[], [], .inl rfl, .nil _⟩
  · rw [hr, endState, hs.channelAt, channelAt_putBack hmb]
    split
    · rename_i hkey
      subst hkey
      obtain ⟨ps, hps⟩ := answered_course hmb hm
      refine ⟨_, ps, ?_, hps⟩
      split
      · exact .inl rfl
      · rename_i hne
        exact .inr ⟨rfl, hne⟩
    · exact ⟨[], [], .inl rfl, .nil _⟩

theorem resume_continues (name : Text) (r : Response) : s.Continues (endState (resume name r s)) := .of_courses fun key =>
  let ⟨_, _, _, h⟩ := resume_course name r key
  ⟨_, h⟩

theorem resume_closes {st : Status} (hmb : s.members[name]? = some mb)
    (ho : (s.channelAt (mb.key name)).owner? r.id ≠ none) (h : resume name r s = .ok st s') :
    ∃ ps : List Request, Course (s.channelAt (mb.key name)) (.closed r.id :: ps.map .posted)
      (s'.channelAt (mb.key name)) := by
  obtain ⟨f, s1, hr, _⟩ | ⟨mb', m, s1, hmb', hm, hr, hs⟩ := resume_cases name r s
  · cases hr.symm.trans h
  · cases hr.symm.trans h
    cases hmb.symm.trans hmb'
    obtain ⟨ps, hps⟩ := answered_course hmb hm
    rw [if_neg ho] at hps
    rw [hs.channelAt, channelAt_putBack hmb, if_pos rfl]
    exact ⟨ps, hps⟩

theorem resume_keyOf? (name : Text) (r : Response) (ref : ChannelRef) :
    keyOf? (endState (resume name r s)) ref = keyOf? s ref := by
  have hkeys : ∀ s' : Session σ, (∀ k, (s'.at? k).map Prod.snd = (s.at? k).map Prod.snd) → keyOf? s' ref = keyOf? s ref := by
    intro s' hs'
    cases ref with
    | named c => rfl
    | usedBy k => exact hs' k
  refine hkeys _ fun k => ?_
  obtain ⟨f, s', hr, hs⟩ | ⟨mb, m, s', hmb, _, hr, hs⟩ := resume_cases name r s
  · rw [hr, endState, hs.at?]
  · rw [hr, endState, hs.at?, at?_putBack]
    split
    · rename_i hk
      rw [← hk, at?_of_member hmb]
      rfl
    · rfl

variable (hkey : keyOf? s ref = some key)
include hkey

theorem deliver_end (ho : (s.channelAt key).owner? r.id ≠ none) :
    ∃ s1, (∀ key', s1.channelAt key' = if key = key' then ((s.channelAt key).withdraw r.id).2 else s.channelAt key') ∧
      (∀ ref, keyOf? s1 ref = keyOf? s ref) ∧
      (endState (deliver ref r s) = s1 ∨ ∃ name, endState (deliver ref r s) = endState (resume name r s1)) := by
  obtain ⟨owner, ho⟩ := Option.ne_none_iff_exists'.1 ho
  have hdel : deliver ref r s = _ := bind_of_ok (channel_of_some hkey)
  rw [ho] at hdel
  obtain ⟨s1, hset, _, _, hch1, hkeys1⟩ := setChannel_spec hkey ((s.channelAt key).withdraw r.id).2
  refine ⟨s1, hch1, hkeys1, ?_⟩
  replace hdel := hdel.trans ((bind_of_ok hset).trans (bind_of_ok (get_apply s1)))
  rw [hdel]
  cases s1.nameOf? owner with
  | none => exact .inl rfl
  | some name =>
    exact .inr ⟨name, bind_ends (P := (· = _)) rfl fun _ _ hs => hs⟩

theorem deliver_closes (ho : (s.channelAt key).owner? r.id ≠ none) :
    ∃ ps : List Request, Course (s.channelAt key) (.closed r.id :: ps.map .posted)
      ((endState (deliver ref r s)).channelAt key) := by
  obtain ⟨s1, hch1, _, hend⟩ := deliver_end hkey ho
  have hfirst := (s.channelAt key).withdraw_course r.id
  rw [if_neg ho, ← (hch1 key).trans (if_pos rfl)] at hfirst
  obtain hend | ⟨name, hend⟩ := hend
  · exact ⟨[], hend ▸ hfirst⟩
  · obtain ⟨cs, ps, hcs, hcourse⟩ := resume_course name r key
    have hoff : (s1.channelAt key).owner? r.id = none := by
      rw [hch1, if_pos rfl, owner?_withdraw, if_pos rfl]
    obtain rfl | ⟨_, hne⟩ := hcs
    · exact ⟨ps, hend ▸ hfirst.trans hcourse⟩
    · exact absurd hoff hne

omit hkey in
theorem deliver_continues (ref : ChannelRef) (r : Response) : s.Continues (endState (deliver ref r s)) := by
  refine channel_ends (.refl s) fun key hkey => ?_
  have hdel : deliver ref r s = _ := bind_of_ok (channel_of_some hkey)
  rw [← hdel]
  by_cases ho : (s.channelAt key).owner? r.id = none
  · rw [deliver_of_none hkey ho]
    exact .refl s
  · obtain ⟨s1, hch1, _, hend⟩ := deliver_end hkey ho
    have h1 : s.Continues s1 := .replaced hch1 ⟨_, (s.channelAt key).withdraw_course r.id⟩
    obtain hend | ⟨name, hend⟩ := hend
    · exact hend ▸ h1
    · exact hend ▸ h1.trans (resume_continues name r)

theorem deliver_keyOf? (ref' : ChannelRef) : keyOf? (endState (deliver ref r s)) ref' = keyOf? s ref' := by
  by_cases ho : (s.channelAt key).owner? r.id = none
  · rw [deliver_of_none hkey ho]
    rfl
  · obtain ⟨s1, _, hkeys1, hend⟩ := deliver_end hkey ho
    obtain hend | ⟨name, hend⟩ := hend
    · rw [hend, hkeys1]
    · rw [hend, resume_keyOf?, hkeys1]

/-! ### Requests that are overdue -/

omit hkey in
theorem cancelAll_continues (ref : ChannelRef) (why : Text) (ids : List UInt32) :
    s.Continues (endState (cancelAll ref why ids s)) := by
  induction ids generalizing s with
  | nil => exact .refl s
  | cons id ids ih =>
    exact bind_ends (deliver_continues ref (.cancelled id why)) fun _ _ h1 =>
      bind_ends (h1.trans ih) fun _ _ h2 => h2

theorem cancelAll_closes {why : Text} {ids : List UInt32} {n : Nat} (h : cancelAll ref why ids s = .ok n s') :
    ∃ rs, Course (s.channelAt key) rs (s'.channelAt key) ∧
      ∀ id ∈ ids, (s.channelAt key).owner? id ≠ none → Record.closed id ∈ rs := by
  induction ids generalizing s n with
  | nil =>
    cases h
    exact ⟨[], .nil _, fun _ hid => (by cases hid)⟩
  | cons id ids ih =>
    cases hd : deliver ref (.cancelled id why) s with
    | error e s1 =>
      have he : cancelAll ref why (id :: ids) s = .error e s1 := bind_of_error hd
      rw [he] at h
      cases h
    | ok done s1 =>
      cases hc : cancelAll ref why ids s1 with
      | error e s2 =>
        have he : cancelAll ref why (id :: ids) s = .error e s2 := (bind_of_ok hd).trans (bind_of_error hc)
        rw [he] at h
        cases h
      | ok k s2 =>
        have he : cancelAll ref why (id :: ids) s = _ := (bind_of_ok hd).trans (bind_of_ok hc)
        rw [he] at h
        cases h
        have hkey1 : keyOf? s1 ref = some key := by
          have := deliver_keyOf? (r := .cancelled id why) hkey ref
          rw [hd] at this
          exact this.trans hkey
        obtain ⟨rs, hrs, hclosed⟩ := ih hkey1 hc
        by_cases ho : (s.channelAt key).owner? id = none
        · have hnone := deliver_of_none (r := .cancelled id why) hkey ho
          rw [hnone] at hd
          cases hd
          refine ⟨rs, hrs, fun id' hid' hne => ?_⟩
          obtain rfl | hid' := mem_cons.1 hid'
          · exact absurd ho hne
          · exact hclosed id' hid' hne
        · obtain ⟨ps, hps⟩ := deliver_closes (r := .cancelled id why) hkey ho
          rw [hd] at hps
          refine ⟨_, hps.trans hrs, fun id' hid' hne => ?_⟩
          by_cases heq : id' = id
          · subst heq
            exact mem_cons_self
          · -- Other requests are still outstanding when the first one is closed.
            have hid' := (mem_cons.1 hid').resolve_left heq
            refine mem_append_right _ (hclosed id' hid' ?_)
            cases hps with
            | cons first rest =>
              cases first with
              | withdraw hw =>
                obtain ⟨w, hwait⟩ := owner?_ne_none_iff.1 hne
                have hkept := (s.channelAt key).waiting_withdraw id id'
                rw [show ((s.channelAt key).withdraw id).2 = _ from congrArg Prod.snd hw, if_neg fun e => heq e.symm] at hkept
                exact owner?_ne_none_iff.2 ⟨w, rest.waiting_of_posted (hkept.trans hwait)⟩

theorem expire_closes {now n : Nat} (h : expire ref now s = .ok n s') : ∃ rs, Course (s.channelAt key) rs (s'.channelAt key) ∧
      ∀ id ∈ (s.channelAt key).overdue now, Record.closed id ∈ rs := by
  have he : expire ref now s = _ := bind_of_ok (channel_of_some hkey)
  rw [he] at h
  obtain ⟨rs, hrs, hclosed⟩ := cancelAll_closes hkey h
  refine ⟨rs, hrs, fun id hid => hclosed id hid ?_⟩
  obtain ⟨⟨id', w⟩, hw, hsome⟩ := mem_filterMap.1 hid
  have hget := Std.TreeMap.mem_toList_iff_getElem?_eq_some.1 hw
  dsimp only at hsome
  split at hsome
  · cases hsome
    rw [owner?, hget]
    simp
  · cases hsome

omit hkey in
theorem expire_continues (ref : ChannelRef) (now : Nat) : s.Continues (endState (expire ref now s)) :=
  channel_ends (.refl s) fun _ _ => cancelAll_continues ref _ _

/-! ### Channels that are changed alone -/

theorem setChannel_continues {ch : Channel}
    (hch : ∃ rs, Course (s.channelAt key) rs ch) : s.Continues (endState (setChannel ref ch s)) := by
  obtain ⟨s', hset, _, _, hch', _⟩ := setChannel_spec hkey ch
  rw [hset]
  exact .replaced hch' hch

theorem take_end :
    ∃ s', setChannel ref (s.channelAt key).take.2 s = .ok () s' ∧ take ref s = .ok (s.channelAt key).take.1 s' := by
  obtain ⟨s', hs', _⟩ := setChannel_spec hkey (s.channelAt key).take.2
  refine ⟨s', hs', ?_⟩
  unfold take
  rw [bind_of_ok (channel_of_some hkey)]
  dsimp only
  rw [bind_of_ok hs', pure_apply]

omit hkey in
theorem take_continues (ref : ChannelRef) : s.Continues (endState (take ref s)) :=
  channel_ends (.refl s) fun key hkey =>
    bind_ends (setChannel_continues hkey (s.channelAt key).take_course) fun _ _ h => h

theorem take_takes {r : Request} (h : take ref s = .ok (some r) s') :
    Course (s.channelAt key) [.taken r] (s'.channelAt key) := by
  obtain ⟨s1, hset, ht⟩ := take_end hkey
  obtain ⟨s2, hset', _, _, hch, _⟩ := setChannel_spec hkey (s.channelAt key).take.2
  rw [hset] at hset'
  cases hset'
  rw [ht] at h
  injection h with hr hs
  subst hs
  rw [hch, if_pos rfl]
  exact .single (.take (Prod.ext hr rfl))

theorem withdraw_end (id : UInt32) :
    endState (withdraw ref id s) = endState (setChannel ref ((s.channelAt key).withdraw id).2 s) := by
  unfold withdraw
  rw [bind_of_ok (channel_of_some hkey)]
  rfl

omit hkey in
theorem withdraw_continues (ref : ChannelRef) (id : UInt32) : s.Continues (endState (withdraw ref id s)) :=
  channel_ends (.refl s) fun key hkey =>
    bind_ends (setChannel_continues hkey ⟨_, (s.channelAt key).withdraw_course id⟩) fun _ _ h => h

theorem withdraw_closes {id : UInt32} (ho : (s.channelAt key).owner? id ≠ none) :
    Course (s.channelAt key) [.closed id] ((endState (withdraw ref id s)).channelAt key) := by
  obtain ⟨s', hset, _, _, hch, _⟩ := setChannel_spec hkey ((s.channelAt key).withdraw id).2
  have hcourse := (s.channelAt key).withdraw_course id
  rw [if_neg ho] at hcourse
  rw [withdraw_end hkey, hset, endState, hch, if_pos rfl]
  exact hcourse

/-! ### Interpreters that come and go -/

omit hkey in
theorem remove_continues (name : Text) : s.Continues (endState (remove name s)) := by
  cases hmb : s.members[name]? with
  | none =>
    rw [remove_of_none hmb]
    exact .refl s
  | some mb =>
    have hforget : s.Continues (s.setChannelOf name mb ((s.channelOf mb).forget mb.interp.id)) := by
      obtain ⟨ids, hids, _⟩ := (s.channelOf mb).forget_course mb.interp.id
      refine .replaced (channelAt_setChannelOf hmb _) ?_
      rw [← channelOf_eq hmb]
      exact ⟨_, hids⟩
    rw [remove_of_some hmb]
    refine hforget.trans (.of_unused fun key => ?_)
    cases key with
    | named c => exact .inl rfl
    | own k =>
      simp only [endState, channelAt, Std.TreeMap.getElem?_erase]
      split
      · exact .inr ⟨1, rfl⟩
      · exact .inl rfl

omit hkey in
theorem create_continues (name : Text) (channel registry : Option Text) :
    s.Continues (endState (create name channel registry s)) := by
  rw [create_end]
  refine (remove_continues name).trans (.of_unused fun key => ?_)
  cases key with
  | named c => exact .inl rfl
  | own k =>
    simp only [enrol, channelAt, Table.getElem?_insert]
    split
    · exact .inr ⟨1, rfl⟩
    · exact .inl rfl

end Hosting

/-! ## Histories -/

namespace Session

variable {σ : Type} {s s' : Session σ} {name : Text} {mb : Member σ}

def Recorded (s : Session σ) : Prop := ∀ key, ∃ rs, (s.channelAt key).History rs

theorem Recorded.of_continues (h : s.Recorded) (hs : s.Continues s') : s'.Recorded := by
  intro key
  obtain ⟨rs', ch, rfl | ⟨next, rfl⟩, hrs'⟩ := hs key
  · obtain ⟨rs, hrs⟩ := h key
    exact ⟨_, hrs.trans hrs'⟩
  · exact ⟨rs', next, hrs'⟩

theorem continues_after (s : Session σ) (act : HostStep) : s.Continues (s.after act) := by
  cases act with
  | create name channel registry => exact create_continues name channel registry
  | remove name => exact remove_continues name
  | load name source title args => exact load_continues name source title args
  | run name => exact run_continues name
  | resume name r => exact resume_continues name r
  | deliver ref r => exact deliver_continues ref r
  | take ref => exact take_continues ref
  | cancel ref id why => exact deliver_continues ref (.cancelled id why)
  | expire ref now => exact expire_continues ref now
  | halt name => exact halt_continues name
  | set name var value => exact setVar_continues name var value

/-- The sessions that a host can come to if it also withdraws requests under the interpreters that wait for them, and
puts unused channels, with any next number, in the place of others. -/
inductive Hosted : Session σ → Prop
  | empty (patience : Nat) (around : Surroundings σ) (host : σ) : Hosted (.empty patience around host)
  | step {s : Session σ} (act : HostStep) : Hosted s → Hosted (s.after act)
  | withdraw {s : Session σ} (ref : ChannelRef) (id : UInt32) : Hosted s → Hosted (endState (Hosting.withdraw ref id s))
  | provide {s s' : Session σ}
      (h : ∀ key, s'.channelAt key = s.channelAt key ∨ ∃ next, s'.channelAt key = ⟨next, ∅, []⟩) : Hosted s → Hosted s'

theorem Hosted.recorded (h : s.Hosted) : s.Recorded := by
  induction h with
  | empty patience around host =>
    intro key
    cases key with
    | named c => exact ⟨[], history_empty⟩
    | own k => exact ⟨[], history_empty⟩
  | step act _ ih => exact ih.of_continues (continues_after _ act)
  | withdraw ref id _ ih => exact ih.of_continues (withdraw_continues ref id)
  | provide hp _ ih => exact ih.of_continues (.of_unused hp)

/-- **Requests have numbers of their own, and the host takes them in the order in which they were posted.** -/
theorem requests_numbered_in_order :
    (∀ (ch : Channel) (rs : List Record), ch.History rs →
      (∀ owner now general c, ch.outstanding < 2 ^ 32 - 1 →
        ∃ k id, ch.post? owner now general c = some (id, ch.issue id owner now general c) ∧
          id = ch.nextId + UInt32.ofNat k ∧ k ≤ ch.outstanding + 1 ∧ id ≠ 0 ∧ ch.owner? id = none ∧
          ∀ j < k, ch.nextId + UInt32.ofNat j = 0 ∨ ch.owner? (ch.nextId + UInt32.ofNat j) ≠ none) ∧
      (ch.outgoing.map Request.id).Nodup ∧ (∀ r ∈ ch.outgoing, ch.owner? r.id ≠ none) ∧
      ch.take.1 = (Record.pending rs).head? ∧
      (∀ before r since, rs = before ++ .taken r :: since →
        ∃ earlier between, before = earlier ++ .posted r :: between ∧ (∀ x ∈ between, x.ends r.id = false) ∧
          ∀ r' ∈ Record.pending earlier, ∃ x ∈ between, x.ends r'.id = true) ∧
      ∀ owner, ∃ ids : List UInt32, Course ch (ids.map .closed) (ch.forget owner) ∧
        ∀ id, ch.owner? id = some owner → id ∈ ids) ∧
    ∀ (s : Session σ), s.Hosted →
      (∀ key, ∃ rs, (s.channelAt key).History rs) ∧
      (∀ ref key, Hosting.keyOf? s ref = some key →
        (∀ r, (s.channelAt key).owner? r.id ≠ none → ∃ ps : List Request,
          Course (s.channelAt key) (.closed r.id :: ps.map .posted) ((s.after (.deliver ref r)).channelAt key)) ∧
        (∀ id why, (s.channelAt key).owner? id ≠ none → ∃ ps : List Request,
          Course (s.channelAt key) (.closed id :: ps.map .posted) ((s.after (.cancel ref id why)).channelAt key)) ∧
        (∀ id, (s.channelAt key).owner? id ≠ none →
          Course (s.channelAt key) [.closed id] ((endState (Hosting.withdraw ref id s)).channelAt key)) ∧
        (∀ r s', Hosting.take ref s = .ok (some r) s' → Course (s.channelAt key) [.taken r] (s'.channelAt key)) ∧
        ∀ now n s', Hosting.expire ref now s = .ok n s' → ∃ rs, Course (s.channelAt key) rs (s'.channelAt key) ∧
          ∀ id ∈ (s.channelAt key).overdue now, .closed id ∈ rs) ∧
      ∀ name mb, s.members[name]? = some mb →
        (∃ ps : List Request,
          Course (s.channelAt (mb.key name)) (ps.map .posted) ((s.after (.run name)).channelAt (mb.key name))) ∧
        ∀ r st s', (s.channelAt (mb.key name)).owner? r.id ≠ none → Hosting.resume name r s = .ok st s' →
          ∃ ps : List Request,
            Course (s.channelAt (mb.key name)) (.closed r.id :: ps.map .posted) (s'.channelAt (mb.key name)) := by
  refine ⟨fun ch rs h => ?_, fun s hs => ?_⟩
  · have ht := h.tracks
    refine ⟨fun owner now general c => ch.post?_first owner now general c, ht.distinct, ht.outstanding, ht.take, ?_,
      ch.forget_course⟩
    rintro before r since rfl
    exact h.taken
  · refine ⟨hs.recorded, fun ref key hkey => ⟨fun r => Hosting.deliver_closes hkey, fun id why => ?_,
      fun id => Hosting.withdraw_closes hkey, fun r s' => Hosting.take_takes hkey,
      fun now n s' => Hosting.expire_closes hkey⟩, fun name mb hmb => ⟨Hosting.run_posts hmb, ?_⟩⟩
    · exact Hosting.deliver_closes (r := .cancelled id why) hkey
    · exact fun r st s' => Hosting.resume_closes hmb

def roundChannel : Channel :=
  (((⟨0xFFFFFFFF, ∅, []⟩ : Channel).issue 0xFFFFFFFF 0 0 0 ⟨"a", [], 0⟩).issue 1 1 0 0 ⟨"b", [], 0⟩).issue 2 0 0 0 ⟨"c", [], 0⟩

theorem roundChannel_history : (roundChannel.withdraw 1).2.History
      [.posted ⟨0xFFFFFFFF, "a", []⟩, .posted ⟨1, "b", []⟩, .posted ⟨2, "c", []⟩, .closed 1] := by
  have hclosed : roundChannel.withdraw 1 = (true, (roundChannel.withdraw 1).2) := Prod.ext (by decide +kernel) rfl
  refine ⟨0xFFFFFFFF, .cons (.issue 0 0 0 ⟨"a", [], 0⟩ ?_) (.cons (.issue 1 0 0 ⟨"b", [], 0⟩ ?_)
    (.cons (.issue 0 0 0 ⟨"c", [], 0⟩ ?_) (.single (.withdraw hclosed))))⟩
  all_goals decide +kernel

theorem requests_numbered_in_order_round :
    (roundChannel.withdraw 1).2.History
      [.posted ⟨0xFFFFFFFF, "a", []⟩, .posted ⟨1, "b", []⟩, .posted ⟨2, "c", []⟩, .closed 1] ∧
    (roundChannel.withdraw 1).2.take.1 = some ⟨0xFFFFFFFF, "a", []⟩ ∧
    ((roundChannel.withdraw 1).2.outgoing.map Request.id).Nodup ∧
    (∃ k id ch, (roundChannel.withdraw 1).2.post? 1 0 0 ⟨"d", [], 0⟩ = some (id, ch) ∧ id = 3 + UInt32.ofNat k) ∧
    waitingPair.Hosted ∧ ∃ rs, (waitingPair.channelAt (.named "C")).History rs := by
  have hpair : pair.Hosted := .step _ (.step _ (.empty _ _ _))
  have hequipped : equippedPair.Hosted := .provide (s := pair) (fun _ => .inl rfl) hpair
  have hwaiting : waitingPair.Hosted := .step _ (.step _ hequipped)
  obtain ⟨hchannel, hsession⟩ := requests_numbered_in_order (σ := Unit)
  obtain ⟨hpost, hdistinct, _, htake, _⟩ := hchannel _ _ roundChannel_history
  obtain ⟨k, id, hp, hid, _⟩ := hpost 1 0 0 ⟨"d", [], 0⟩ (by decide +kernel)
  have hnext : (roundChannel.withdraw 1).2.nextId = 3 := by decide +kernel
  exact ⟨roundChannel_history, htake, hdistinct, ⟨k, id, _, hp, hnext ▸ hid⟩, hwaiting,
    (hsession _ hwaiting).1 (.named "C")⟩

end Session

end Rexx
