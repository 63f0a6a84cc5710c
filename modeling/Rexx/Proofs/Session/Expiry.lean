import Rexx.Proofs.Session.Requests

/-!
# `Session.Expiry` — requests that are overdue are answered, and only those

The host cancels what is overdue one request after another. Each cancellation lets an interpreter run, which may post a
new request; the list of what is overdue was made before (`Session.expire_answers_overdue`).
-/

namespace Rexx

open Hosting List Machine Option Response

namespace Machine

variable {σ : Type} {m m' : Machine σ} {r : Response} {hold : Hold}

theorem answer?_publishes (hst : m.interp.status = .held hold) (hdepth : hold.depth = m.stack.depth)
    (hm : m.answer? r = some m') :
    m'.interp.status = .running ∧ m'.interp.vars = m.interp.vars.publish r.outcome.settled ∧
      m'.top.replies = (hold.site, r.outcome.settled) :: m.top.replies := by
  have hsettle := congrArg interp (m.settle_eq hold.site r.outcome)
  obtain ⟨hold', hst', _, rfl⟩ := answer?_spec hm
  cases hst.symm.trans hst'
  rw [hdepth]
  exact ⟨rfl, (congrArg Interpreter.vars hsettle :), (congrArg (fun i => i.stack.top.replies) hsettle :)⟩

end Machine

namespace Session

variable {σ : Type} {s s' : Session σ} {name : Text} {key : ChannelKey} {id : UInt32} {told : List (UInt32 × Text)}

/-! ## One request that is overdue -/

/-- The interpreter `name`, which waits for the request `id`, learns that its time is over and runs on. -/
inductive TimesOut (key : ChannelKey) (s : Session σ) (id : UInt32) (name : Text) (s' : Session σ) : Prop where
  | mk {mb : Member σ} {hold : Hold} {m : Machine σ} (member : s.members[name]? = some mb) (uses : mb.key name = key)
      (waits : mb.interp.status = .held hold) (awaited : hold.id = id)
      (answered : (s.machine mb).answer? (.cancelled id "timeout") = some m) (running : m.interp.status = .running)
      (told : m.interp.vars =
        ((mb.interp.vars.set "RC" "-1").set "RESULT" []).set "ERRORTEXT" "checkpoint cancelled: timeout")
      (kept : m.top.replies =
        (hold.site, ⟨false, [], -1, "checkpoint cancelled: timeout"⟩) :: mb.interp.stack.top.replies)
      (after : (s.putBack name mb (m.run s.patience)).Same s')

inductive Sweeps (key : ChannelKey) : Session σ → List (UInt32 × Text) → Session σ → Prop where
  | nil (s : Session σ) : Sweeps key s [] s
  | cons {s s1 s' : Session σ} {id : UInt32} {name : Text} {told : List (UInt32 × Text)}
      (first : TimesOut key s id name s1) (rest : Sweeps key s1 told s') : Sweeps key s ((id, name) :: told) s'

theorem outcome_timeout (id : UInt32) :
    (cancelled id "timeout").outcome.settled = ⟨false, [], -1, "checkpoint cancelled: timeout"⟩ := by
  have htext : ("checkpoint cancelled: " ++ "timeout" : Text) = "checkpoint cancelled: timeout" := by decide
  simp [cancelled, outcome, Outcome.settled, ← htext]

theorem publish_failure (v : Variables) (error : Text) :
    v.publish ⟨false, [], -1, error⟩ = ((v.set "RC" "-1").set "RESULT" []).set "ERRORTEXT" error := by
  have hrc : Text.ofInt (-1) = "-1" := by decide
  simp [Variables.publish, hrc]

theorem Linked.timesOut {ref : ChannelRef} {owner : Nat} (h : s.Linked) (hkey : keyOf? s ref = some key)
    (ho : (s.channelAt key).owner? id = some owner) :
    ∃ name s', cancel ref id "timeout" s = .ok true s' ∧ TimesOut key s id name s' := by
  obtain ⟨name, mb, m, s', hmb, hk, _, hm, hdel, hsame⟩ :=
    deliver_answers (r := .cancelled id "timeout") h hkey ho
  obtain ⟨hold, hst, hid, _⟩ := answer?_spec hm
  have hdepth := (machine_agrees h hmb).depth hold hst
  obtain ⟨hrun, hvars, hreplies⟩ := answer?_publishes hst hdepth hm
  rw [outcome_timeout] at hvars hreplies
  rw [publish_failure] at hvars
  exact ⟨name, s', hdel, hmb, hk, hst, hid, hm, hrun, hvars, hreplies, hsame⟩

/-- The interpreter `name` waits for the request `id` on the channel `key`. -/
def Awaits (s : Session σ) (key : ChannelKey) (id : UInt32) (name : Text) : Prop :=
  ∃ i hold, s.at? name = some (i, key) ∧ i.status = .held hold ∧ hold.id = id

theorem Linked.awaits {owner : Nat} (hs : s.Linked) (ho : (s.channelAt key).owner? id = some owner) :
    ∃ name, s.Awaits key id name := by
  obtain ⟨name, mb, hold, hmb, hk, _, hst, hid⟩ := waiting_of_owner hs ho
  exact ⟨name, _, hold, hk ▸ at?_of_member hmb, hst, hid⟩

theorem Awaits.owner? (h : s.Awaits key id name) (hs : s.Linked) :
    ∃ i, s.at? name = some (i, key) ∧ (s.channelAt key).owner? id = some i.id := by
  obtain ⟨i, hold, hi, hst, hid⟩ := h
  exact ⟨i, hi, ((hs.agrees hi nofun).waits id).2 ⟨hold, hst, hid⟩⟩

theorem Awaits.unique {name' : Text} (hs : s.Linked) (h : s.Awaits key id name) (h' : s.Awaits key id name') :
    name = name' := by
  obtain ⟨i, hi, ho⟩ := h.owner? hs
  obtain ⟨i', hi', ho'⟩ := h'.owner? hs
  exact hs.distinct hi hi' (some.inj (ho.symm.trans ho'))

theorem Awaits.congr (h : s.Awaits key id name) (hm : s'.members[name]? = s.members[name]?) : s'.Awaits key id name := by
  unfold Awaits at? at h ⊢
  rwa [hm]

theorem Awaits.id_eq {id' : UInt32} (h : s.Awaits key id name) (h' : s.Awaits key id' name) : id = id' := by
  obtain ⟨i, hold, hi, hst, rfl⟩ := h
  obtain ⟨i', hold', hi', hst', rfl⟩ := h'
  cases hi.symm.trans hi'
  cases hst.symm.trans hst'
  rfl

/-- What the interpreters that were told leave as it was: the others, and the requests of the others. -/
structure Spares (key : ChannelKey) (s : Session σ) (told : List (UInt32 × Text)) (s' : Session σ) : Prop where
  linked : s'.Linked
  awaited : ∀ p ∈ told, s.Awaits key p.1 p.2
  members : ∀ k, k ∉ told.map Prod.snd → s'.members[k]? = s.members[k]?
  channels : ∀ key', key' ≠ key → s'.channelAt key' = s.channelAt key'
  waiting : ∀ k w, k ∉ told.map Prod.fst → (s.channelAt key).waiting[k]? = some w →
    (s'.channelAt key).waiting[k]? = some w
  turns : ∀ p ∈ told, ∃ s1 s2, TimesOut key s1 p.1 p.2 s2 ∧ s1.members[p.2]? = s.members[p.2]? ∧
    s'.members[p.2]? = s2.members[p.2]?

theorem TimesOut.spares (h : TimesOut key s id name s') (hs : s.Linked) : Spares key s [(id, name)] s' := by
  have hturn := h
  obtain @⟨mb, hold, m, hmb, rfl, hst, rfl, hm, _, _, _, hsame⟩ := h
  have hch : (s.machine mb).channel = s.channelAt (mb.key name) := channelOf_eq hmb
  refine ⟨(Answered.of_answer hs hmb hm hsame).linked, ?_, fun k hk => ?_, fun key' hkey => ?_, fun k w hk hw => ?_, ?_⟩
  · rintro p hp
    cases mem_singleton.1 hp
    exact ⟨_, hold, at?_of_member hmb, hst, rfl⟩
  · rw [hsame.members, members_putBack, if_neg fun he => hk (by simp [he])]
  · rw [hsame.channelAt, channelAt_putBack hmb, if_neg hkey.symm]
  · rw [hsame.channelAt, channelAt_putBack hmb, if_pos rfl]
    obtain ⟨ps, hps⟩ := m.run_course s.patience
    refine hps.waiting_of_posted ?_
    rw [answer?_channel hm, hch]
    refine ((s.channelAt _).waiting_withdraw _ k).trans ?_
    rw [if_neg fun he => hk (by simp [← he, cancelled]), hw]
  · rintro p hp
    cases mem_singleton.1 hp
    exact ⟨s, s', hturn, rfl, rfl⟩

theorem Spares.cons {s1 : Session σ} (hs : s.Linked) (first : Spares key s [(id, name)] s1) (rest : Spares key s1 told s')
    (hid : id ∉ told.map Prod.fst) (ho : ∀ p ∈ told, (s.channelAt key).owner? p.1 ≠ none) :
    Spares key s ((id, name) :: told) s' := by
  have hfirst := first.awaited _ (mem_singleton_self _)
  -- A request of the rest was outstanding before, and whoever waited for it was not told first.
  have hrest : ∀ p ∈ told, s.Awaits key p.1 p.2 ∧ p.2 ≠ name := by
    intro p hp
    have hne : p.1 ≠ id := fun he => hid (he ▸ mem_map_of_mem hp)
    obtain ⟨owner, hown⟩ := ne_none_iff_exists'.1 (ho p hp)
    obtain ⟨name', hp'⟩ := hs.awaits hown
    have hname : name' ≠ name := fun he => hne ((he ▸ hp').id_eq hfirst)
    have heq := (hp'.congr (first.members name' (by simpa using hname))).unique first.linked (rest.awaited p hp)
    exact heq ▸ ⟨hp', hname⟩
  have hname : name ∉ told.map Prod.snd := by
    intro hn
    obtain ⟨p, hp, he⟩ := mem_map.1 hn
    exact (hrest p hp).2 he
  refine ⟨rest.linked, ?_, fun k hk => ?_, fun key' hkey => ?_, fun k w hk hw => ?_, ?_⟩
  · rintro p (_ | ⟨_, hp⟩)
    · exact hfirst
    · exact (hrest p hp).1
  · rw [map_cons, mem_cons, not_or] at hk
    rw [rest.members k hk.2, first.members k (by simpa using hk.1)]
  · rw [rest.channels key' hkey, first.channels key' hkey]
  · rw [map_cons, mem_cons, not_or] at hk
    exact rest.waiting k w hk.2 (first.waiting k w (by simpa using hk.1) hw)
  · rintro p (_ | ⟨_, hp⟩)
    · obtain ⟨t, t1, ht, hb, ha⟩ := first.turns _ (mem_singleton_self _)
      exact ⟨t, t1, ht, hb, (rest.members name hname).trans ha⟩
    · obtain ⟨t, t1, ht, hb, ha⟩ := rest.turns p hp
      exact ⟨t, t1, ht, hb.trans (first.members p.2 (by simpa using (hrest p hp).2)), ha⟩

theorem cancelAll_spares {ref : ChannelRef} {ids : List UInt32} (hs : s.Linked) (hkey : keyOf? s ref = some key)
    (hnd : ids.Nodup) (ho : ∀ id ∈ ids, (s.channelAt key).owner? id ≠ none) :
    ∃ told s', told.map Prod.fst = ids ∧ cancelAll ref "timeout" ids s = .ok told.length s' ∧
      Sweeps key s told s' ∧ Spares key s told s' := by
  induction ids generalizing s with
  | nil =>
    exact ⟨[], s, rfl, rfl, .nil s, hs, fun _ hp => absurd hp not_mem_nil, fun _ _ => rfl, fun _ _ => rfl,
      fun _ _ _ hw => hw, fun _ hp => absurd hp not_mem_nil⟩
  | cons id ids ih =>
    obtain ⟨hid, hnd⟩ := nodup_cons.1 hnd
    obtain ⟨owner, hown⟩ := ne_none_iff_exists'.1 (ho id mem_cons_self)
    obtain ⟨name, s1, hcancel, hout⟩ := hs.timesOut hkey hown
    have hfirst := hout.spares hs
    have hkey1 : keyOf? s1 ref = some key := by
      have := deliver_keyOf? (r := .cancelled id "timeout") hkey ref
      rw [show deliver ref (.cancelled id "timeout") s = _ from hcancel] at this
      exact this.trans hkey
    have ho1 : ∀ id' ∈ ids, (s1.channelAt key).owner? id' ≠ none := by
      intro id' hid'
      have hne : id' ≠ id := fun he => hid (he ▸ hid')
      obtain ⟨w, hw⟩ := Channel.owner?_ne_none_iff.1 (ho id' (mem_cons_of_mem _ hid'))
      exact Channel.owner?_ne_none_iff.2 ⟨w, hfirst.waiting id' w (by simpa using hne) hw⟩
    obtain ⟨told, s', hids, hall, hsweeps, hrest⟩ := ih hfirst.linked hkey1 hnd ho1
    refine ⟨(id, name) :: told, s', congrArg (id :: ·) hids, ?_, .cons hout hsweeps, ?_⟩
    · exact (bind_of_ok hcancel).trans (bind_of_ok hall)
    · refine .cons hs hfirst hrest (hids ▸ hid) fun p hp => ho p.1 (mem_cons_of_mem _ ?_)
      exact hids ▸ mem_map_of_mem hp

end Session

/-- The time for a request is over: it has a deadline, and that is not after `now`. -/
def Waiting.Overdue (w : Waiting) (now : Nat) : Prop := ∃ d, w.deadline = some d ∧ d ≤ now

theorem Channel.mem_overdue {ch : Channel} {now : Nat} {id : UInt32} :
    id ∈ ch.overdue now ↔ ∃ w, ch.waiting[id]? = some w ∧ w.Overdue now := by
  unfold overdue Waiting.Overdue
  simp only [mem_filterMap, Prod.exists, Std.TreeMap.mem_toList_iff_getElem?_eq_some, ite_none_right_eq_some,
    some.injEq, Option.any_eq_true, decide_eq_true_eq]
  constructor
  · rintro ⟨id', w, hw, hdue, rfl⟩
    exact ⟨w, hw, hdue⟩
  · rintro ⟨w, hw, hdue⟩
    exact ⟨id, w, hw, hdue, rfl⟩

theorem Channel.nodup_overdue (ch : Channel) (now : Nat) : (ch.overdue now).Nodup := by
  refine Pairwise.filterMap _ (fun p q hpq id hid id' hid' heq => hpq ?_) Std.TreeMap.distinct_keys_toList
  simp only [ite_none_right_eq_some, some.injEq] at hid hid'
  rw [Std.LawfulEqCmp.compare_eq_iff_eq, hid.2, hid'.2, heq]

namespace Session

variable {σ : Type} {s : Session σ} {ref : ChannelRef} {key : ChannelKey}

/-- **What is overdue is answered, and nothing else.** The interpreters that wait for an overdue request are told so one
after another, each once, and their number is returned. All others, and their requests, are left alone, and so are the
requests that are posted meanwhile: they are outstanding in the end, with those that were not overdue. -/
theorem expire_answers_overdue (h : s.Reachable) (hkey : Hosting.keyOf? s ref = some key) (now : Nat) :
    ∃ told s', Hosting.expire ref now s = .ok told.length s' ∧ Sweeps key s told s' ∧ (told.map Prod.snd).Nodup ∧
      (∀ id name, (id, name) ∈ told ↔
        s.Awaits key id name ∧ ∃ w, (s.channelAt key).waiting[id]? = some w ∧ w.Overdue now) ∧
      (∀ p ∈ told, ∃ s1 s2, TimesOut key s1 p.1 p.2 s2 ∧ s1.members[p.2]? = s.members[p.2]? ∧
        s'.members[p.2]? = s2.members[p.2]?) ∧
      (∀ name, name ∉ told.map Prod.snd → s'.members[name]? = s.members[name]?) ∧
      (∀ key', key' ≠ key → s'.channelAt key' = s.channelAt key') ∧
      (∀ (id : UInt32) w, (s.channelAt key).waiting[id]? = some w → ¬ w.Overdue now →
        (s'.channelAt key).waiting[id]? = some w) ∧
      ∀ id, (s'.channelAt key).owner? id ≠ none ↔
        (∃ w, (s.channelAt key).waiting[id]? = some w ∧ ¬ w.Overdue now) ∨
        ∃ name ∈ told.map Prod.snd, s'.Awaits key id name := by
  have hs := h.linked
  have hexp : Hosting.expire ref now s = Hosting.cancelAll ref "timeout" ((s.channelAt key).overdue now) s :=
    bind_of_ok (Hosting.channel_of_some hkey)
  have hout : ∀ id ∈ (s.channelAt key).overdue now, (s.channelAt key).owner? id ≠ none := by
    intro id hid
    obtain ⟨w, hw, _⟩ := Channel.mem_overdue.1 hid
    exact Channel.owner?_ne_none_iff.2 ⟨w, hw⟩
  have hnd := (s.channelAt key).nodup_overdue now
  obtain ⟨told, s', hids, hall, hsweeps, hsp⟩ := cancelAll_spares hs hkey hnd hout
  have hmem : ∀ id name, (id, name) ∈ told ↔
      s.Awaits key id name ∧ ∃ w, (s.channelAt key).waiting[id]? = some w ∧ w.Overdue now := by
    intro id name
    rw [← Channel.mem_overdue, ← hids]
    refine ⟨fun hp => ⟨hsp.awaited _ hp, List.mem_map_of_mem hp⟩, fun ⟨ha, hid⟩ => ?_⟩
    obtain ⟨p, hp, rfl⟩ := List.mem_map.1 hid
    exact ha.unique hs (hsp.awaited p hp) ▸ hp
  have hkept : ∀ (id : UInt32) w, (s.channelAt key).waiting[id]? = some w → ¬ w.Overdue now →
      (s'.channelAt key).waiting[id]? = some w := by
    intro id w hw hlate
    refine hsp.waiting id w (fun hid => hlate ?_) hw
    obtain ⟨w', hw', hdue⟩ := Channel.mem_overdue.1 (hids ▸ hid)
    cases hw.symm.trans hw'
    exact hdue
  refine ⟨told, s', hexp.trans hall, hsweeps, ?_, hmem, hsp.turns, hsp.members, hsp.channels, hkept,
    fun id => ⟨fun ho => ?_, ?_⟩⟩
  · refine (List.Nodup.of_map Prod.fst (hids ▸ hnd)).map_on fun p hp q hq he => Prod.ext ?_ he
    exact (hsp.awaited p hp).id_eq (he ▸ hsp.awaited q hq)
  · obtain ⟨owner, ho⟩ := Option.ne_none_iff_exists'.1 ho
    obtain ⟨name, ha'⟩ := hsp.linked.awaits ho
    by_cases hn : name ∈ told.map Prod.snd
    · exact .inr ⟨name, hn, ha'⟩
    · -- An interpreter that was not told waits as before, so its request was not overdue.
      have ha : s.Awaits key id name := ha'.congr (hsp.members name hn).symm
      obtain ⟨i, _, ho⟩ := ha.owner? hs
      obtain ⟨w, hw, _⟩ := Option.map_eq_some_iff.1 ho
      exact .inl ⟨w, hw, fun hdue => hn (List.mem_map_of_mem ((hmem id name).2 ⟨ha, w, hw, hdue⟩))⟩
  · rintro (⟨w, hw, hlate⟩ | ⟨name, _, ha⟩)
    · exact Channel.owner?_ne_none_iff.2 ⟨w, hkept id w hw hlate⟩
    · obtain ⟨i, _, ho⟩ := ha.owner? hsp.linked
      simp [ho]

/-- The interpreter A waits; when its time is over, it posts another request, with the same deadline. -/
def overduePair : Session Unit := (equippedPair.after (.load "A" "address t\n'work'\n'more'" "a" [])).after (.run "A")

theorem expire_answers_overdue_overduePair :
    overduePair.Reachable ∧ ∃ told s' name, Hosting.expire (.named "C") 30000 overduePair = .ok told.length s' ∧
      (1, name) ∈ told ∧ Sweeps (.named "C") overduePair told s' := by
  have hr : overduePair.Reachable := .step _ (.step _ equippedPair_reachable)
  have hw : (overduePair.channelAt (.named "C")).waiting[(1 : UInt32)]? = some ⟨0, some 30000⟩ := by decide +kernel
  have ho : (overduePair.channelAt (.named "C")).owner? 1 = some 0 := by rw [Channel.owner?, hw]; rfl
  obtain ⟨name, ha⟩ := hr.linked.awaits ho
  have hkey : Hosting.keyOf? overduePair (.named "C") = some (.named "C") := rfl
  obtain ⟨told, s', hexp, hsweeps, _, hmem, _⟩ := expire_answers_overdue hr hkey 30000
  exact ⟨hr, told, s', name, hexp, (hmem 1 name).2 ⟨ha, _, hw, _, rfl, le_rfl⟩, hsweeps⟩

end Session

end Rexx
