import Rexx.Proofs.Channel.Outstanding

/-!
# `Channel.History` — what has happened on a channel

A channel keeps requests in two places: by number, until they are answered, cancelled or withdrawn, and in a queue,
until the host takes them.
-/

namespace Rexx.Channel

open Channel List

/-! ## Records -/

/-- What is noted of a channel. -/
inductive Record where
  | posted (r : Request)
  | taken (r : Request)
  | closed (id : UInt32)
deriving DecidableEq, Repr

namespace Record

/-- After the record the host cannot take the request with the number any more. -/
def ends (id : UInt32) : Record → Bool
  | .posted _ => false
  | .taken r => r.id == id
  | .closed id' => id' == id

/-- The requests that have been posted and neither taken nor closed since, in the order in which they were posted. -/
def pending : List Record → List Request
  | [] => []
  | .posted r :: rs => if rs.any (ends r.id) then pending rs else r :: pending rs
  | .taken _ :: rs | .closed _ :: rs => pending rs

variable {rs : List Record} {r : Request}

theorem pending_append_posted (rs : List Record) (r : Request) : pending (rs ++ [.posted r]) = pending rs ++ [r] := by
  induction rs with
  | nil => simp [pending]
  | cons x rs ih =>
    cases x with
    | posted a =>
      simp only [cons_append, pending, any_append, any_cons, any_nil, ends, Bool.or_false, ih]
      split <;> rfl
    | taken a => exact ih
    | closed id => exact ih

theorem pending_append_ends (rs : List Record) {x : Record} (hx : ∀ r, x ≠ .posted r) :
    pending (rs ++ [x]) = (pending rs).filter fun r => !x.ends r.id := by
  induction rs with
  | nil =>
    cases x with
    | posted r => exact absurd rfl (hx r)
    | taken r => rfl
    | closed id => rfl
  | cons y rs ih =>
    cases y with
    | posted a =>
      simp only [cons_append, pending, any_append]
      cases rs.any (ends a.id) with
      | true => simpa using ih
      | false => cases hxa : x.ends a.id <;> simp [hxa, ih]
    | taken a => exact ih
    | closed id => exact ih

/-- **The first request that is pending** has neither been taken nor closed since it was posted, and whatever was pending
when it was posted has been taken or closed since. -/
theorem split_of_pending {rest : List Request} (h : pending rs = r :: rest) :
    ∃ before since, rs = before ++ .posted r :: since ∧ (∀ x ∈ since, x.ends r.id = false) ∧
      ∀ r' ∈ pending before, ∃ x ∈ since, x.ends r'.id = true := by
  induction rs with
  | nil => cases h
  | cons y rs ih =>
    -- A record in front that is not the posting of the request itself goes to what was before it.
    have hskip : pending rs = r :: rest → (∀ a, y = .posted a → rs.any (ends a.id) = true) →
        ∃ before since, y :: rs = before ++ .posted r :: since ∧ (∀ x ∈ since, x.ends r.id = false) ∧
          ∀ r' ∈ pending before, ∃ x ∈ since, x.ends r'.id = true := by
      intro hrs hy
      obtain ⟨before, since, heq, hsince, hbefore⟩ := ih hrs
      refine ⟨y :: before, since, by rw [heq]; rfl, hsince, fun r' hr' => ?_⟩
      cases y with
      | taken a => exact hbefore r' hr'
      | closed id => exact hbefore r' hr'
      | posted a =>
        unfold pending at hr'
        split at hr'
        · exact hbefore r' hr'
        · rename_i hnone
          obtain rfl | hr' := mem_cons.1 hr'
          · -- It ends somewhere, but neither before the request nor with its posting.
            have hends := hy r' rfl
            rw [heq, any_append, Bool.eq_false_iff.2 hnone] at hends
            simpa [ends] using hends
          · exact hbefore r' hr'
    cases y with
    | taken a => exact hskip h nofun
    | closed id => exact hskip h nofun
    | posted a =>
      unfold pending at h
      split at h
      · rename_i hends
        exact hskip h fun _ ha => by cases ha; exact hends
      · rename_i hnone
        cases h
        refine ⟨[], rs, rfl, fun x hx => ?_, fun _ hr' => (by cases hr')⟩
        exact Bool.eq_false_iff.2 fun hx' => hnone (any_eq_true.2 ⟨x, hx, hx'⟩)

end Record

/-! ## What happens to a channel -/

inductive Step : Channel → Record → Channel → Prop where
  | post {ch ch' : Channel} {id : UInt32} {owner now general : Nat} {c : Checkpoint}
      (h : ch.post? owner now general c = some (id, ch')) : Step ch (.posted ⟨id, c.operation, c.params⟩) ch'
  | take {ch ch' : Channel} {r : Request} (h : ch.take = (some r, ch')) : Step ch (.taken r) ch'
  | withdraw {ch ch' : Channel} {id : UInt32} (h : ch.withdraw id = (true, ch')) : Step ch (.closed id) ch'

inductive Course : Channel → List Record → Channel → Prop where
  | nil (ch : Channel) : Course ch [] ch
  | cons {ch ch1 ch' : Channel} {x : Record} {rs : List Record} (first : Step ch x ch1) (rest : Course ch1 rs ch') :
      Course ch (x :: rs) ch'

/-- What has happened to the channel since nothing was outstanding and nothing was queued, whatever number was then the
next one. -/
def History (rs : List Record) (ch : Channel) : Prop := ∃ next, Course ⟨next, ∅, []⟩ rs ch

variable {ch ch' ch'' : Channel} {id k : UInt32} {x : Record} {rs rs' : List Record}

theorem Step.issue (owner now general : Nat) (c : Checkpoint)
    (h : freeId? ch.waiting (ch.waiting.size + 2) ch.nextId = some id) :
    Step ch (.posted ⟨id, c.operation, c.params⟩) (ch.issue id owner now general c) :=
  .post (by rw [post?, h]; rfl)

theorem Course.single (h : Step ch x ch') : Course ch [x] ch' := .cons h (.nil ch')

theorem Course.trans (h : Course ch rs ch') (h' : Course ch' rs' ch'') : Course ch (rs ++ rs') ch'' := by
  induction h with
  | nil => exact h'
  | cons first _ ih => exact .cons first (ih h')

theorem Course.split (h : Course ch (rs ++ rs') ch') : ∃ ch1, Course ch rs ch1 ∧ Course ch1 rs' ch' := by
  induction rs generalizing ch with
  | nil => exact ⟨ch, .nil ch, h⟩
  | cons x rs ih =>
    cases h with
    | cons first rest =>
      obtain ⟨ch1, h1, h2⟩ := ih rest
      exact ⟨ch1, .cons first h1, h2⟩

theorem History.trans (h : ch.History rs) (h' : Course ch rs' ch') : ch'.History (rs ++ rs') := by
  obtain ⟨next, h⟩ := h
  exact ⟨next, h.trans h'⟩

theorem history_empty : empty.History [] := ⟨1, .nil _⟩

theorem take_course (ch : Channel) : ∃ rs, Course ch rs ch.take.2 := by
  cases ht : ch.take with
  | mk r ch' =>
    cases r with
    | some r => exact ⟨_, .single (.take ht)⟩
    | none =>
      unfold take at ht
      split at ht
      · cases ht
        exact ⟨[], .nil _⟩
      · cases ht

/-! ### Taking requests off -/

theorem withdraw_course (ch : Channel) (id : UInt32) :
    Course ch (if ch.owner? id = none then [] else [.closed id]) (ch.withdraw id).2 := by
  split
  · rename_i hnone
    rw [withdraw_of_free hnone]
    exact .nil ch
  · rename_i hsome
    refine .single (.withdraw ?_)
    rw [withdraw, if_pos (contains_iff_owner?.2 hsome)]

theorem forget_course (ch : Channel) (owner : Nat) :
    ∃ ids : List UInt32, Course ch (ids.map .closed) (ch.forget owner) ∧ ∀ id, ch.owner? id = some owner → id ∈ ids := by
  have hall : ∀ (l : List (UInt32 × Waiting)) (ch : Channel),
      ∃ ids : List UInt32, Course ch (ids.map .closed) (l.foldl (fun ch p => (ch.withdraw p.1).2) ch) ∧
        ∀ id ∈ l.map Prod.fst, ch.owner? id ≠ none → id ∈ ids := by
    intro l
    induction l with
    | nil => exact fun ch => ⟨[], .nil ch, fun _ hid => (by cases hid)⟩
    | cons p l ih =>
      intro ch
      obtain ⟨ids, hcourse, hmem⟩ := ih (ch.withdraw p.1).2
      have hfirst := withdraw_course ch p.1
      by_cases hp : ch.owner? p.1 = none
      · rw [if_pos hp] at hfirst
        refine ⟨ids, hfirst.trans hcourse, fun id hid hne => ?_⟩
        obtain rfl | hid := mem_cons.1 hid
        · exact absurd hp hne
        · refine hmem id hid ?_
          rw [owner?_withdraw, if_neg fun heq : p.1 = id => hne (heq ▸ hp)]
          exact hne
      · rw [if_neg hp] at hfirst
        refine ⟨p.1 :: ids, hfirst.trans hcourse, fun id hid hne => ?_⟩
        by_cases hpid : p.1 = id
        · exact mem_cons.2 (.inl hpid.symm)
        · obtain rfl | hid := mem_cons.1 hid
          · exact absurd rfl hpid
          · refine mem_cons_of_mem _ (hmem id hid ?_)
            rw [owner?_withdraw, if_neg hpid]
            exact hne
  obtain ⟨ids, hcourse, hmem⟩ := hall (ch.waiting.toList.filter fun p => p.2.owner == owner) ch
  refine ⟨ids, hcourse, fun id hid => hmem id ?_ (by simp [hid])⟩
  obtain ⟨w, hw, ho⟩ := Option.map_eq_some_iff.1 hid
  refine mem_map.2 ⟨(id, w), mem_filter.2 ⟨Std.TreeMap.mem_toList_iff_getElem?_eq_some.2 hw, ?_⟩, rfl⟩
  simpa using ho

theorem Course.waiting_of_posted {ps : List Request} {w : Waiting} (h : Course ch (ps.map .posted) ch')
    (hk : ch.waiting[k]? = some w) : ch'.waiting[k]? = some w := by
  induction ps generalizing ch with
  | nil =>
    cases h
    exact hk
  | cons p ps ih =>
    cases h with
    | cons first rest =>
      refine ih rest ?_
      cases first with
      | @post _ id _ _ _ _ hp =>
        obtain ⟨hfree, rfl⟩ := post?_spec hp
        have hne : id ≠ k := fun he => by simp [owner?, he, hk] at hfree
        simp only [issue, Std.TreeMap.getElem?_insert, Std.LawfulEqCmp.compare_eq_iff_eq, if_neg hne, hk]

/-- **A number that is not outstanding** stays so as long as no request is posted under it. -/
theorem Course.free (h : Course ch rs ch') (hfree : ch.owner? id = none) (hrs : ∀ p, .posted p ∈ rs → p.id ≠ id) :
    ch'.owner? id = none := by
  induction h with
  | nil => exact hfree
  | @cons ch _ _ _ _ first _ ih =>
    refine ih ?_ fun p hp => hrs p (mem_cons_of_mem _ hp)
    cases first with
    | post hp =>
      obtain ⟨_, rfl⟩ := post?_spec hp
      rw [owner?_issue, if_neg (hrs _ mem_cons_self), hfree]
    | take ht =>
      have hkept := owner?_take ch id
      rw [ht] at hkept
      exact hkept.trans hfree
    | @withdraw _ k hw =>
      have hkept := owner?_withdraw ch k id
      rw [hw, hfree, ite_self] at hkept
      exact hkept

theorem Course.free_of_closed (h : Course ch (.closed id :: rs) ch') (hrs : ∀ p, .posted p ∈ rs → p.id ≠ id) :
    ch'.owner? id = none := by
  cases h with
  | cons first rest =>
    cases first with
    | withdraw hw =>
      have hoff := owner?_withdraw ch id id
      rw [hw, if_pos rfl] at hoff
      exact rest.free hoff hrs

/-! ## The queue -/

structure Tracks (rs : List Record) (ch : Channel) : Prop where
  outgoing : ch.outgoing = Record.pending rs
  distinct : (ch.outgoing.map Request.id).Nodup
  outstanding : ∀ r ∈ ch.outgoing, ch.owner? r.id ≠ none

theorem filter_of_nodup {r : Request} {q : List Request} (h : ((r :: q).map Request.id).Nodup) :
    (r :: q).filter (fun r' => !(r.id == r'.id)) = q := by
  rw [map_cons, nodup_cons] at h
  rw [filter_cons]
  simp only [BEq.rfl]
  refine filter_eq_self.2 fun r' hr' => ?_
  have hne : r.id ≠ r'.id := fun heq => h.1 (heq ▸ mem_map_of_mem hr')
  simpa using hne

theorem eraseP_eq_filter {q : List Request} (h : (q.map Request.id).Nodup) (id : UInt32) :
    q.eraseP (fun r => r.id == id) = q.filter fun r => !(id == r.id) := by
  induction q with
  | nil => rfl
  | cons r q ih =>
    by_cases hr : r.id = id
    · subst hr
      rw [filter_of_nodup h, eraseP_cons_of_pos (by simp)]
    · rw [eraseP_cons_of_neg (by simpa using hr), filter_cons_of_pos (by simpa using fun e => hr e.symm),
        ih (nodup_cons.1 h).2]

theorem tracks_fresh (next : UInt32) : Tracks [] ⟨next, ∅, []⟩ := ⟨rfl, nodup_nil, fun _ hr => (by cases hr)⟩

theorem Tracks.step (h : Tracks rs ch) (hs : Step ch x ch') : Tracks (rs ++ [x]) ch' := by
  cases hs with
  | @post _ id owner now general c hp =>
    obtain ⟨hfree, rfl⟩ := post?_spec hp
    -- The number is not outstanding, so no request in the queue has it.
    have hnew : id ∉ ch.outgoing.map Request.id := by
      intro hid
      obtain ⟨r, hr, rfl⟩ := mem_map.1 hid
      exact h.outstanding r hr hfree
    refine ⟨?_, ?_, fun r hr => ?_⟩
    · rw [Record.pending_append_posted, ← h.outgoing]
      rfl
    · show ((ch.outgoing ++ [_]).map Request.id).Nodup
      rw [map_append]
      exact h.distinct.append (nodup_singleton _) (by simpa using hnew)
    · rw [owner?_issue]
      split
      · simp
      · rename_i hne
        obtain hr | hr := mem_append.1 hr
        · exact h.outstanding r hr
        · obtain rfl := mem_singleton.1 hr
          exact absurd rfl hne
  | @take _ r ht =>
    unfold take at ht
    cases hq : ch.outgoing with
    | nil =>
      rw [hq] at ht
      cases ht
    | cons a q =>
      rw [hq] at ht
      cases ht
      have hdistinct := hq ▸ h.distinct
      refine ⟨?_, (nodup_cons.1 hdistinct).2, fun r hr => h.outstanding r (hq ▸ mem_cons_of_mem _ hr)⟩
      rw [Record.pending_append_ends rs fun _ hx => (by cases hx), ← h.outgoing, hq]
      exact (filter_of_nodup hdistinct).symm
  | @withdraw _ id hw =>
    unfold withdraw at hw
    split at hw
    · cases hw
      have herase := eraseP_eq_filter h.distinct id
      refine ⟨?_, ?_, fun r hr => ?_⟩
      · rw [Record.pending_append_ends rs fun _ hx => (by cases hx), ← h.outgoing]
        exact herase
      · exact h.distinct.sublist (eraseP_sublist.map _)
      · have hr' : r ∈ ch.outgoing.filter fun r => !(id == r.id) := herase ▸ hr
        have hne : id ≠ r.id := by simpa using (mem_filter.1 hr').2
        show (ch.waiting.erase id)[r.id]?.map Waiting.owner ≠ none
        rw [Std.TreeMap.getElem?_erase]
        simp only [Std.LawfulEqCmp.compare_eq_iff_eq, if_neg hne]
        exact h.outstanding r (mem_filter.1 hr').1
    · cases hw

theorem Tracks.course (h : Tracks rs ch) (hc : Course ch rs' ch') : Tracks (rs ++ rs') ch' := by
  induction hc generalizing rs with
  | nil => simpa using h
  | @cons _ _ _ x rs1 first _ ih =>
    have := ih (h.step first)
    rwa [append_assoc] at this

theorem History.tracks (h : ch.History rs) : Tracks rs ch := by
  obtain ⟨next, hc⟩ := h
  exact (tracks_fresh next).course hc

theorem Tracks.take (h : Tracks rs ch) : ch.take.1 = (Record.pending rs).head? := by
  rw [← h.outgoing, Channel.take]
  cases ch.outgoing <;> rfl

/-- **A request that was taken** had been posted, and since then neither taken nor closed; and all requests that were
pending when it was posted had been taken or closed. -/
theorem History.taken {r : Request} (h : ch.History (rs ++ .taken r :: rs')) :
    ∃ before since, rs = before ++ .posted r :: since ∧ (∀ x ∈ since, x.ends r.id = false) ∧
      ∀ r' ∈ Record.pending before, ∃ x ∈ since, x.ends r'.id = true := by
  obtain ⟨next, hc⟩ := h
  obtain ⟨ch1, hbefore, hsince⟩ := hc.split
  have htracks : Tracks rs ch1 := History.tracks ⟨next, hbefore⟩
  cases hsince with
  | cons first _ =>
    cases first with
    | take ht =>
      have hhead := htracks.take
      rw [ht] at hhead
      obtain ⟨rest, hp⟩ := head?_eq_some_iff.1 hhead.symm
      exact Record.split_of_pending hp

theorem freeId?_first {waiting : Std.TreeMap UInt32 Waiting} {n : Nat} {start : UInt32}
    (h : freeId? waiting n start = some id) :
    ∃ k < n, id = start + UInt32.ofNat k ∧
      ∀ j < k, start + UInt32.ofNat j = 0 ∨ waiting.contains (start + UInt32.ofNat j) = true := by
  induction n generalizing start with
  | zero => cases h
  | succ n ih =>
    have hzero : start + UInt32.ofNat 0 = start := UInt32.add_zero start
    unfold freeId? at h
    split at h
    · rename_i htaken
      obtain ⟨k, hk, hid, hbusy⟩ := ih h
      have hstep : ∀ i : Nat, start + 1 + UInt32.ofNat i = start + UInt32.ofNat (i + 1) := by
        intro i
        rw [UInt32.ofNat_add, UInt32.add_comm (UInt32.ofNat i), UInt32.add_assoc]
        rfl
      refine ⟨k + 1, Nat.succ_lt_succ hk, hid.trans (hstep k), fun j hj => ?_⟩
      cases j with
      | zero =>
        rw [hzero]
        simpa only [Bool.or_eq_true, decide_eq_true_eq] using htaken
      | succ j =>
        rw [← hstep]
        exact hbusy j (Nat.lt_of_succ_lt_succ hj)
    · cases h
      exact ⟨0, Nat.succ_pos n, hzero.symm, fun j hj => absurd hj (Nat.not_lt_zero j)⟩

/-- **The number of a request** is the first one, counted from the next number of the channel, that is neither zero nor
outstanding; there is one as long as not all numbers are outstanding. -/
theorem post?_first (ch : Channel) (owner now general : Nat) (c : Checkpoint) (hroom : ch.outstanding < 2 ^ 32 - 1) :
    ∃ k id, ch.post? owner now general c = some (id, ch.issue id owner now general c) ∧
      id = ch.nextId + UInt32.ofNat k ∧ k ≤ ch.outstanding + 1 ∧ id ≠ 0 ∧ ch.owner? id = none ∧
      ∀ j < k, ch.nextId + UInt32.ofNat j = 0 ∨ ch.owner? (ch.nextId + UInt32.ofNat j) ≠ none := by
  obtain ⟨id, ch', hp⟩ := ch.post?_isSome owner now general c hroom
  obtain ⟨hfree, rfl⟩ := post?_spec hp
  obtain ⟨id', hid, heq⟩ := Option.map_eq_some_iff.1 hp
  cases heq
  obtain ⟨k, hk, hid', hbusy⟩ := freeId?_first hid
  refine ⟨k, id, hp, hid', Nat.le_of_lt_succ hk, (freeId?_spec hid).1, hfree, fun j hj => ?_⟩
  exact (hbusy j hj).imp_right contains_iff_owner?.1

end Rexx.Channel
