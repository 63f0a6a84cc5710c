import Rexx.Proofs.Channel.History
import Rexx.Proofs.Session.Linked

/-!
# `Session.Agreement` — every step of the host keeps channels and interpreters in agreement

A request is outstanding exactly if an interpreter waits for it, before and after every step of the host.
-/

namespace Rexx

open Channel Interpreter Machine Option Session Std.TreeMap

open Channel (Course Record)

/-! ## What a machine does to its channel -/

namespace Machine

variable {σ : Type} {m m' : Machine σ}

theorem Goes.course (h : m.Goes m') : ∃ ps : List Request, Course m.channel (ps.map .posted) m'.channel := by
  cases h with
  | on _ hch _ _ => exact ⟨[], hch ▸ .nil _⟩
  | stops _ hch _ => exact ⟨[], hch ▸ .nil _⟩
  | @holds m0 site c hs hh =>
    obtain ⟨⟨id, ch⟩, hp, rfl⟩ := Option.map_eq_some_iff.1 hh
    refine ⟨[⟨id, c.operation, c.params⟩], .single (.post (hs.channel ▸ hp))⟩

theorem run_course (n : Nat) (m : Machine σ) : ∃ ps : List Request, Course m.channel (ps.map .posted) (run n m).channel := by
  induction n generalizing m with
  | zero => exact ⟨[], .nil _⟩
  | succ n ih =>
    unfold run
    split
    · rename_i hrun
      obtain ⟨ps, hps⟩ := (tick_goes hrun).course
      obtain ⟨qs, hqs⟩ := ih m.tick
      exact ⟨ps ++ qs, List.map_append ▸ hps.trans hqs⟩
    · exact ⟨[], .nil _⟩

theorem begin_course (m : Machine σ) (p : Program) (args : Args) : ∃ rs, Course m.channel rs (m.begin p args).channel := by
  unfold begin
  split
  · obtain ⟨ids, hids, _⟩ := m.channel.forget_course m.interp.id
    exact ⟨_, hids⟩
  · exact ⟨[], .nil _⟩

theorem answer?_channel {r : Response} (h : m.answer? r = some m') : m'.channel = (m.channel.withdraw r.id).2 := by
  obtain ⟨_, _, _, rfl⟩ := answer?_spec h
  rfl

theorem answer?_course {r : Response} (h : m.answer? r = some m') :
    Course m.channel (if m.channel.owner? r.id = none then [] else [.closed r.id]) m'.channel :=
  answer?_channel h ▸ m.channel.withdraw_course r.id

end Machine

/-- The state in which a computation ends, whether it succeeds or fails. -/
def endState {ε τ α : Type} : EStateM.Result ε τ α → τ
  | .ok _ s => s
  | .error _ s => s

namespace Hosting

variable {σ α : Type} {s s' : Session σ} {name : Text} {mb : Member σ}
  {act : Operating σ α} {m : Machine σ} {ref : ChannelRef} {key : ChannelKey} {r : Response}

variable {owner : Nat} {hold : Hold} {x : Hosting σ α} {P : Session σ → Prop}

theorem bind_ends {β : Type} {f : α → Hosting σ β} (hx : P (endState (x s)))
    (hf : ∀ a s', P s' → P (endState (f a s'))) : P (endState ((x >>= f) s)) := by
  cases h : x s with
  | ok a s' =>
    rw [bind_of_ok h]
    exact hf a s' (by rwa [h] at hx)
  | error e s' =>
    rw [bind_of_error h]
    rwa [h] at hx

/-! ## Steps on one interpreter -/

theorem operate_of_none (act : Operating σ α) (h : s.members[name]? = none) :
    operate name act s = .error .noInterpreter s := by
  simp only [operate, bind_apply, get_apply, h, throw_apply]

theorem operate_of_ok {a : α} (h : s.members[name]? = some mb)
    (hact : act (s.machine mb) = .ok a m) : operate name act s = .ok a (s.putBack name mb m) := by
  simp only [operate, bind_apply, get_apply, h, hact, set_apply, pure_apply]

theorem operate_of_error {e : SessionFault} (h : s.members[name]? = some mb)
    (hact : act (s.machine mb) = .error e m) : operate name act s = .error e (s.putBack name mb m) := by
  simp only [operate, bind_apply, get_apply, h, hact, set_apply, throw_apply]

def Keeps (act : Operating σ α) : Prop :=
  ∀ m : Machine σ, m.Agrees → (endState (act m)).Agrees ∧ m.Spares (endState (act m))

theorem machine_agrees (h : s.Linked) (hmb : s.members[name]? = some mb) : (s.machine mb).Agrees := by
  show mb.interp.AgreesWith (s.channelOf mb)
  rw [channelOf_eq hmb]
  exact h.agrees (at?_of_member hmb) nofun

theorem operate_ends (hnone : P s)
    (hput : ∀ mb, s.members[name]? = some mb → P (s.putBack name mb (endState (act (s.machine mb))))) :
    P (endState (operate name act s)) := by
  cases hmb : s.members[name]? with
  | none =>
    rw [operate_of_none act hmb]
    exact hnone
  | some mb =>
    have hend := hput mb hmb
    cases hm : act (s.machine mb) with
    | ok a m =>
      rw [operate_of_ok hmb hm]
      rwa [hm] at hend
    | error e m =>
      rw [operate_of_error hmb hm]
      rwa [hm] at hend

theorem operate_linked (hact : Keeps act) (h : s.Linked) : (endState (operate name act s)).Linked := by
  refine operate_ends h fun mb hmb => ?_
  obtain ⟨ha, hsp⟩ := hact _ (machine_agrees h hmb)
  exact (h.but _).putBack hmb ha hsp

theorem agrees_modifyInterp (f : Interpreter σ → Interpreter σ) (hid : (f m.interp).id = m.interp.id)
    (hst : (f m.interp).status = m.interp.status) (hdepth : (f m.interp).stack.depth = m.stack.depth)
    (hm : m.Agrees) : (m.modifyInterp f).Agrees ∧ m.Spares (m.modifyInterp f) := by
  refine ⟨⟨fun id => ?_, fun h hh => ?_⟩, .of_eq hid rfl⟩
  · show m.channel.owner? id = some (f m.interp).id ↔ ∃ h, (f m.interp).status = .held h ∧ h.id = id
    rw [hid, hst]
    exact hm.waits id
  · show h.depth = (f m.interp).stack.depth
    rw [hdepth]
    exact hm.depth h (hst ▸ hh)

theorem halt_linked (h : s.Linked) (name : Text) : (endState (halt name s)).Linked :=
  operate_linked (fun _ hm => agrees_modifyInterp Interpreter.halt rfl rfl rfl hm) h

theorem depth_setMainVariables (i : Interpreter σ) (v : Variables) :
    (i.setMainVariables v).stack.depth = i.stack.depth := by
  simp only [setMainVariables, Stack.depth]
  rw [(CallersKept.modifyMain i.stack v.pool).length_eq]

theorem setVar_linked (h : s.Linked) (name var value : Text) : (endState (setVar name var value s)).Linked := by
  refine operate_linked (fun m hm => ?_) h
  cases hv : m.interp.mainVariables.assign? (Text.upper var) value with
  | some v =>
    have hset : m.interp.set var value = .ok (m.interp.setMainVariables v) := by rw [Interpreter.set, hv]
    simp only [bind_apply, get_apply, hset]
    exact agrees_modifyInterp (fun _ => m.interp.setMainVariables v) rfl rfl (depth_setMainVariables _ v) hm
  | none =>
    have hset : m.interp.set var value = .error (.badName (Text.upper var)) := by rw [Interpreter.set, hv]
    simp only [bind_apply, get_apply, hset]
    exact ⟨hm, .refl m⟩

theorem run_of_some (h : s.members[name]? = some mb) :
    run name s = .ok (Machine.run s.patience (s.machine mb)).interp.status
      (s.putBack name mb (Machine.run s.patience (s.machine mb))) := by
  unfold run
  rw [bind_of_ok (get_apply s)]
  exact operate_of_ok h rfl

theorem run_linked (h : s.Linked) (name : Text) : (endState (run name s)).Linked := by
  unfold run
  rw [bind_of_ok (get_apply s)]
  exact operate_linked (fun m hm => m.run_agrees s.patience hm) h

theorem load_ends {source title : Text} {args : Args} (hnone : P s)
    (hsame : ∀ mb, s.members[name]? = some mb → P (s.putBack name mb (s.machine mb)))
    (hput : ∀ mb p, s.members[name]? = some mb → P (s.putBack name mb ((s.machine mb).begin p args))) :
    P (endState (load name source title args s)) := by
  refine operate_ends hnone fun mb hmb => ?_
  cases hs : (s.machine mb).start source title args with
  | error e =>
    simp only [bind_apply, get_apply, hs]
    exact hsame mb hmb
  | ok m =>
    obtain ⟨p, -, rfl⟩ := start_eq_ok.1 hs
    simp only [bind_apply, get_apply, hs]
    exact hput mb p hmb

theorem load_linked (h : s.Linked) (name source title : Text) (args : Args) :
    (endState (load name source title args s)).Linked := by
  refine load_ends h (fun mb hmb => ?_) fun mb p hmb => ?_
  · exact (h.but _).putBack hmb (machine_agrees h hmb) (.refl _)
  · obtain ⟨ha, hsp, _⟩ := (s.machine mb).begin_agrees p args (machine_agrees h hmb)
    exact (h.but _).putBack hmb ha hsp

/-! ## Interpreters that come and go -/

theorem remove_of_none (h : s.members[name]? = none) : remove name s = .error .noInterpreter s := by
  simp only [remove, bind_apply, get_apply, h, throw_apply]

theorem remove_of_some (h : s.members[name]? = some mb) : remove name s = .ok ()
      { s.setChannelOf name mb ((s.channelOf mb).forget mb.interp.id) with
        members := (s.setChannelOf name mb ((s.channelOf mb).forget mb.interp.id)).members.erase name } := by
  simp only [remove, bind_apply, get_apply, h, set_apply]

theorem remove_spec (h : s.Linked) (hmb : s.members[name]? = some mb) :
    ∃ s', remove name s = .ok () s' ∧ s'.nextId = s.nextId ∧
      (∀ k, s'.at? k = if name = k then none else s.at? k) ∧
      ∀ key id owner, (s'.channelAt key).owner? id = some owner ↔
        (s.channelAt key).owner? id = some owner ∧ owner ≠ mb.interp.id := by
  have hat := at?_of_member hmb
  have hnext := (putBack_channel hmb ((s.channelOf mb).forget mb.interp.id)).nextId
  have hsame := at?_setChannelOf hmb ((s.channelOf mb).forget mb.interp.id)
  have hset := channelAt_setChannelOf hmb ((s.channelOf mb).forget mb.interp.id)
  have hremove := remove_of_some hmb
  generalize s.setChannelOf name mb ((s.channelOf mb).forget mb.interp.id) = s1 at *
  refine ⟨_, hremove, hnext, fun k => ?_, fun key id owner => ?_⟩
  · have hk := hsame k
    unfold at? at hk ⊢
    rw [getElem?_erase]
    simp only [Std.LawfulEqCmp.compare_eq_iff_eq]
    split
    · rfl
    · exact hk
  · have hkept : (s1.channelAt key).owner? id = some owner ↔
        (s.channelAt key).owner? id = some owner ∧ owner ≠ mb.interp.id := by
      rw [hset]
      split
      · rename_i hkey
        rw [Channel.owner?_forget, channelOf_eq hmb, hkey]
        split
        · rename_i hmine
          rw [hmine]
          exact ⟨fun h => (by cases h), fun ⟨h, hne⟩ => absurd (some.inj h).symm hne⟩
        · rename_i hmine
          exact ⟨fun h => ⟨h, fun heq => hmine (heq ▸ h)⟩, And.left⟩
      · rename_i hkey
        exact ⟨fun ho => ⟨ho, fun heq => hkey (h.key_eq hat (heq ▸ ho)).symm⟩, And.left⟩
    cases key with
    | named c => exact hkept
    | own k =>
      by_cases hk : name = k
      · -- The channel of the interpreter itself is gone; on it were only requests of its own.
        subst hk
        refine ⟨fun ho => absurd ho ?_, fun ⟨ho, hne⟩ => ?_⟩
        · simp [channelAt, Channel.owner?_empty]
        · obtain ⟨k, i, hki, hio⟩ := h.owned ho
          have hk : k = name := by
            obtain ⟨mb', _, _, hkey⟩ := member_of_at? hki
            unfold Member.key at hkey
            split at hkey
            · cases hkey
            · cases hkey
              rfl
          subst hk
          obtain ⟨rfl, _⟩ := Prod.mk.inj (some.inj (hat.symm.trans hki))
          exact absurd hio.symm hne
      · have hk' : ({ s1 with members := s1.members.erase name } : Session σ).channelAt (.own k) = s1.channelAt (.own k) := by
          simp only [channelAt, getElem?_erase, Std.LawfulEqCmp.compare_eq_iff_eq, if_neg hk]
        rw [hk']
        exact hkept

theorem remove_frees (h : s.Linked) (name : Text) :
    (endState (remove name s)).Linked ∧ (endState (remove name s)).at? name = none := by
  cases hmb : s.members[name]? with
  | none =>
    rw [remove_of_none hmb]
    exact ⟨h, map_eq_none_iff.2 hmb⟩
  | some mb =>
    obtain ⟨s', hr, hnext, hat, hch⟩ := remove_spec h hmb
    rw [hr]
    exact ⟨h.erase (at?_of_member hmb) hat hnext hch, (hat name).trans (if_pos rfl)⟩

def enrol (name : Text) (channel registry : Option Text) (s : Session σ) : Session σ :=
  { s with
    members := s.members.insert name ⟨.fresh s.nextId, .empty, ∅, channel, registry⟩
    nextId := s.nextId + 1 }

theorem create_end (name : Text) (channel registry : Option Text) :
    endState (create name channel registry s) = enrol name channel registry (endState (remove name s)) := by
  unfold create
  rw [bind_of_ok (get_apply s), contains_eq_isSome_getElem?]
  cases hmb : s.members[name]? with
  | none =>
    rw [remove_of_none hmb]
    rfl
  | some mb =>
    rw [isSome_some, if_pos rfl, bind_of_ok (remove_of_some hmb), remove_of_some hmb]
    rfl

theorem enrol_linked (h : s.Linked) (hnone : s.at? name = none) (channel registry : Option Text) :
    (enrol name channel registry s).Linked := by
  have hmem : s.members[name]? = none := map_eq_none_iff.1 hnone
  let mb : Member σ := ⟨.fresh s.nextId, .empty, ∅, channel, registry⟩
  refine h.insert (i := .fresh s.nextId) (mb.key name) hnone rfl (fun h => by simp [fresh])
    (fun k => ?_) rfl fun key id => ?_
  · simp only [enrol, at?, Table.getElem?_insert]
    split
    · rename_i hk
      subst hk
      rfl
    · rfl
  · cases key with
    | named c => rfl
    | own k =>
      simp only [enrol, channelAt, Table.getElem?_insert]
      split
      · rename_i hk
        subst hk
        simp [hmem]
      · rfl

theorem create_linked (h : s.Linked) (name : Text) (channel registry : Option Text) :
    (endState (create name channel registry s)).Linked := by
  rw [create_end]
  exact enrol_linked (remove_frees h name).1 (remove_frees h name).2 channel registry

/-! ## Channels -/

/-- The channel that a step is about. -/
def keyOf? (s : Session σ) : ChannelRef → Option ChannelKey
  | .named c => some (.named c)
  | .usedBy name => (s.at? name).map Prod.snd

theorem channel_of_none (h : keyOf? s ref = none) : channel ref s = .error .noInterpreter s := by
  cases ref with
  | named c => cases h
  | usedBy name =>
    have hmb : s.members[name]? = none := by simpa [keyOf?, at?] using h
    simp only [channel, bind_apply, get_apply, hmb, throw_apply]

theorem channel_of_some (h : keyOf? s ref = some key) : channel ref s = .ok (s.channelAt key) s := by
  cases ref with
  | named c =>
    cases h
    rfl
  | usedBy name =>
    obtain ⟨⟨i, key'⟩, hat, rfl⟩ := map_eq_some_iff.1 h
    obtain ⟨mb, hmb, _, rfl⟩ := member_of_at? hat
    simp only [channel, bind_apply, get_apply, hmb, pure_apply, channelOf_eq hmb]

theorem channel_ends {f : Channel → Hosting σ α} (hnone : P s)
    (hsome : ∀ key, keyOf? s ref = some key → P (endState (f (s.channelAt key) s))) :
    P (endState ((channel ref >>= f) s)) := by
  cases hkey : keyOf? s ref with
  | none =>
    rw [bind_of_error (channel_of_none hkey)]
    exact hnone
  | some key =>
    rw [bind_of_ok (channel_of_some hkey)]
    exact hsome key hkey

theorem setChannel_spec (h : keyOf? s ref = some key) (ch : Channel) :
    ∃ s', setChannel ref ch s = .ok () s' ∧ (∀ k, s'.at? k = s.at? k) ∧ s'.nextId = s.nextId ∧
      (∀ key', s'.channelAt key' = if key = key' then ch else s.channelAt key') ∧ ∀ ref, keyOf? s' ref = keyOf? s ref := by
  have hkeys : ∀ s' : Session σ, (∀ k, s'.at? k = s.at? k) → ∀ ref, keyOf? s' ref = keyOf? s ref := by
    intro s' hat ref
    cases ref with
    | named c => rfl
    | usedBy name => simp only [keyOf?, hat]
  cases ref with
  | named c =>
    cases h
    refine ⟨_, rfl, fun _ => rfl, rfl, fun key' => ?_, hkeys _ fun _ => rfl⟩
    cases key' with
    | named c' =>
      simp only [ChannelKey.named.injEq]
      exact channelNamed_insert s c c' ch
    | own k => rfl
  | usedBy name =>
    obtain ⟨⟨i, key'⟩, hat, rfl⟩ := map_eq_some_iff.1 h
    obtain ⟨mb, hmb, _, rfl⟩ := member_of_at? hat
    have hset : setChannel (.usedBy name) ch s = .ok () (s.setChannelOf name mb ch) := by
      simp only [setChannel, modify_apply, hmb]
    exact ⟨_, hset, at?_setChannelOf hmb ch, (putBack_channel hmb ch).nextId,
      channelAt_setChannelOf hmb ch, hkeys _ (at?_setChannelOf hmb ch)⟩

theorem take_linked (h : s.Linked) (ref : ChannelRef) : (endState (take ref s)).Linked := by
  refine channel_ends h fun key hkey => ?_
  obtain ⟨s', hset, hat, hnext, hch, _⟩ := setChannel_spec hkey (s.channelAt key).take.2
  dsimp only
  rw [bind_of_ok hset]
  show s'.Linked
  refine h.congr hat hnext fun key' id => ?_
  rw [hch]
  split
  · rename_i hk
    rw [← hk, Channel.owner?_take]
  · rfl

/-! ## Answers -/

theorem nameOf?_eq {i : Interpreter σ} (h : s.Linked) (hat : ∀ k, s'.at? k = s.at? k)
    (hi : s.at? name = some (i, key)) : s'.nameOf? i.id = some name := by
  obtain ⟨mb, hmb, rfl, _⟩ := member_of_at? ((hat name).trans hi)
  have hmem : (name, mb) ∈ s'.members.toList := mem_toList_iff_getElem?_eq_some.2 hmb
  have hfind : s'.nameOf? mb.interp.id = (s'.members.toList.find? fun q => q.2.interp.id == mb.interp.id).map Prod.fst := rfl
  rw [hfind]
  cases hf : s'.members.toList.find? fun q => q.2.interp.id == mb.interp.id with
  | none => exact absurd (List.find?_eq_none.1 hf _ hmem) (by simp)
  | some p =>
    obtain ⟨name', mb'⟩ := p
    have hid : mb'.interp.id = mb.interp.id := by simpa using List.find?_some hf
    have hmb' : s'.members[name']? = some mb' :=
      mem_toList_iff_getElem?_eq_some.1 (List.mem_of_find?_eq_some hf)
    have hname := h.distinct ((hat name').symm.trans (at?_of_member hmb')) hi hid
    rw [map_some, hname]

theorem resume_of_some (h : s.members[name]? = some mb) (hm : (s.machine mb).answer? r = some m) :
    ∃ s', resume name r s = .ok (m.run s.patience).interp.status s' ∧ (s.putBack name mb (m.run s.patience)).Same s' := by
  have hrun := run_of_some (member_putBack s name mb m)
  rw [machine_putBack] at hrun
  refine ⟨_, (bind_of_ok (operate_of_ok (a := ()) h ?_)).trans hrun, putBack_putBack s name mb m _⟩
  simp only [bind_apply, get_apply, hm, set_apply]

theorem resume_of_none (h : s.members[name]? = some mb) (hm : (s.machine mb).answer? r = none) :
    resume name r s = .error (.notPending r.id) (s.putBack name mb (s.machine mb)) := by
  refine bind_of_error (operate_of_error h ?_)
  simp only [bind_apply, get_apply, hm, throw_apply]

/-- An answer to an interpreter is refused, and nothing changes, or it is taken and the interpreter runs on. -/
theorem resume_cases (name : Text) (r : Response) (s : Session σ) :
    (∃ f s', resume name r s = .error f s' ∧ s.Same s') ∨ ∃ mb m s', s.members[name]? = some mb ∧
      (s.machine mb).answer? r = some m ∧ resume name r s = .ok (m.run s.patience).interp.status s' ∧
      (s.putBack name mb (m.run s.patience)).Same s' := by
  cases hmb : s.members[name]? with
  | none => exact .inl ⟨_, _, bind_of_error (operate_of_none _ hmb), .refl s⟩
  | some mb =>
    cases hm : (s.machine mb).answer? r with
    | none => exact .inl ⟨_, _, resume_of_none hmb hm, same_putBack hmb⟩
    | some m =>
      obtain ⟨s', hr, hs⟩ := resume_of_some hmb hm
      exact .inr ⟨mb, m, s', rfl, hm, hr, hs⟩

theorem answered_course (hmb : s.members[name]? = some mb) (hm : (s.machine mb).answer? r = some m) :
    ∃ ps : List Request, Course (s.channelAt (mb.key name))
      ((if (s.channelAt (mb.key name)).owner? r.id = none then [] else [.closed r.id]) ++ ps.map .posted)
      (m.run s.patience).channel := by
  have hfirst := Machine.answer?_course hm
  rw [show (s.machine mb).channel = s.channelAt (mb.key name) from channelOf_eq hmb] at hfirst
  obtain ⟨ps, hps⟩ := m.run_course s.patience
  exact ⟨ps, hfirst.trans hps⟩

/-- **The interpreter under a name takes an answer and runs on.** The request is off the channel before the interpreter goes on,
and what happens on the channel then are requests that the interpreter posts; so if the number is outstanding afterwards
the interpreter has itself posted a request under it. -/
structure Answered (key : ChannelKey) (name : Text) (r : Response) (s s' : Session σ) : Prop where
  linked : s'.Linked
  taken : ∃ mb m, s.members[name]? = some mb ∧ mb.key name = key ∧ (s.machine mb).answer? r = some m ∧
    m.channel.owner? r.id = none ∧ (s.putBack name mb (m.run s.patience)).Same s'
  closed : ∃ ps : List Request, Course (s.channelAt key) (.closed r.id :: ps.map .posted) (s'.channelAt key) ∧
    ((∀ p ∈ ps, p.id ≠ r.id) → (s'.channelAt key).owner? r.id = none)
  reissued : ∀ owner, (s'.channelAt key).owner? r.id = some owner →
    ∃ i h, s'.at? name = some (i, key) ∧ i.id = owner ∧ i.status = .held h ∧ h.id = r.id

theorem Answered.of_answer (h : s.Linked) (hmb : s.members[name]? = some mb)
    (hm : (s.machine mb).answer? r = some m) (hs : (s.putBack name mb (m.run s.patience)).Same s') :
    Answered (mb.key name) name r s s' := by
  have hagr := machine_agrees h hmb
  obtain ⟨hold, hst, hid, _⟩ := answer?_spec hm
  have hmine : ∀ id, (s.machine mb).channel.owner? id = some mb.interp.id → id = r.id := by
    intro id ho
    obtain ⟨hold', hst', rfl⟩ := (hagr.waits id).1 ho
    cases hst'.symm.trans hst
    exact hid
  have howner := (hagr.waits r.id).2 ⟨hold, hst, hid⟩
  obtain ⟨ha, hsp, hoff⟩ := answer?_agrees hm hmine fun owner ho => some.inj (ho.symm.trans howner)
  obtain ⟨ha2, hsp2⟩ := m.run_agrees s.patience ha
  have hch : s'.channelAt (mb.key name) = (m.run s.patience).channel := by
    rw [hs.channelAt, channelAt_putBack hmb, if_pos rfl]
  refine ⟨hs.linked ((h.but _).putBack hmb ha2 (hsp.trans hsp2)), ⟨mb, m, hmb, rfl, hm, hoff, hs⟩, ?_, fun owner ho => ?_⟩
  · obtain ⟨ps, hps⟩ := answered_course hmb hm
    rw [← channelOf_eq hmb, show (s.channelOf mb).owner? r.id = _ from howner, if_neg (some_ne_none _)] at hps
    rw [hch, ← channelOf_eq hmb]
    refine ⟨ps, hps, fun hne => hps.free_of_closed fun p hp => ?_⟩
    obtain ⟨q, hq, heq⟩ := List.mem_map.1 hp
    cases heq
    exact hne _ hq
  · rw [hch] at ho
    have hown : owner = m.interp.id := by
      by_contra hne
      cases hoff.symm.trans ((hsp2.others r.id owner hne).1 ho)
    obtain ⟨hold', hst', hid'⟩ := (ha2.waits r.id).1 (ho.trans (by rw [hown, hsp2.id]))
    refine ⟨_, hold', (hs.at? name).trans ?_, hsp2.id.trans hown.symm, hst', hid'⟩
    exact (at?_putBack s name mb _ name).trans (if_pos rfl)

theorem resume_of_held (h : s.Linked) (hmb : s.members[name]? = some mb)
    (hst : mb.interp.status = .held hold) (hid : hold.id = r.id) :
    ∃ st s', resume name r s = .ok st s' ∧ Answered (mb.key name) name r s s' := by
  have hm := answer?_of_held (m := s.machine mb) hst hid
  obtain ⟨s', hr, hs⟩ := resume_of_some hmb hm
  exact ⟨_, s', hr, .of_answer h hmb hm hs⟩

theorem resume_linked (h : s.Linked) (name : Text) (r : Response) : (endState (resume name r s)).Linked := by
  obtain ⟨f, s', hr, hs⟩ | ⟨mb, m, s', hmb, hm, hr, hs⟩ := resume_cases name r s
  · rw [hr]
    exact hs.linked h
  · rw [hr]
    exact (Answered.of_answer h hmb hm hs).linked

theorem waiting_of_owner (h : s.Linked) {id : UInt32} (ho : (s.channelAt key).owner? id = some owner) :
    ∃ (name : Text) (mb : Member σ) (hold : Hold), s.members[name]? = some mb ∧ mb.key name = key ∧ mb.interp.id = owner ∧
      mb.interp.status = .held hold ∧ hold.id = id := by
  obtain ⟨name, i, hat, rfl⟩ := h.owned ho
  obtain ⟨hold, hst, hid⟩ := ((h.agrees hat nofun).waits id).1 ho
  obtain ⟨mb, hmb, rfl, hkey⟩ := member_of_at? hat
  exact ⟨name, mb, hold, hmb, hkey, rfl, hst, hid⟩

theorem deliver_of_none (hkey : keyOf? s ref = some key)
    (ho : (s.channelAt key).owner? r.id = none) : deliver ref r s = .ok false s := by
  have hdel : deliver ref r s = _ := bind_of_ok (channel_of_some hkey)
  rw [ho] at hdel
  exact hdel

theorem setChannel_eq (hkey : keyOf? s ref = some key) (hmb : s.members[name]? = some mb) (hk : mb.key name = key)
    (ch : Channel) : setChannel ref ch s = .ok () (s.setChannelOf name mb ch) := by
  unfold Member.key at hk
  cases ref with
  | named c =>
    cases hkey
    split at hk
    · rename_i hc
      cases hk
      simp only [setChannel, modify_apply, setChannelOf, hc]
    · cases hk
  | usedBy k =>
    obtain ⟨⟨i, key'⟩, hat, rfl⟩ := map_eq_some_iff.1 hkey
    obtain ⟨mb', hmb', _, hk'⟩ := member_of_at? hat
    simp only [setChannel, modify_apply, hmb']
    unfold Member.key at hk'
    unfold setChannelOf
    cases hc : mb.channel <;> cases hc' : mb'.channel <;> simp only [hc, hc'] at hk hk' <;> cases hk.trans hk'.symm
    · cases hmb.symm.trans hmb'
      rfl
    · rfl

/-- **Delivering an answer** lets the interpreter that waits for it take it and run on. -/
theorem deliver_answers (h : s.Linked) (hkey : keyOf? s ref = some key) (ho : (s.channelAt key).owner? r.id = some owner) :
    ∃ name mb m s', s.members[name]? = some mb ∧ mb.key name = key ∧ mb.interp.id = owner ∧
      (s.machine mb).answer? r = some m ∧ deliver ref r s = .ok true s' ∧
      (s.putBack name mb (m.run s.patience)).Same s' := by
  obtain ⟨name, mb, hold, hmb, hk, rfl, hst, hid⟩ := waiting_of_owner h ho
  have hch : (s.machine mb).channel = s.channelAt key := hk ▸ channelOf_eq hmb
  have hdel : deliver ref r s = _ := bind_of_ok (channel_of_some hkey)
  rw [ho] at hdel
  -- First the request is taken off the channel.
  replace hdel := hdel.trans ((bind_of_ok (setChannel_eq hkey hmb hk _)).trans (bind_of_ok (get_apply _)))
  rw [nameOf?_eq h (at?_setChannelOf hmb _) (at?_of_member hmb)] at hdel
  have hsame1 := putBack_channel hmb ((s.channelAt key).withdraw r.id).2
  generalize s.setChannelOf name mb ((s.channelAt key).withdraw r.id).2 = s1 at *
  obtain ⟨m1, hm1⟩ : ∃ m1 : Machine σ, m1 = { s.machine mb with channel := ((s.channelAt key).withdraw r.id).2 } := ⟨_, rfl⟩
  rw [← hm1] at hsame1
  -- Then the interpreter takes the answer, as it would have taken it before, and runs.
  obtain ⟨m, hm⟩ : ∃ m, (s.machine mb).answer? r = some m := ⟨_, answer?_of_held hst hid⟩
  have hans : (s1.machine (mb.back m1)).answer? r = some m := by
    rw [hsame1.machine, machine_putBack, hm1, answer?_of_held hst hid, ← hm,
      answer?_of_held hst hid, hch]
    simp only [Channel.withdraw_withdraw]
  obtain ⟨s', hres, hsame2⟩ := resume_of_some ((hsame1.members name).trans (member_putBack s name mb m1)) hans
  rw [hsame1.patience] at hsame2
  refine ⟨name, mb, m, s', hmb, hk, rfl, hm, hdel.trans (bind_of_ok hres), ?_⟩
  exact (putBack_putBack s name mb m1 _).trans ((hsame1.putBack _).trans hsame2)

theorem deliver_of_some (h : s.Linked)
    (hkey : keyOf? s ref = some key) (ho : (s.channelAt key).owner? r.id = some owner) :
    ∃ name i s', s.at? name = some (i, key) ∧ i.id = owner ∧ deliver ref r s = .ok true s' ∧ Answered key name r s s' := by
  obtain ⟨name, mb, m, s', hmb, rfl, rfl, hm, hd, hs⟩ := deliver_answers h hkey ho
  exact ⟨name, _, s', at?_of_member hmb, rfl, hd, .of_answer h hmb hm hs⟩

structure Sound (r : EStateM.Result SessionFault (Session σ) α) : Prop where
  linked : (endState r).Linked
  fault : ∀ f s', r = .error f s' → f = .noInterpreter

theorem Sound.of_ok {a : α} (h : s.Linked) : Sound (.ok a s) := ⟨h, nofun⟩

theorem Sound.of_error (h : s.Linked) : Sound (.error .noInterpreter s : EStateM.Result _ _ α) :=
  ⟨h, fun _ _ hf => (by cases hf; rfl)⟩

theorem Sound.bind {β : Type} {f : α → Hosting σ β} (hx : Sound (x s))
    (hf : ∀ a s', s'.Linked → Sound (f a s')) : Sound ((x >>= f) s) := by
  cases h : x s with
  | ok a s' =>
    rw [bind_of_ok h]
    exact hf a s' (by simpa only [h, endState] using hx.linked)
  | error e s' =>
    rw [bind_of_error h]
    rw [h] at hx
    refine ⟨hx.linked, fun f s'' hf => hx.fault f s' ?_⟩
    cases hf
    rfl

theorem channel_sound (h : s.Linked) (ref : ChannelRef) : Sound (channel ref s) := by
  cases hkey : keyOf? s ref with
  | none => exact channel_of_none hkey ▸ .of_error h
  | some key => exact channel_of_some hkey ▸ .of_ok h

theorem deliver_sound (h : s.Linked) (ref : ChannelRef) (r : Response) : Sound (deliver ref r s) := by
  cases hkey : keyOf? s ref with
  | none =>
    have hd : deliver ref r s = .error .noInterpreter s := bind_of_error (channel_of_none hkey)
    exact hd ▸ .of_error h
  | some key =>
    cases ho : (s.channelAt key).owner? r.id with
    | none => exact deliver_of_none hkey ho ▸ .of_ok h
    | some owner =>
      obtain ⟨_, _, s', _, _, hd, hs'⟩ := deliver_of_some h hkey ho
      exact hd ▸ .of_ok hs'.linked

theorem cancelAll_sound (h : s.Linked) (ref : ChannelRef) (why : Text) (ids : List UInt32) :
    Sound (cancelAll ref why ids s) := by
  induction ids generalizing s with
  | nil => exact .of_ok h
  | cons id ids ih =>
    exact (deliver_sound h ref _).bind fun _ _ h1 => (ih h1).bind fun _ _ h2 => .of_ok h2

theorem expire_sound (h : s.Linked) (ref : ChannelRef) (now : Nat) : Sound (expire ref now s) :=
  (channel_sound h ref).bind fun _ _ h1 => cancelAll_sound h1 ref _ _

end Hosting

end Rexx
