import Rexx.Proofs.Channel.Outstanding
import Rexx.Proofs.Machine.Tick
import Rexx.Session.Steps

/-!
# `Session.Linked` — a session in which channels and interpreters agree

The requests on the channels of a session and the interpreters that wait are two records of the same thing, kept in
different places.
-/

namespace Rexx

open Channel Member Option

namespace Interpreter

variable {σ : Type} {i : Interpreter σ} {ch : Channel}

structure AgreesWith (i : Interpreter σ) (ch : Channel) : Prop where
  waits : ∀ id, ch.owner? id = some i.id ↔ ∃ h, i.status = .held h ∧ h.id = id
  depth : ∀ h, i.status = .held h → h.depth = i.stack.depth

theorem AgreesWith.of_idle (hst : ∀ h, i.status ≠ .held h) (hch : ∀ id, ch.owner? id ≠ some i.id) : i.AgreesWith ch where
  waits id := ⟨fun h => absurd h (hch id), fun ⟨h, hh, _⟩ => absurd hh (hst h)⟩
  depth h hh := absurd hh (hst h)

theorem AgreesWith.idle (hi : i.AgreesWith ch) (hst : ∀ h, i.status ≠ .held h) (id : UInt32) :
    ch.owner? id ≠ some i.id :=
  fun h => let ⟨hold, hh, _⟩ := (hi.waits id).1 h; hst hold hh

theorem AgreesWith.congr {ch' : Channel} (hi : i.AgreesWith ch)
    (hch : ∀ id, ch'.owner? id = some i.id ↔ ch.owner? id = some i.id) : i.AgreesWith ch' :=
  ⟨fun id => (hch id).trans (hi.waits id), hi.depth⟩

end Interpreter

namespace Machine

variable {σ : Type} {m m' m'' : Machine σ}

abbrev Agrees (m : Machine σ) : Prop := m.interp.AgreesWith m.channel

structure Spares (m m' : Machine σ) : Prop where
  id : m'.interp.id = m.interp.id
  others : ∀ k owner, owner ≠ m.interp.id → (m'.channel.owner? k = some owner ↔ m.channel.owner? k = some owner)

theorem Spares.refl (m : Machine σ) : m.Spares m := ⟨rfl, fun _ _ _ => .rfl⟩

theorem Spares.trans (h : m.Spares m') (h' : m'.Spares m'') : m.Spares m'' where
  id := h'.id.trans h.id
  others k owner ho := (h'.others k owner (h.id ▸ ho)).trans (h.others k owner ho)

theorem Spares.of_eq (hid : m'.interp.id = m.interp.id) (hch : m'.channel = m.channel) : m.Spares m' :=
  ⟨hid, fun _ _ _ => by rw [hch]⟩

/-! ## Ticks and runs -/

theorem agrees_of_hold {site : Site} {c : Checkpoint} (hm : ∀ id, m.channel.owner? id ≠ some m.interp.id)
    (h : m.hold? site c = some m') : m'.Agrees ∧ m.Spares m' := by
  obtain ⟨⟨id, ch⟩, hp, rfl⟩ := map_eq_some_iff.1 h
  obtain ⟨hfree, rfl⟩ := post?_spec hp
  refine ⟨⟨fun k => ?_, ?_⟩, ⟨rfl, fun k owner ho => ?_⟩⟩
  · show (m.channel.issue id _ _ _ c).owner? k = some m.interp.id ↔ _
    rw [owner?_issue]
    constructor
    · intro hk
      split at hk
      · rename_i hid
        exact ⟨_, rfl, hid⟩
      · exact absurd hk (hm k)
    · rintro ⟨hold, hh, rfl⟩
      cases hh
      exact if_pos rfl
  · intro hold hh
    cases hh
    rfl
  · show (m.channel.issue id _ _ _ c).owner? k = some owner ↔ _
    rw [owner?_issue]
    split
    · rename_i hid
      subst hid
      rw [hfree]
      simp [ho.symm]
    · exact .rfl

theorem Goes.agrees (h : m.Goes m') (hm : ∀ id, m.channel.owner? id ≠ some m.interp.id) : m'.Agrees ∧ m.Spares m' := by
  cases h with
  | on hid hch hst _ =>
    refine ⟨.of_idle (fun h => by simp [hst]) fun id => ?_, .of_eq hid hch⟩
    rw [hch, hid]
    exact hm id
  | stops hid hch hst =>
    refine ⟨.of_idle (fun h => by simp [hst]) fun id => ?_, .of_eq hid hch⟩
    rw [hch, hid]
    exact hm id
  | @holds m0 site c hs hh =>
    have hm0 : ∀ id, m0.channel.owner? id ≠ some m0.interp.id := fun id => by rw [hs.channel, hs.id]; exact hm id
    obtain ⟨ha, hsp⟩ := agrees_of_hold hm0 hh
    exact ⟨ha, (Spares.of_eq hs.id hs.channel).trans hsp⟩

theorem run_agrees (n : Nat) (hm : m.Agrees) : (run n m).Agrees ∧ m.Spares (run n m) := by
  induction n generalizing m with
  | zero => exact ⟨hm, .refl m⟩
  | succ n ih =>
    unfold run
    split
    · rename_i hrun
      obtain ⟨ha, hs⟩ := (tick_goes hrun).agrees (hm.idle fun h => by simp [hrun])
      obtain ⟨ha', hs'⟩ := ih ha
      exact ⟨ha', hs.trans hs'⟩
    · exact ⟨hm, .refl m⟩

/-! ## Beginning and answering -/

theorem begin_agrees (p : Program) (args : Args) (hm : m.Agrees) : (m.begin p args).Agrees ∧ m.Spares (m.begin p args) ∧
      ∀ id, (m.begin p args).channel.owner? id ≠ some m.interp.id := by
  have hnone : ∀ id, (m.begin p args).channel.owner? id ≠ some m.interp.id := by
    intro id
    unfold begin
    split
    · rw [owner?_forget]
      split
      · simp
      · assumption
    · rename_i hst
      exact hm.idle hst id
  refine ⟨.of_idle (fun h => ?_) hnone, ⟨rfl, fun k owner ho => ?_⟩, hnone⟩
  · show Status.running ≠ .held h
    simp
  · unfold begin
    split
    · rw [owner?_forget]
      split
      · rename_i hk
        rw [hk]
        simp [ho.symm]
      · exact .rfl
    · exact .rfl

theorem answer?_agrees {r : Response} (hm : m.answer? r = some m')
    (hothers : ∀ id, m.channel.owner? id = some m.interp.id → id = r.id)
    (hmine : ∀ owner, m.channel.owner? r.id = some owner → owner = m.interp.id) :
    m'.Agrees ∧ m.Spares m' ∧ m'.channel.owner? r.id = none := by
  obtain ⟨hold, hst, hid, rfl⟩ := answer?_spec hm
  refine ⟨.of_idle (fun h => by simp) fun id => ?_, ⟨rfl, fun k owner ho => ?_⟩, ?_⟩
  · show (m.channel.withdraw r.id).2.owner? id ≠ some m.interp.id
    rw [owner?_withdraw]
    split
    · simp
    · rename_i hne
      exact fun hk => hne (hothers id hk).symm
  · show (m.channel.withdraw r.id).2.owner? k = some owner ↔ _
    rw [owner?_withdraw]
    split
    · rename_i hk
      subst hk
      exact ⟨fun h => (by cases h), fun h => absurd (hmine owner h) ho⟩
    · exact .rfl
  · show (m.channel.withdraw r.id).2.owner? r.id = none
    rw [owner?_withdraw, if_pos rfl]

end Machine

/-! ## Views of a session -/

/-- What tells channels of a session apart. -/
inductive ChannelKey where
  | named (name : Text)
  | own (interpreter : Text)
deriving DecidableEq, Repr

def Member.key {σ : Type} (mb : Member σ) (name : Text) : ChannelKey :=
  match mb.channel with
  | some c => .named c
  | none => .own name

def Member.back {σ : Type} (mb : Member σ) (m : Machine σ) : Member σ :=
  { mb with
    interp := m.interp
    ownChannel := if mb.channel.isNone then m.channel else mb.ownChannel
    ownTargets := if mb.registry.isNone then m.targets else mb.ownTargets }

namespace Session

variable {σ : Type} {s s' s'' : Session σ} {name : Text} {mb : Member σ} {m : Machine σ}
  {i : Interpreter σ} {key : ChannelKey}

def channelAt (s : Session σ) : ChannelKey → Channel
  | .named c => s.channelNamed c
  | .own name => (s.members[name]?.map Member.ownChannel).getD .empty

def at? (s : Session σ) (name : Text) : Option (Interpreter σ × ChannelKey) :=
  s.members[name]?.map fun mb => (mb.interp, mb.key name)

theorem at?_of_member (h : s.members[name]? = some mb) : s.at? name = some (mb.interp, mb.key name) := by
  rw [at?, h]
  rfl

theorem member_of_at? (h : s.at? name = some (i, key)) :
    ∃ mb, s.members[name]? = some mb ∧ mb.interp = i ∧ mb.key name = key := by
  obtain ⟨mb, hmb, heq⟩ := map_eq_some_iff.1 h
  cases heq
  exact ⟨mb, hmb, rfl, rfl⟩

theorem channelNamed_insert (s : Session σ) (c c' : Text) (ch : Channel) :
    ({ s with channels := s.channels.insert c ch } : Session σ).channelNamed c' =
      if c = c' then ch else s.channelNamed c' := by
  unfold channelNamed
  rw [Std.TreeMap.getD_insert]
  simp only [Std.LawfulEqCmp.compare_eq_iff_eq]

theorem channelOf_eq (h : s.members[name]? = some mb) : s.channelOf mb = s.channelAt (mb.key name) := by
  unfold channelOf key
  cases mb.channel with
  | some c => rfl
  | none => simp [channelAt, h]

/-! ### An interpreter is put back -/

theorem members_putBack (s : Session σ) (name : Text) (mb : Member σ) (m : Machine σ) (k : Text) :
    (s.putBack name mb m).members[k]? = if name = k then some (mb.back m) else s.members[k]? :=
  Table.getElem?_insert s.members name k (mb.back m)

theorem member_putBack (s : Session σ) (name : Text) (mb : Member σ) (m : Machine σ) :
    (s.putBack name mb m).members[name]? = some (mb.back m) :=
  (members_putBack s name mb m name).trans (if_pos rfl)

theorem channelNamed_putBack (s : Session σ) (name : Text) (mb : Member σ) (m : Machine σ) (c : Text) :
    (s.putBack name mb m).channelNamed c = if mb.channel = some c then m.channel else s.channelNamed c := by
  cases hc : mb.channel with
  | none => simp [putBack, hc, channelNamed]
  | some c' =>
    simp only [putBack, hc, some.injEq]
    exact channelNamed_insert s c' c m.channel

theorem registryNamed_putBack (s : Session σ) (name : Text) (mb : Member σ) (m : Machine σ) (r : Text) :
    (s.putBack name mb m).registryNamed r = if mb.registry = some r then m.targets else s.registryNamed r := by
  cases hr : mb.registry with
  | none => simp [putBack, hr, registryNamed]
  | some r' =>
    simp only [putBack, hr, some.injEq, registryNamed, Std.TreeMap.getD_insert, Std.LawfulEqCmp.compare_eq_iff_eq]

theorem at?_putBack (s : Session σ) (name : Text) (mb : Member σ) (m : Machine σ) (k : Text) :
    (s.putBack name mb m).at? k = if name = k then some (m.interp, mb.key name) else s.at? k := by
  unfold at?
  rw [members_putBack]
  split
  · rename_i hk
    exact hk ▸ rfl
  · rfl

theorem channelAt_putBack (h : s.members[name]? = some mb) (m : Machine σ) (key : ChannelKey) :
    (s.putBack name mb m).channelAt key = if mb.key name = key then m.channel else s.channelAt key := by
  unfold Member.key
  cases key with
  | named c =>
    refine (channelNamed_putBack s name mb m c).trans ?_
    cases mb.channel <;> simp [channelAt]
  | own k =>
    simp only [channelAt, members_putBack]
    by_cases hk : name = k
    · subst hk
      cases hc : mb.channel <;> simp [back, hc, h]
    · cases mb.channel <;> simp [hk]

theorem machine_putBack (s : Session σ) (name : Text) (mb : Member σ) (m : Machine σ) :
    (s.putBack name mb m).machine (mb.back m) = m := by
  have hch : (s.putBack name mb m).channelOf (mb.back m) = m.channel := by
    unfold channelOf
    simp only [channelNamed_putBack, back]
    cases mb.channel <;> simp
  have htg : (s.putBack name mb m).targetsOf (mb.back m) = m.targets := by
    unfold targetsOf
    simp only [registryNamed_putBack, back]
    cases mb.registry <;> simp
  unfold machine
  rw [hch, htg]
  rfl

/-! ### Sessions that look alike -/

/-- Nothing has changed that can be looked up in a session. -/
structure Same (s s' : Session σ) : Prop where
  members : ∀ k : Text, s'.members[k]? = s.members[k]?
  channels : ∀ c, s'.channelNamed c = s.channelNamed c
  registries : ∀ r, s'.registryNamed r = s.registryNamed r
  nextId : s'.nextId = s.nextId
  patience : s'.patience = s.patience
  around : s'.around = s.around
  host : s'.host = s.host

theorem Same.refl (s : Session σ) : s.Same s := ⟨fun _ => rfl, fun _ => rfl, fun _ => rfl, rfl, rfl, rfl, rfl⟩

theorem Same.trans (h : s.Same s') (h' : s'.Same s'') : s.Same s'' where
  members k := (h'.members k).trans (h.members k)
  channels c := (h'.channels c).trans (h.channels c)
  registries r := (h'.registries r).trans (h.registries r)
  nextId := h'.nextId.trans h.nextId
  patience := h'.patience.trans h.patience
  around := h'.around.trans h.around
  host := h'.host.trans h.host

theorem Same.at? (h : s.Same s') (k : Text) : s'.at? k = s.at? k := by
  unfold Session.at?
  rw [h.members]

theorem Same.machine (h : s.Same s') (mb : Member σ) : s'.machine mb = s.machine mb := by
  unfold Session.machine targetsOf channelOf
  simp only [h.channels, h.registries, h.around, h.host]

theorem Same.channelAt (h : s.Same s') (key : ChannelKey) : s'.channelAt key = s.channelAt key := by
  cases key with
  | named c => exact h.channels c
  | own k => simp only [Session.channelAt, h.members]

theorem Same.putBack (h : s.Same s') (m : Machine σ) : (s.putBack name mb m).Same (s'.putBack name mb m) where
  members k := by rw [members_putBack, members_putBack, h.members]
  channels c := by rw [channelNamed_putBack, channelNamed_putBack, h.channels]
  registries r := by rw [registryNamed_putBack, registryNamed_putBack, h.registries]
  nextId := h.nextId
  patience := h.patience
  around := rfl
  host := rfl

theorem putBack_putBack (s : Session σ) (name : Text) (mb : Member σ) (m m' : Machine σ) :
    (s.putBack name mb m').Same ((s.putBack name mb m).putBack name (mb.back m) m') where
  members k := by
    have hback : (mb.back m).back m' = mb.back m' := by
      unfold back
      cases mb.channel <;> cases mb.registry <;> rfl
    rw [members_putBack, members_putBack, members_putBack, hback]
    split <;> rfl
  channels c := by
    rw [channelNamed_putBack, channelNamed_putBack, channelNamed_putBack]
    show (if mb.channel = some c then _ else _) = _
    split <;> rfl
  registries r := by
    rw [registryNamed_putBack, registryNamed_putBack, registryNamed_putBack]
    show (if mb.registry = some r then _ else _) = _
    split <;> rfl
  nextId := rfl
  patience := rfl
  around := rfl
  host := rfl

/-- To put back an interpreter with another channel is to replace its channel. -/
theorem putBack_channel (h : s.members[name]? = some mb) (ch : Channel) :
    (s.putBack name mb { s.machine mb with channel := ch }).Same (s.setChannelOf name mb ch) := by
  refine ⟨fun k => ?_, fun c => ?_, fun r => ?_, ?_, ?_, ?_, ?_⟩
  · rw [members_putBack]
    obtain ⟨interp, ownChannel, ownTargets, channel, registry⟩ := mb
    cases channel with
    | none =>
      refine (Table.getElem?_insert s.members name k _).trans ?_
      cases registry <;> rfl
    | some c =>
      refine (show s.members[k]? = if name = k then some _ else s.members[k]? from ?_)
      split
      · rename_i hk
        rw [← hk, h]
        cases registry <;> rfl
      · rfl
  · rw [channelNamed_putBack]
    unfold setChannelOf
    cases mb.channel with
    | none => simp [channelNamed]
    | some c' => simp only [channelNamed_insert, some.injEq]
  · rw [registryNamed_putBack]
    have hr : (s.setChannelOf name mb ch).registryNamed r = s.registryNamed r := by
      unfold setChannelOf
      cases mb.channel <;> rfl
    rw [hr]
    split
    · rename_i hreg
      simp only [machine, targetsOf, hreg]
    · rfl
  all_goals
    unfold setChannelOf
    cases mb.channel <;> rfl

theorem at?_setChannelOf (h : s.members[name]? = some mb) (ch : Channel) (k : Text) :
    (s.setChannelOf name mb ch).at? k = s.at? k := by
  rw [(putBack_channel h ch).at?, at?_putBack]
  split
  · rename_i hk
    exact hk ▸ (at?_of_member h).symm
  · rfl

theorem channelAt_setChannelOf (h : s.members[name]? = some mb) (ch : Channel) (key : ChannelKey) :
    (s.setChannelOf name mb ch).channelAt key = if mb.key name = key then ch else s.channelAt key := by
  rw [(putBack_channel h ch).channelAt, channelAt_putBack h]

theorem same_putBack (h : s.members[name]? = some mb) : s.Same (s.putBack name mb (s.machine mb)) where
  members k := by
    have hback : mb.back (s.machine mb) = mb := by
      obtain ⟨interp, ownChannel, ownTargets, channel, registry⟩ := mb
      cases channel <;> cases registry <;> rfl
    rw [members_putBack, hback]
    split
    · rename_i hk
      rw [← hk, h]
    · rfl
  channels c := by
    rw [channelNamed_putBack]
    split
    · rename_i hc
      simp only [machine, channelOf, hc]
    · rfl
  registries r := by
    rw [registryNamed_putBack]
    split
    · rename_i hr
      simp only [machine, targetsOf, hr]
    · rfl
  nextId := rfl
  patience := rfl
  around := rfl
  host := rfl

/-! ## The agreement -/

structure LinkedBut (s : Session σ) (except : Option Text) : Prop where
  distinct : ∀ {k k' i i' key key'}, s.at? k = some (i, key) → s.at? k' = some (i', key') → i.id = i'.id → k = k'
  fresh : ∀ {k i key}, s.at? k = some (i, key) → i.id < s.nextId
  agrees : ∀ {k i key}, s.at? k = some (i, key) → some k ≠ except → i.AgreesWith (s.channelAt key)
  owned : ∀ {key id owner}, (s.channelAt key).owner? id = some owner → ∃ k i, s.at? k = some (i, key) ∧ i.id = owner

abbrev Linked (s : Session σ) : Prop := s.LinkedBut none

theorem Linked.but (h : s.Linked) (except : Option Text) : s.LinkedBut except :=
  { h with agrees := fun hk _ => h.agrees hk nofun }

theorem LinkedBut.key_eq {except : Option Text} {key' : ChannelKey} {id : UInt32}
    (h : s.LinkedBut except) (hi : s.at? name = some (i, key)) (ho : (s.channelAt key').owner? id = some i.id) :
    key' = key := by
  obtain ⟨k, i', hki, hio⟩ := h.owned ho
  cases h.distinct hki hi hio
  rw [hki] at hi
  cases hi
  rfl

theorem LinkedBut.putBack (h : s.LinkedBut (some name)) (hmb : s.members[name]? = some mb) (ha : m.Agrees)
    (hsp : (s.machine mb).Spares m) : (s.putBack name mb m).Linked := by
  have hat : s.at? name = some (mb.interp, mb.key name) := at?_of_member hmb
  have hid : m.interp.id = mb.interp.id := hsp.id
  have hch : s.channelOf mb = s.channelAt (mb.key name) := channelOf_eq hmb
  -- The requests of other interpreters on the channel are the same as before.
  have hothers : ∀ k owner, owner ≠ mb.interp.id →
      (m.channel.owner? k = some owner ↔ (s.channelAt (mb.key name)).owner? k = some owner) := by
    intro k owner ho
    rw [← hch]
    exact hsp.others k owner ho
  have hother : ∀ {k i key}, (s.putBack name mb m).at? k = some (i, key) → k ≠ name → s.at? k = some (i, key) := by
    intro k i key hk hne
    rwa [at?_putBack, if_neg (Ne.symm hne)] at hk
  have hself : ∀ {i key}, (s.putBack name mb m).at? name = some (i, key) → i = m.interp ∧ key = mb.key name := by
    intro i key hk
    rw [at?_putBack, if_pos rfl] at hk
    cases hk
    exact ⟨rfl, rfl⟩
  have hown : ∀ {k i key}, (s.putBack name mb m).at? k = some (i, key) →
      ∃ i0, s.at? k = some (i0, key) ∧ i0.id = i.id := by
    intro k i key hk
    by_cases hn : k = name
    · subst hn
      obtain ⟨rfl, rfl⟩ := hself hk
      exact ⟨_, hat, hid.symm⟩
    · exact ⟨i, hother hk hn, rfl⟩
  refine ⟨fun hk hk' hid => ?_, fun hk => ?_, fun {k i key} hk _ => ?_, fun {key id owner} hk => ?_⟩
  · obtain ⟨i0, h0, e0⟩ := hown hk
    obtain ⟨i1, h1, e1⟩ := hown hk'
    exact h.distinct h0 h1 (e0.trans (hid.trans e1.symm))
  · obtain ⟨i0, h0, e0⟩ := hown hk
    exact e0 ▸ h.fresh h0
  · rw [channelAt_putBack hmb]
    by_cases hn : k = name
    · subst hn
      obtain ⟨rfl, rfl⟩ := hself hk
      rw [if_pos rfl]
      exact ha
    · have hk0 := hother hk hn
      have hagr := h.agrees hk0 (by simpa using hn)
      split
      · rename_i hkey
        refine hagr.congr fun id => ?_
        rw [hothers id i.id fun heq => hn (h.distinct hk0 hat heq), hkey]
      · exact hagr
  · rw [channelAt_putBack hmb] at hk
    split at hk
    · rename_i hkey
      by_cases ho : owner = mb.interp.id
      · exact ⟨name, m.interp, by rw [at?_putBack, if_pos rfl, hkey], hid.trans ho.symm⟩
      · obtain ⟨k, i, hki, hio⟩ := h.owned ((hothers id owner ho).1 hk)
        have hne : name ≠ k := by
          rintro rfl
          rw [hat] at hki
          cases hki
          exact ho hio.symm
        exact ⟨k, i, by rw [at?_putBack, if_neg hne, hki, hkey], hio⟩
    · rename_i hkey
      obtain ⟨k, i, hki, hio⟩ := h.owned hk
      have hne : name ≠ k := by
        rintro rfl
        rw [hat] at hki
        cases hki
        exact hkey rfl
      exact ⟨k, i, by rw [at?_putBack, if_neg hne, hki], hio⟩

/-! ### Channels that are changed alone -/

theorem LinkedBut.congr {except : Option Text} (h : s.LinkedBut except) (hat : ∀ k, s'.at? k = s.at? k)
    (hnext : s'.nextId = s.nextId) (hch : ∀ key id, (s'.channelAt key).owner? id = (s.channelAt key).owner? id) :
    s'.LinkedBut except where
  distinct hk hk' := h.distinct ((hat _).symm.trans hk) ((hat _).symm.trans hk')
  fresh hk := hnext ▸ h.fresh ((hat _).symm.trans hk)
  agrees hk hne := (h.agrees ((hat _).symm.trans hk) hne).congr fun id => by rw [hch]
  owned hk := by
    rw [hch] at hk
    obtain ⟨k, i, hki, hio⟩ := h.owned hk
    exact ⟨k, i, (hat k).trans hki, hio⟩

theorem Same.linked (h : s.Same s') (hs : s.Linked) : s'.Linked :=
  hs.congr h.at? h.nextId fun key id => by rw [h.channelAt]

/-! ### Interpreters that come and go -/

theorem Linked.erase (h : s.Linked) (hi : s.at? name = some (i, key))
    (hat : ∀ k, s'.at? k = if name = k then none else s.at? k) (hnext : s'.nextId = s.nextId)
    (hch : ∀ key id owner, (s'.channelAt key).owner? id = some owner ↔
      (s.channelAt key).owner? id = some owner ∧ owner ≠ i.id) : s'.Linked where
  distinct hk hk' := by
    rw [hat] at hk hk'
    split at hk
    · cases hk
    · split at hk'
      · cases hk'
      · exact h.distinct hk hk'
  fresh hk := by
    rw [hat] at hk
    split at hk
    · cases hk
    · exact hnext ▸ h.fresh hk
  agrees {k i' key'} hk _ := by
    rw [hat] at hk
    split at hk
    · cases hk
    · rename_i hne
      refine (h.agrees hk nofun).congr fun id => ?_
      rw [hch]
      exact and_iff_left fun heq => hne (h.distinct hi hk heq.symm)
  owned {key' id owner} hk := by
    obtain ⟨hk0, ho⟩ := (hch key' id owner).1 hk
    obtain ⟨k, i', hki, hio⟩ := h.owned hk0
    have hne : name ≠ k := by
      rintro rfl
      rw [hi] at hki
      cases hki
      exact ho hio.symm
    exact ⟨k, i', by rw [hat, if_neg hne, hki], hio⟩

theorem Linked.insert (key : ChannelKey) (h : s.Linked) (hnone : s.at? name = none)
    (hid : i.id = s.nextId) (hst : ∀ hold, i.status ≠ .held hold)
    (hat : ∀ k, s'.at? k = if name = k then some (i, key) else s.at? k) (hnext : s'.nextId = s.nextId + 1)
    (hch : ∀ key id, (s'.channelAt key).owner? id = (s.channelAt key).owner? id) : s'.Linked := by
  -- No request is outstanding for the new identity.
  have hnew : ∀ key id, (s.channelAt key).owner? id ≠ some i.id := by
    intro key id hk
    obtain ⟨k, i', hki, hio⟩ := h.owned hk
    exact absurd (h.fresh hki) (by omega)
  have hold : ∀ {k i' key'}, s'.at? k = some (i', key') → (k = name ∧ i' = i) ∨ k ≠ name ∧ s.at? k = some (i', key') := by
    intro k i' key' hk
    rw [hat] at hk
    split at hk
    · rename_i hn
      cases hk
      exact .inl ⟨hn.symm, rfl⟩
    · rename_i hn
      exact .inr ⟨Ne.symm hn, hk⟩
  refine ⟨fun {k k' i1 i2 _ _} hk hk' heq => ?_, fun hk => ?_, fun {k i' key'} hk _ => ?_, fun {key' id owner} hk => ?_⟩
  · obtain ⟨rfl, rfl⟩ | ⟨_, hk0⟩ := hold hk
    · obtain ⟨rfl, _⟩ | ⟨_, hk1⟩ := hold hk'
      · rfl
      · exact absurd (h.fresh hk1) (by omega)
    · obtain ⟨rfl, rfl⟩ | ⟨_, hk1⟩ := hold hk'
      · exact absurd (h.fresh hk0) (by omega)
      · exact h.distinct hk0 hk1 heq
  · obtain ⟨rfl, rfl⟩ | ⟨_, hk0⟩ := hold hk
    · omega
    · have := h.fresh hk0
      omega
  · obtain ⟨rfl, rfl⟩ | ⟨_, hk0⟩ := hold hk
    · exact .of_idle hst fun id => by rw [hch]; exact hnew key' id
    · exact (h.agrees hk0 nofun).congr fun id => by rw [hch]
  · rw [hch] at hk
    obtain ⟨k, i', hki, hio⟩ := h.owned hk
    have hne : name ≠ k := by
      rintro rfl
      rw [hnone] at hki
      cases hki
    exact ⟨k, i', by rw [hat, if_neg hne, hki], hio⟩

end Session

end Rexx
