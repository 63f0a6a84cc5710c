import Rexx.Proofs.Grammar.Reading
import Rexx.Proofs.Isolation.Routines

/-!
# `Place.Soundness` — runs stay within their texts

In every state that a run can come to, each cursor is at a place of a block of the program or of a fragment that is
still listed.
-/

namespace Rexx

open Interpreter List Option

/-! ## Blocks, cursors and frames -/

/-- The blocks of a list of statements: the list itself, and the lists that statements of its blocks hold. -/
inductive Within (body : List Stmt) : List Stmt → Prop where
  | self : Within body body
  | inner {b b' : List Stmt} {s : Stmt} (outer : Within body b) (stmt : s ∈ b) (block : b' ∈ s.blocks) : Within body b'

structure Cursor.Sound (text : Option Nat → Program) (ids : List Nat) (c : Cursor) : Prop where
  within : Within (text c.unit).body c.block
  bound : c.pc ≤ c.block.length
  listed : ∀ id, c.unit = some id → id ∈ ids

inductive Grounded (p : Program) : List Cursor → Prop where
  | base {c : Cursor} (block : c.block = p.body) (unit : c.unit = none) (loop : c.loop = none) : Grounded p [c]
  | cons (c : Cursor) {cs : List Cursor} (below : Grounded p cs) : Grounded p (c :: cs)

namespace Grounded

variable {p : Program} {c c' : Cursor} {cs below : List Cursor}

theorem tail (h : Grounded p (c :: c' :: cs)) : Grounded p (c' :: cs) := by
  cases h with
  | cons _ h => exact h

theorem below_loop {l : LoopState} (above : List Cursor) (h : Grounded p (above ++ c :: below)) (hl : c.loop = some l) :
    Grounded p below := by
  induction above with
  | nil =>
    cases h with
    | base _ _ hnone =>
      rw [hl] at hnone
      cases hnone
    | cons _ h => exact h
  | cons a above ih =>
    cases h' : above ++ c :: below with
    | nil => simp at h'
    | cons d ds =>
      rw [cons_append, h'] at h
      rw [h'] at ih
      exact ih h.tail

theorem next (h : Grounded p (c :: cs)) : Grounded p (c.next :: cs) := by
  cases h with
  | base hb hu hl => exact .base hb hu hl
  | cons _ h => exact .cons _ h

theorem getLast? (h : Grounded p cs) : ∃ c, cs.getLast? = some c ∧ c.block = p.body ∧ c.unit = none := by
  induction h with
  | base hb hu _ => exact ⟨_, rfl, hb, hu⟩
  | @cons c cs h ih =>
    obtain ⟨d, hd, hrest⟩ := ih
    refine ⟨d, ?_, hrest⟩
    rw [getLast?_cons, hd]
    rfl

end Grounded

/-! ## The invariant -/

def Place.ids (π : Place) : List Nat := π.fragments.map Fragment.id

/-- **A run is within its texts**, where `text` tells the text of each fragment and of the program. -/
structure Place.Sound (text : Option Nat → Program) (π : Place) : Prop where
  main : text none = π.program
  read : ∀ f ∈ π.fragments, ∃ source name : Text, Program.parse source name = .ok (text (some f.id)) ∧
    (text (some f.id)).lines = f.lines
  labels : ∀ (label : Text) (k : Nat), π.program.labels[label]? = some k → k < π.program.body.length
  depth : π.callers.length < maxDepth
  distinct : π.ids.Nodup
  fresh : ∀ id ∈ π.ids, id < π.nextFragment
  cursors : ∀ cs ∈ π.top :: π.callers, ∀ c ∈ cs, c.Sound text π.ids
  grounded : π.status ≠ .stopped → ∀ cs ∈ π.top :: π.callers, Grounded π.program cs

namespace Place

variable {text : Option Nat → Program} {π π' : Place} {c : Cursor} {cs : List Cursor} {s : Stmt}

variable (h : π.Sound text)

include h

theorem Sound.move (hcursors : ∀ c ∈ cs, c.Sound text π.ids)
    (hgrounded : Grounded π.program π.top → Grounded π.program cs) : Sound text { π with top := cs } where
  main := h.main
  read := h.read
  labels := h.labels
  depth := h.depth
  distinct := h.distinct
  fresh := h.fresh
  cursors ds hds := by
    obtain rfl | hds := mem_cons.1 hds
    · exact hcursors
    · exact h.cursors ds (mem_cons_of_mem _ hds)
  grounded hst ds hds := by
    obtain rfl | hds := mem_cons.1 hds
    · exact hgrounded (h.grounded hst _ mem_cons_self)
    · exact h.grounded hst ds (mem_cons_of_mem _ hds)

theorem Sound.top : ∀ c ∈ π.top, c.Sound text π.ids := h.cursors _ mem_cons_self

theorem Sound.next (hat : π.At c cs s) : c.next.Sound text π.ids := by
  have hc := h.top c (hat.top ▸ mem_cons_self)
  obtain ⟨hlt, _⟩ := List.getElem?_eq_some_iff.1 hat.stmt
  exact ⟨hc.within, hlt, hc.listed⟩

theorem Sound.label {label : Text} {k : Nat} (hl : π.program.labels[label]? = some k) :
    (Cursor.at π.program.body (k + 1) none).Sound text π.ids := by
  refine ⟨?_, h.labels label k hl, nofun⟩
  show Within (text none).body π.program.body
  rw [h.main]
  exact .self

theorem Sound.stopped : Sound text { π with status := .stopped, top := [], callers := [] } where
  main := h.main
  read := h.read
  labels := h.labels
  depth := Nat.lt_of_le_of_lt (Nat.zero_le _) h.depth
  distinct := h.distinct
  fresh := h.fresh
  cursors cs hcs := by
    rw [mem_singleton.1 hcs]
    exact nofun
  grounded hst := absurd rfl hst

theorem Sound.rewound (hmem : c ∈ π.top) {pc : Nat} (hpc : pc ≤ c.pc) (loop : Option LoopState) :
    Cursor.Sound text π.ids { c with pc := pc, loop := loop } := by
  have hc := h.top c hmem
  exact ⟨hc.within, hpc.trans hc.bound, hc.listed⟩

/-! ### INTERPRET -/

theorem Sound.mem_live {ds : List Cursor} (hds : ds ∈ π.top :: π.callers) (hc : c ∈ ds) {id : Nat}
    (hid : c.unit = some id) : id ∈ π.live.map Fragment.id := by
  obtain ⟨f, hf, rfl⟩ := mem_map.1 ((h.cursors ds hds c hc).listed id hid)
  refine mem_map.2 ⟨f, mem_filter.2 ⟨hf, ?_⟩, rfl⟩
  exact contains_iff_mem.2 (mem_flatMap.2 ⟨ds, hds, mem_filterMap.2 ⟨c, hc, hid⟩⟩)

theorem Sound.adopts : (π.live.map Fragment.id ++ [π.nextFragment]).Nodup ∧
      ∀ id ∈ π.live.map Fragment.id ++ [π.nextFragment], id < π.nextFragment + 1 := by
  have hsub : (π.live.map Fragment.id).Sublist π.ids := List.filter_sublist.map _
  have hlt : ∀ id ∈ π.live.map Fragment.id, id < π.nextFragment := fun id hid => h.fresh id (hsub.subset hid)
  constructor
  · refine List.nodup_append.2 ⟨h.distinct.sublist hsub, List.nodup_singleton _, fun a ha b hb => ?_⟩
    have := hlt a ha
    rw [List.mem_singleton.1 hb]
    omega
  · intro id hid
    obtain hid | hid := List.mem_append.1 hid
    · exact Nat.lt_succ_of_lt (hlt id hid)
    · rw [List.mem_singleton.1 hid]
      exact Nat.lt_succ_self _

theorem Sound.kept {ds : List Cursor} (hds : ds ∈ π.top :: π.callers) (hc : c ∈ ds) (p : Program) :
    c.Sound (Function.update text (some π.nextFragment) p) (π.live.map Fragment.id ++ [π.nextFragment]) := by
  have hsound := h.cursors ds hds c hc
  have hunit : c.unit ≠ some π.nextFragment := by
    intro hu
    exact Nat.lt_irrefl _ (h.fresh _ (hsound.listed _ hu))
  refine ⟨?_, hsound.bound, fun id hid => List.mem_append_left _ (h.mem_live hds hc hid)⟩
  rw [Function.update_of_ne hunit]
  exact hsound.within

theorem Sound.interprets (hi : π.Interprets π') : ∃ text', π'.Sound text' := by
  cases hi with
  | @read c cs s source name p hat hp line =>
    have hids : (π.live ++ [(⟨π.nextFragment, line, p.lines⟩ : Fragment)]).map Fragment.id =
        π.live.map Fragment.id ++ [π.nextFragment] := List.map_append
    have hadopts := h.adopts
    rw [← hids] at hadopts
    have hnext : c.next.Sound (Function.update text (some π.nextFragment) p)
        (π.live.map Fragment.id ++ [π.nextFragment]) := by
      have hc := h.kept List.mem_cons_self (hat.top ▸ List.mem_cons_self) p
      exact ⟨hc.within, (h.next hat).bound, hc.listed⟩
    refine ⟨Function.update text (some π.nextFragment) p, ?_, fun f hf => ?_, h.labels, h.depth, hadopts.1, hadopts.2,
      fun ds hds => ?_, fun hst ds hds => ?_⟩
    · rw [Function.update_of_ne (Option.some_ne_none _).symm]
      exact h.main
    · obtain hf | hf := List.mem_append.1 hf
      · have hmem := (List.mem_filter.1 hf).1
        have hlt := h.fresh f.id (List.mem_map_of_mem hmem)
        rw [Function.update_of_ne fun he => Nat.ne_of_lt hlt (Option.some.inj he)]
        exact h.read f hmem
      · rw [List.mem_singleton.1 hf, Function.update_self]
        exact ⟨source, name, hp, rfl⟩
    · unfold Place.ids
      rw [hids]
      obtain rfl | hds := List.mem_cons.1 hds
      · intro d hd
        obtain hd | hd := List.mem_append.1 hd
        · -- The cursor at the start of the new fragment.
          split at hd
          · cases hd
          · rw [List.mem_singleton.1 hd]
            refine ⟨?_, Nat.zero_le _, fun id hid => ?_⟩
            · show Within (Function.update text (some π.nextFragment) p (some π.nextFragment)).body p.body
              rw [Function.update_self]
              exact .self
            · cases hid
              exact List.mem_append_right _ List.mem_cons_self
        · obtain rfl | hd := List.mem_cons.1 hd
          · exact hnext
          · exact h.kept List.mem_cons_self (hat.top ▸ List.mem_cons_of_mem _ hd) p
      · exact fun d hd => h.kept (List.mem_cons_of_mem _ hds) hd p
    · obtain rfl | hds := List.mem_cons.1 hds
      · have hg := h.grounded hst π.top List.mem_cons_self
        rw [hat.top] at hg
        split
        · exact hg.next
        · exact .cons _ hg.next
      · exact h.grounded hst ds (List.mem_cons_of_mem _ hds)

omit h in
theorem units_interprets (hat : π.At c cs s) (p : Program) (fragments : List Fragment) (nextFragment : Nat) :
    units { π with
      fragments := fragments
      nextFragment := nextFragment
      top := (if p.body.isEmpty then [] else [.at p.body 0 (some π.nextFragment)]) ++ c.next :: cs } =
      (if p.body.isEmpty then [] else [π.nextFragment]) ++ π.units := by
  unfold units
  rw [hat.top]
  cases p.body.isEmpty <;> simp [Cursor.at, Cursor.next, filterMap_cons]

theorem Sound.swept (hi : π.Interprets π') : ∃ new : Fragment, new.id ∉ π.ids ∧
      (∀ f, f ∈ π'.fragments ↔ f ∈ π.fragments ∧ f.id ∈ π'.units ∨ f = new) ∧
      π'.fragments.length ≤ π'.units.toFinset.card + 1 := by
  cases hi with
  | @read c cs s source name p hat hp line =>
    rw [units_interprets hat p]
    refine ⟨⟨π.nextFragment, line, p.lines⟩, fun hmem => Nat.lt_irrefl _ (h.fresh _ hmem), fun f => ?_, ?_⟩
    · have hlive : f ∈ π.live ↔ f ∈ π.fragments ∧ f.id ∈ π.units := by
        unfold live
        rw [mem_filter, contains_iff_mem]
      rw [mem_append, mem_singleton, hlive]
      refine or_congr_left (and_congr_right fun hf => ?_)
      -- A fragment that was there before is not the new one.
      have hne := Nat.ne_of_lt (h.fresh f.id (mem_map_of_mem hf))
      split <;> simp [hne]
    · have hsub : (π.live.map Fragment.id).Sublist π.ids := filter_sublist.map _
      have hcard : π.live.length = (π.live.map Fragment.id).toFinset.card := by
        rw [toFinset_card_of_nodup (h.distinct.sublist hsub), length_map]
      rw [length_append, hcard]
      refine Nat.succ_le_succ (Finset.card_le_card fun id hid => ?_)
      obtain ⟨f, hf, rfl⟩ := mem_map.1 (mem_toFinset.1 hid)
      refine mem_toFinset.2 (mem_append_right _ ?_)
      exact contains_iff_mem.1 (mem_filter.1 hf).2

/-! ### Moves -/

theorem Sound.step (hs : π.Step π') : ∃ text', π'.Sound text' := by
  cases hs with
  | onward hat =>
    refine ⟨text, h.move (fun d hd => ?_) fun hg => ?_⟩
    · obtain rfl | hd := mem_cons.1 hd
      · exact h.next hat
      · exact h.top d (hat.top ▸ mem_cons_of_mem _ hd)
    · rw [hat.top] at hg
      exact hg.next
  | @inward c cs s b hat hb loop =>
    refine ⟨text, h.move (fun d hd => ?_) fun hg => ?_⟩
    · obtain rfl | hd := mem_cons.1 hd
      · have hc := h.top c (hat.top ▸ mem_cons_self)
        exact ⟨.inner hc.within (mem_of_getElem? hat.stmt) hb, Nat.zero_le _, hc.listed⟩
      · obtain rfl | hd := mem_cons.1 hd
        · exact h.next hat
        · exact h.top d (hat.top ▸ mem_cons_of_mem _ hd)
    · rw [hat.top] at hg
      exact .cons _ hg.next
  | outward htop =>
    refine ⟨text, h.move (fun d hd => h.top d (htop ▸ mem_cons_of_mem _ hd)) fun hg => ?_⟩
    rw [htop] at hg
    exact hg.tail
  | leaves above htop hl =>
    refine ⟨text, h.move (fun d hd => ?_) fun hg => ?_⟩
    · exact h.top d (htop ▸ mem_append_right _ (mem_cons_of_mem _ hd))
    · rw [htop] at hg
      exact hg.below_loop above hl
  | @iterates above below c l htop hl l' =>
    refine ⟨text, h.move (fun d hd => ?_) fun hg => ?_⟩
    · obtain rfl | hd := mem_cons.1 hd
      · exact h.rewound (htop ▸ mem_append_right _ mem_cons_self) (Nat.le_refl _) _
      · exact h.top d (htop ▸ mem_append_right _ (mem_cons_of_mem _ hd))
    · rw [htop] at hg
      exact .cons _ (hg.below_loop above hl)
  | @again below c l htop hl l' =>
    refine ⟨text, h.move (fun d hd => ?_) fun hg => ?_⟩
    · obtain rfl | hd := mem_cons.1 hd
      · exact h.rewound (htop ▸ mem_cons_self) (Nat.zero_le _) _
      · exact h.top d (htop ▸ mem_cons_of_mem _ hd)
    · rw [htop] at hg
      exact .cons _ (hg.below_loop [] hl)
  | jumps hl =>
    refine ⟨text, h.move (fun d hd => ?_) fun _ => .base rfl rfl rfl⟩
    rw [mem_singleton.1 hd]
    exact h.label hl
  | interprets hi => exact h.interprets hi
  | @returns t ts hcs =>
    have hmem : ∀ ds ∈ t :: ts, ds ∈ π.top :: π.callers := fun ds hds => mem_cons_of_mem _ (hcs ▸ hds)
    refine ⟨text, h.main, h.read, h.labels, ?_, h.distinct, h.fresh, fun ds hds => h.cursors ds (hmem ds hds),
      fun hst ds hds => h.grounded hst ds (hmem ds hds)⟩
    have hdepth := h.depth
    rw [hcs] at hdepth
    exact Nat.lt_of_succ_lt hdepth
  | stops => exact ⟨text, h.stopped⟩
  | stuck _ =>
    exact ⟨text, h.main, h.read, h.labels, h.depth, h.distinct, h.fresh, h.cursors, fun hst => absurd rfl hst⟩

theorem Sound.goesOn (hst : π.status ≠ .stopped) (status : Status) : Sound text { π with status := status } :=
  ⟨h.main, h.read, h.labels, h.depth, h.distinct, h.fresh, h.cursors, fun _ => h.grounded hst⟩

theorem Sound.waits (hst : π.status ≠ .stopped) (hw : π.Waits π') : π'.Sound text := by
  cases hw with
  | held hold => exact h.goesOn hst (.held hold)
  | @entered label k hl hroom =>
    refine ⟨h.main, h.read, h.labels, hroom, h.distinct, h.fresh, fun ds hds => ?_, fun _ ds hds => ?_⟩
    · obtain rfl | hds := mem_cons.1 hds
      · intro c hc
        rw [mem_singleton.1 hc]
        exact h.label hl
      · exact h.cursors ds hds
    · obtain rfl | hds := mem_cons.1 hds
      · exact .base rfl rfl rfl
      · exact h.grounded hst ds hds
  | refused => exact h

theorem Sound.pauses (hst : π.status ≠ .stopped) (hp : π.Pauses π') : ∃ text', π'.Sound text' := by
  obtain ⟨π1, rfl | ⟨hstep, hst1⟩, hw⟩ := hp
  · exact ⟨text, h.waits hst hw⟩
  · obtain ⟨text', h1⟩ := h.step hstep
    exact ⟨text', h1.waits (hst1 ▸ hst) hw⟩

/-! ## Conditions -/

/-- **Where a condition leads**: to the end, or to a label, in the frame being executed or in one that waits. -/
inductive Recovers (π : Place) : Place → Prop where
  | ends : Recovers π { π with status := .stopped, top := [], callers := [] }
  | trapped {label : Text} {k : Nat} {callers : List (List Cursor)} (label? : π.program.labels[label]? = some k)
      (frames : callers <:+ π.callers) :
      Recovers π { π with top := [.at π.program.body (k + 1) none], callers := callers }

omit h in
theorem Recovers.of_breaks {π1 : Place} (hb : π.Breaks π1) (hr : π1.Recovers π') : π.Recovers π' := by
  obtain ⟨top, callers, hsuffix, rfl⟩ := hb
  cases hr with
  | ends => exact .ends
  | trapped hl hframes => exact .trapped hl (hframes.trans hsuffix)

theorem Sound.recovers (hr : π.Recovers π') : π'.Sound text := by
  cases hr with
  | ends => exact h.stopped
  | @trapped label k callers hl hframes =>
    have hmem : ∀ ds ∈ callers, ds ∈ π.top :: π.callers := fun ds hds => mem_cons_of_mem _ (hframes.subset hds)
    refine ⟨h.main, h.read, h.labels, Nat.lt_of_le_of_lt hframes.length_le h.depth, h.distinct, h.fresh,
      fun ds hds => ?_, fun hst ds hds => ?_⟩
    · obtain rfl | hds := mem_cons.1 hds
      · intro c hc
        rw [mem_singleton.1 hc]
        exact h.label hl
      · exact h.cursors ds (hmem ds hds)
    · obtain rfl | hds := mem_cons.1 hds
      · exact .base rfl rfl rfl
      · exact h.grounded hst ds (hmem ds hds)

end Place

namespace Interpreter

variable {σ : Type}

theorem raise_recovers (i : Interpreter σ) (c : Condition) : i.place.Recovers (i.raise c).place := by
  unfold raise
  dsimp only
  split
  · exact .ends
  · rename_i event label stack hu
    have hs : stack.callers <:+ i.stack.callers := by
      split at hu
      · exact Stack.unwindFrom_callers hu
      · cases hu
    unfold landed
    split
    · rename_i k hk
      exact .trapped hk (hs.map _)
    · exact .ends

end Interpreter

namespace Machine

variable {σ : Type} {m m' : Machine σ} {text : Option Nat → Program}

theorem completeStep_place (i : Interpreter σ) (depth : Nat) : (i.completeStep depth).place = i.place := by
  unfold completeStep
  split <;> rfl

theorem tick_sound (h : m.place.Sound text) (hrun : m.Running) : ∃ text', m.tick.place.Sound text' := by
  have hst : m.place.status ≠ .stopped := by
    rw [show m.place.status = .running from hrun]
    nofun
  have hstep := Engine.step_journeys m
  unfold tick
  split
  · exact ⟨text, h.recovers (raise_recovers { m.interp with halted := false } _)⟩
  · dsimp only
    split
    · rename_i m' hm
      rw [show (m'.modifyInterp fun i => i.completeStep m.stack.depth).place = m'.place from
        completeStep_place m'.interp _]
      exact h.step (hstep.ok hm)
    · rename_i m' hm
      exact h.pauses hst (hstep.suspended hm)
    · rename_i c m' hm
      exact ⟨text, h.recovers (.of_breaks (hstep.raised hm) (m'.interp.raise_recovers c))⟩

end Machine

/-! ## Beginnings -/

theorem labelTable_lt {ss : List Stmt} {labels : Table Nat} {i n : Nat} (hn : i + ss.length ≤ n)
    (h : ∀ (label : Text) (k : Nat), labels[label]? = some k → k < n) (label : Text) (k : Nat)
    (hk : (labelTable labels i ss)[label]? = some k) : k < n := by
  induction ss generalizing labels i with
  | nil => exact h label k hk
  | cons s ss ih =>
    have hn' : i + 1 + ss.length ≤ n := by
      rw [length_cons] at hn
      omega
    unfold labelTable at hk
    split at hk
    · rename_i name _
      refine ih hn' (fun label k hk => ?_) hk
      rw [Std.TreeMap.getElem?_insertIfNew] at hk
      split at hk
      · cases hk
        omega
      · exact h label k hk
    · exact ih hn' h hk

theorem Program.labels_lt {p : Program} {source name : Text} (h : Program.parse source name = .ok p) (label : Text)
    (k : Nat) (hk : p.labels[label]? = some k) : k < p.body.length := by
  obtain ⟨-, -, -, -, hp⟩ := Program.parse_eq_ok_iff.1 h
  rw [hp] at hk
  exact labelTable_lt (Nat.le_of_eq (Nat.zero_add _)) (by simp) label k hk

namespace Machine

variable {σ : Type} {m m' : Machine σ} {text : Option Nat → Program}

theorem start_sound {source name : Text} {args : Args} (hm : m.start source name args = .ok m') :
    ∃ text, m'.place.Sound text := by
  obtain ⟨p, hp, rfl⟩ := start_eq_ok.1 hm
  -- At the start of a program there is one cursor, at its first statement.
  refine ⟨fun _ => p, rfl, nofun, Program.labels_lt hp, Nat.succ_pos 249, .nil, nofun, fun cs hcs c hc => ?_,
    fun _ cs hcs => ?_⟩
  · obtain rfl := mem_singleton.1 hcs
    obtain rfl := mem_singleton.1 hc
    exact ⟨.self, Nat.zero_le _, nofun⟩
  · obtain rfl := mem_singleton.1 hcs
    exact .base rfl rfl rfl

/-- **The states that a run can come to**: programs are read and begun, ticks are made, answers are taken, and in between
the host does what it likes that moves no cursor. -/
inductive Visited : Machine σ → Prop where
  | fresh {m : Machine σ} {id : Nat} (interp : m.interp = .fresh id) : Visited m
  | start {m m' : Machine σ} {source name : Text} {args : Args} (begun : m.start source name args = .ok m')
      (before : Visited m) : Visited m'
  | tick {m : Machine σ} (running : m.Running) (before : Visited m) : Visited m.tick
  | answered {m m' : Machine σ} {r : Response} (answer : m.answer? r = some m') (before : Visited m) : Visited m'
  | otherwise {m m' : Machine σ} (place : m'.place = m.place) (before : Visited m) : Visited m'

theorem answer?_sound {r : Response} (h : m.place.Sound text) (ha : m.answer? r = some m') : m'.place.Sound text := by
  obtain ⟨hold, hst, _, rfl⟩ := answer?_spec ha
  show Place.Sound text { (m.interp.complete hold.depth hold.site r.outcome).place with status := .running }
  rw [Engine.complete_place]
  refine h.goesOn ?_ .running
  rw [show m.place.status = .held hold from hst]
  nofun

theorem Visited.sound (h : m.Visited) : ∃ text, m.place.Sound text := by
  induction h with
  | @fresh m id hi =>
    have hplace : m.place = ⟨.stopped, .empty, [], 0, [], []⟩ := by
      unfold place
      rw [hi]
      rfl
    rw [hplace]
    refine ⟨fun _ => .empty, rfl, nofun, ?_, by decide, .nil, nofun, fun cs hcs => ?_, fun hst => absurd rfl hst⟩
    · exact labelTable_lt (Nat.le_refl 0) (by simp)
    · rw [mem_singleton.1 hcs]
      exact nofun
  | start hs _ _ => exact start_sound hs
  | tick hrun _ ih =>
    obtain ⟨text, hsound⟩ := ih
    exact tick_sound hsound hrun
  | answered ha _ ih =>
    obtain ⟨text, hsound⟩ := ih
    exact ⟨text, answer?_sound hsound ha⟩
  | otherwise hp _ ih => rwa [hp]

theorem Visited.run (h : m.Visited) (n : Nat) : (m.run n).Visited := by
  induction n generalizing m with
  | zero => exact h
  | succ n ih =>
    unfold run
    split
    · exact ih (.tick ‹_› h)
    · exact h

theorem tick_interprets {c : Cursor} {pos : Position} {x : Expr} (h : m.AboutTo c (.clause pos (.interpret x)))
    (hhalted : m.interp.halted = false) (hstep : Engine.step m = .ok () m') : m.place.Interprets m.tick.place := by
  have htick : m.tick.place = m'.place := by
    unfold tick
    rw [hhalted, hstep]
    exact completeStep_place m'.interp _
  rw [htick]
  exact Engine.step_interprets h hstep

/-- **Runs stay within their texts.** -/
theorem runs_stay_within_texts (h : m.Visited) :
    (1 ≤ m.stack.depth ∧ m.stack.depth ≤ 250) ∧
    (m.interp.status ≠ .stopped → ∀ f ∈ m.stack.frames, ∃ c, f.cursors.getLast? = some c ∧
      c.block = m.interp.program.body ∧ c.unit = none) ∧
    (∃ text : Option Nat → Program, text none = m.interp.program ∧
      (∀ g ∈ m.interp.fragments, ∃ source name : Text, Program.parse source name = .ok (text (some g.id)) ∧
        (text (some g.id)).lines = g.lines) ∧
      ∀ f ∈ m.stack.frames, ∀ c ∈ f.cursors,
        (∀ id, c.unit = some id → ∃ g ∈ m.interp.fragments, g.id = id) ∧ Within (text c.unit).body c.block ∧
          c.pc ≤ c.block.length) ∧
    ∀ c pos x m', m.AboutTo c (.clause pos (.interpret x)) → m.interp.halted = false → Engine.step m = .ok () m' →
      ∃ new : Fragment, new.id ∉ m.interp.fragments.map Fragment.id ∧
        (∀ g, g ∈ m.tick.interp.fragments ↔ g ∈ m.interp.fragments ∧ g.id ∈ m.tick.place.units ∨ g = new) ∧
        m.tick.interp.fragments.length ≤ m.tick.place.units.toFinset.card + 1 := by
  obtain ⟨text, hsound⟩ := h.sound
  have hframes : ∀ f ∈ m.stack.frames, f.cursors ∈ m.place.top :: m.place.callers := by
    intro f hf
    obtain rfl | hf := List.mem_cons.1 hf
    · exact List.mem_cons_self
    · obtain ⟨k, hk, rfl⟩ := List.mem_map.1 hf
      exact List.mem_cons_of_mem _ (List.mem_map_of_mem hk)
  refine ⟨⟨Nat.succ_pos _, ?_⟩, fun hst f hf => ?_, ⟨text, hsound.main, hsound.read, fun f hf c hc => ?_⟩, ?_⟩
  · have hdepth : (m.stack.callers.map fun c => c.frame.cursors).length < maxDepth := hsound.depth
    rw [List.length_map] at hdepth
    exact hdepth
  · exact (hsound.grounded hst _ (hframes f hf)).getLast?
  · have hc' := hsound.cursors _ (hframes f hf) c hc
    exact ⟨fun id hid => List.mem_map.1 (hc'.listed id hid), hc'.within, hc'.bound⟩
  · intro c pos x m' habout hhalted hstep
    exact hsound.swept (tick_interprets habout hhalted hstep)

end Machine

def Stmt.interpreted? : Stmt → Option (Position × Expr)
  | .clause pos (.interpret x) => some (pos, x)
  | _ => none

namespace Machine

def interpreting : Machine Unit :=
  ((idle.start "interpret 'call f'\nexit\nf:\ninterpret 'nop'\nreturn" [] []).toOption.getD idle).run 2

theorem interpreting_visited : interpreting.Visited := by
  refine .run ?_ 2
  cases hs : idle.start "interpret 'call f'\nexit\nf:\ninterpret 'nop'\nreturn" [] [] with
  | error e => exact .fresh rfl
  | ok m => exact .start hs (.fresh rfl)

theorem interpreting_aboutTo : ∃ c pos x, interpreting.AboutTo c (.clause pos (.interpret x)) := by
  have hsome : (((interpreting.top.cursors.head?.filter fun c => c.loop.isNone).bind fun c =>
      c.block[c.pc]?.bind Stmt.interpreted?)).isSome = true := by decide +kernel
  obtain ⟨⟨pos, x⟩, hx⟩ := isSome_iff_exists.1 hsome
  obtain ⟨c, hc, hs⟩ := bind_eq_some_iff.1 hx
  obtain ⟨hhead, hloop⟩ := filter_eq_some_iff.1 hc
  obtain ⟨s, hstmt, hs⟩ := bind_eq_some_iff.1 hs
  obtain rfl : s = .clause pos (.interpret x) := by
    unfold Stmt.interpreted? at hs
    split at hs
    · cases hs
      rfl
    · cases hs
  refine ⟨c, pos, x, hhead, fun l hl => ?_, hstmt⟩
  rw [hl] at hloop
  cases hloop

theorem runs_stay_within_texts_interpreting :
    interpreting.Visited ∧ interpreting.stack.depth = 2 ∧ interpreting.interp.status ≠ .stopped ∧
    (∀ f ∈ interpreting.stack.frames, f.cursors.getLast?.isSome) ∧
    interpreting.tick.interp.fragments.map Fragment.id = [0, 1] ∧
    ∃ new : Fragment, ∀ g, g ∈ interpreting.tick.interp.fragments ↔
      g ∈ interpreting.interp.fragments ∧ g.id ∈ interpreting.tick.place.units ∨ g = new := by
  obtain ⟨c, pos, x, habout⟩ := interpreting_aboutTo
  obtain ⟨_, hgrounded, _, hswept⟩ := runs_stay_within_texts interpreting_visited
  have hstatus : interpreting.interp.status ≠ .stopped := by decide +kernel
  refine ⟨interpreting_visited, by decide +kernel, hstatus, fun f hf => ?_, by decide +kernel, ?_⟩
  · obtain ⟨c, hc, _⟩ := hgrounded hstatus f hf
    rw [hc]
    rfl
  · cases hstep : Engine.step interpreting with
    | ok v m' =>
      obtain ⟨new, _, hiff, _⟩ := hswept c pos x m' habout (by decide +kernel) hstep
      exact ⟨new, hiff⟩
    | error e m' =>
      have hok : (match Engine.step interpreting with
        | .ok _ _ => true
        | .error _ _ => false) = true := by decide +kernel
      rw [hstep] at hok
      cases hok

end Machine

end Rexx
