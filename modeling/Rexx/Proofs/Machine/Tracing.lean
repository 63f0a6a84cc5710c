import Rexx.Proofs.Clause.OwnLines
import Rexx.Proofs.Grammar.Labels

/-!
# `Machine.Tracing` — each clause is traced once

A clause may be given up and made again many times, and only its first pass is traced.
-/

namespace Rexx

open Engine Interpreter List Option Program Stack

/-! ## The middle of a step -/

namespace Machine

variable {σ : Type} {m m' m0 u : Machine σ}

/-- For each frame, the one being executed first: none if it is between two steps, and its cursors if it has given up a
step that it will make again. -/
abbrev Marks := List (Option (List Cursor))

/-- **The marks after a tick.** -/
def marksAfter (m : Machine σ) (gs : Marks) : Marks :=
  let lost := m.interp.stack.depth - m.tick.interp.stack.depth
  let entered := m.tick.interp.stack.depth - m.interp.stack.depth
  if m.interp.halted then none :: gs.drop (lost + 1)
  else match Engine.step m with
    | .ok _ _ => if lost = 0 then none :: gs.tail else gs.drop lost
    | .error .suspended _ =>
      List.replicate entered none ++ (m.tick.interp.stack.frames[entered]?.map Frame.cursors) :: gs.tail
    | .error (.raised _) _ => none :: gs.drop (lost + 1)

/-- **A run from `m0` on**, with the marks of its frames. Whenever it makes a tick, a number is free for a request. -/
inductive Course (m0 : Machine σ) : Marks → Machine σ → Prop where
  | begun : Course m0 [none] m0
  | tick {gs : Marks} {m : Machine σ} (before : Course m0 gs m) (running : m.interp.status = .running)
      (room : m.channel.outstanding < 2 ^ 32 - 1) : Course m0 (m.marksAfter gs) m.tick
  | answered {gs : Marks} {m u : Machine σ} {r : Response} (before : Course m0 gs m) (answer : m.answer? r = some u) :
      Course m0 gs u
  | attended {gs : Marks} {m u : Machine σ} (before : Course m0 gs m) (attends : m.Attends u) : Course m0 gs u

end Machine

namespace Interpreter

variable {σ : Type} {i : Interpreter σ}

structure Marked (g : Option (List Cursor)) (i : Interpreter σ) : Prop where
  running : i.status = .running → g = none ∧ i.stack.top.memo = [] ∧ i.stack.top.replies = [] ∨
    g = some i.stack.top.cursors ∧ (i.stack.top.memo ≠ [] ∨ i.stack.top.replies ≠ [])
  held : ∀ h, i.status = .held h → g = some i.stack.top.cursors ∧ h.depth = i.stack.depth

theorem Marked.between (hrun : i.status = .running) (hmemo : i.stack.top.memo = []) (hreplies : i.stack.top.replies = []) :
    i.Marked none :=
  ⟨fun _ => .inl ⟨rfl, hmemo, hreplies⟩, fun h hh => by rw [hrun] at hh; cases hh⟩

def Aligned (gs : Machine.Marks) (i : Interpreter σ) : Prop := ∃ g, gs = g :: i.place.callers.map some ∧ i.Marked g

theorem raise_forgets (i : Interpreter σ) (c : Condition) (h : (i.raise c).status ≠ .stopped) :
    (i.raise c).stack.top.memo = [] ∧ (i.raise c).stack.top.replies = [] := by
  unfold raise landed at h ⊢
  dsimp only at h ⊢
  split at h
  · exact absurd rfl h
  · split at h
    · exact ⟨rfl, rfl⟩
    · exact absurd rfl h

end Interpreter

/-! ## One tick after the other -/

namespace Machine

variable {σ : Type} {m m' m0 u : Machine σ} {gs : Marks}

theorem Steady.waiting (h : m.Steady m') : m'.place.callers = m.place.callers := cursors_of_kept h.callers

theorem aligned_of_raise (hgs : gs.tail = m.place.callers.map some) (hrun : m'.interp.status = .running)
    (hbreaks : m'.place.callers <:+ m.place.callers) (c : Condition) (hst : (m'.interp.raise c).status ≠ .stopped) :
    (m'.interp.raise c).Aligned (none :: gs.drop (m.interp.stack.depth - (m'.interp.raise c).stack.depth + 1)) := by
  obtain ⟨hmemo, hreplies⟩ := m'.interp.raise_forgets c hst
  obtain ⟨hstatus, hcallers⟩ | hstopped := (m'.interp.raise_leads c).2
  · refine ⟨none, ?_, .between (hstatus.trans hrun) hmemo hreplies⟩
    have hsuffix : (m'.interp.raise c).place.callers <:+ m.place.callers := .trans (hcallers.map _) hbreaks
    obtain ⟨lost, hlost⟩ := hsuffix
    have hdepth : m.interp.stack.depth - (m'.interp.raise c).stack.depth = lost.length := by
      have := congrArg List.length hlost
      simp only [List.length_append, List.length_map, Machine.place, Interpreter.place, Stack.depth] at this ⊢
      omega
    rw [← List.drop_tail, hgs, hdepth, ← hlost, List.map_append, List.drop_left' (List.length_map _)]
  · exact absurd hstopped hst

theorem aligned_of_moves (hgs : gs.tail = m.place.callers.map some) (hrun : m.interp.status = .running)
    (hmoves : m.Moves m') {i : Interpreter σ} (hi : i = m'.interp.completeStep m.interp.stack.depth)
    (hst : i.status ≠ .stopped) :
    i.Aligned (if m.interp.stack.depth - i.stack.depth = 0 then none :: gs.tail
      else gs.drop (m.interp.stack.depth - i.stack.depth)) := by
  cases hmoves with
  | steady hsteady =>
    have hdepth := hsteady.depth
    rw [completeStep, if_pos hdepth] at hi
    have hsame : m.interp.stack.depth - i.stack.depth = 0 := by
      rw [hi]
      exact Nat.sub_eq_zero_of_le (Nat.le_of_eq hdepth.symm)
    rw [if_pos hsame, hgs, ← hsteady.waiting, hi]
    exact ⟨none, rfl, .between (hsteady.status.trans hrun) rfl rfl⟩
  | @returned m0 c cs v hsteady hreturns =>
    have hbelow : m.place.callers = c.frame.cursors :: cs.map fun c => c.frame.cursors := by
      rw [← hsteady.waiting, Machine.place, Interpreter.place, hreturns.callers]
      rfl
    have hstack : m'.interp.stack = _ := hreturns.stack
    have hdepth : m.interp.stack.depth = m'.interp.stack.depth + 1 := by
      rw [← hsteady.depth, hstack, depth, hreturns.callers]
      rfl
    rw [completeStep, if_neg (by omega)] at hi
    subst hi
    have hlost : m.interp.stack.depth - m'.interp.stack.depth = 1 := by omega
    have hstatus : m'.interp.status = .running := hreturns.status.trans (hsteady.status.trans hrun)
    rw [hlost, drop_one, hgs, hbelow]
    refine ⟨some c.frame.cursors, ?_, fun _ => .inr ?_, fun h hh => ?_⟩
    · rw [Interpreter.place, hstack]
      rfl
    · -- The value of the call is what the frame remembers now.
      rw [hstack]
      exact ⟨rfl, .inl (cons_ne_nil _ _)⟩
    · rw [hstatus] at hh
      cases hh
  | stopped _ _ hs _ =>
    rw [hi, (completeStep_leads m'.interp _).2.1] at hst
    exact absurd hs hst

theorem aligned_of_pauses (hgs : gs.tail = m.place.callers.map some) (hrun : m.interp.status = .running)
    (room : m.channel.outstanding < 2 ^ 32 - 1) (hpauses : m.Pauses m') :
    m'.interp.Aligned (replicate (m'.interp.stack.depth - m.interp.stack.depth) none ++
      (m'.interp.stack.frames[m'.interp.stack.depth - m.interp.stack.depth]?.map Frame.cursors) :: gs.tail) := by
  cases hpauses with
  | @held m0 site c hsteady _ _ hold =>
    obtain ⟨⟨id, channel⟩, _, rfl⟩ := map_eq_some_iff.1 hold
    have hsame : m0.interp.stack.depth - m.interp.stack.depth = 0 := Nat.sub_eq_zero_of_le (Nat.le_of_eq hsteady.depth)
    rw [hsame, hgs, ← hsteady.waiting]
    exact ⟨some m0.interp.stack.top.cursors, rfl, fun hh => (by cases hh), fun h hh => by cases hh; exact ⟨rfl, rfl⟩⟩
  | @entered m0 site k a needsValue hsteady _ _ he =>
    have hone : m'.interp.stack.depth - m.interp.stack.depth = 1 := by
      rw [he, ← hsteady.depth]
      exact Nat.add_sub_cancel_left _ 1
    rw [hone, hgs, ← hsteady.waiting, he]
    exact ⟨none, rfl, .between (hsteady.status.trans hrun) rfl rfl⟩
  | @refused site c hsteady hfull =>
    -- A number is free, so a request is not refused.
    rw [← hsteady.channel] at room
    obtain ⟨id, channel, hpost⟩ := Channel.post?_isSome m'.channel m'.interp.id (m'.around.clock / 1000)
      m'.interp.options.timeout c room
    rw [hold?, hpost] at hfull
    cases hfull

theorem aligned_tick (h : m.interp.Aligned gs) (hrun : m.interp.status = .running)
    (room : m.channel.outstanding < 2 ^ 32 - 1) (hst : m.tick.interp.status ≠ .stopped) :
    m.tick.interp.Aligned (m.marksAfter gs) := by
  obtain ⟨g, rfl, -⟩ := h
  have hstep := step_leads m
  unfold marksAfter
  by_cases hhalted : m.interp.halted = true
  · have htick : m.tick.interp = { m.interp with halted := false }.raise Fault.interrupted.condition := by
      rw [tick, if_pos hhalted]
      rfl
    rw [if_pos hhalted, htick]
    rw [htick] at hst
    let heard : Machine σ := m.modifyInterp fun i => { i with halted := false }
    have hheard : heard.interp.status = .running := hrun
    exact aligned_of_raise rfl hheard suffix_rfl _ hst
  · rw [if_neg hhalted]
    cases hr : step m with
    | ok v m' =>
      have htick : m.tick.interp = m'.interp.completeStep m.interp.stack.depth := by
        rw [tick, if_neg hhalted, hr]
        rfl
      exact aligned_of_moves rfl hrun (hstep.ok hr) htick hst
    | error e m' =>
      cases e with
      | suspended =>
        have htick : m.tick = m' := by rw [tick, if_neg hhalted, hr]
        rw [htick]
        exact aligned_of_pauses rfl hrun room (hstep.suspended hr)
      | raised c =>
        have htick : m.tick.interp = m'.interp.raise c := by
          rw [tick, if_neg hhalted, hr]
          rfl
        rw [htick] at hst ⊢
        obtain ⟨hrun', hsuffix⟩ : m'.interp.status = .running ∧ m'.place.callers <:+ m.place.callers := by
          cases hstep.raised hr with
          | steady h => exact ⟨h.status.trans hrun, h.waiting ▸ suffix_rfl⟩
          | @left m0 k ks h hk hm =>
            subst hm
            refine ⟨h.status.trans hrun, ?_⟩
            have hbelow : m0.place.callers = k.frame.cursors :: ks.map fun k => k.frame.cursors := by
              rw [Machine.place, Interpreter.place, hk]
              rfl
            rw [← h.waiting, hbelow]
            exact suffix_cons _ _
        exact aligned_of_raise rfl hrun' hsuffix c hst

theorem aligned_answer {r : Response} (h : m.interp.Aligned gs) (ha : m.answer? r = some u) : u.interp.Aligned gs := by
  obtain ⟨g, rfl, hmarked⟩ := h
  obtain ⟨hold, hst, _, rfl⟩ := answer?_spec ha
  obtain ⟨hg, hdepth⟩ := hmarked.held hold hst
  have hsettle : m.interp.complete hold.depth hold.site r.outcome = (m.settle hold.site r.outcome).interp := by
    rw [hdepth]
    rfl
  rw [hsettle, settle_eq]
  exact ⟨g, rfl, fun _ => .inr ⟨hg, .inr (cons_ne_nil _ _)⟩, fun h hh => by cases hh⟩

theorem Attends.place (h : m.Attends u) : u.place = m.place := by
  have hcallers : u.place.callers = m.place.callers := cursors_of_kept h.callers
  have htop : u.place.top = m.place.top := by
    show u.top.cursors = _
    rw [h.top]
    rfl
  show Place.mk u.interp.status u.interp.program u.interp.fragments u.interp.nextFragment u.place.top u.place.callers = _
  rw [h.status, h.program, h.fragments, h.nextFragment, htop, hcallers]
  rfl

theorem aligned_attends (h : m.interp.Aligned gs) (ha : m.Attends u) : u.interp.Aligned gs := by
  obtain ⟨g, rfl, hmarked⟩ := h
  have hcallers : u.place.callers = m.place.callers := congrArg Place.callers ha.place
  have hdepth : u.interp.stack.depth = m.interp.stack.depth := by
    rw [depth, depth, ha.callers.length_eq]
  have htop : u.interp.stack.top = _ := ha.top
  refine ⟨g, congrArg (fun cs => g :: cs.map some) hcallers.symm, fun hrun => ?_, fun h hh => ?_⟩
  · have := hmarked.running (ha.status ▸ hrun)
    rw [htop]
    exact this
  · rw [hdepth, htop]
    exact hmarked.held h (ha.status ▸ hh)

theorem Course.aligned (hbegun : m0.interp.Aligned [none]) (h : Course m0 gs m) (hst : m.interp.status ≠ .stopped) :
    m.interp.Aligned gs := by
  induction h with
  | begun => exact hbegun
  | tick _ hrun room ih => exact aligned_tick (ih fun h => by cases hrun.symm.trans h) hrun room hst
  | answered _ ha ih =>
    obtain ⟨hold, hheld, -⟩ := answer?_spec ha
    exact aligned_answer (ih fun h => by cases hheld.symm.trans h) ha
  | attended _ ha ih => exact aligned_attends (ih (ha.status ▸ hst)) ha

/-! ## The place of a step -/

theorem Course.program (h : Course m0 gs m) : m.interp.program = m0.interp.program := by
  induction h with
  | begun => rfl
  | @tick gs m _ _ _ ih =>
    refine Eq.trans ?_ ih
    refine tick_keeps (R := fun m m' => m'.interp.program = m.interp.program) (fun h h' => h'.trans h) ?_ ?_
    · intro m m' h
      rw [h]
    · exact fun _ h => h.steady.program
  | answered _ ha ih =>
    rw [answer?_turns ha]
    exact ih
  | attended _ ha ih => exact ha.program.trans ih

theorem Course.sound {text : Option Nat → Program} (hbegun : m0.place.Sound text) (h : Course m0 gs m) :
    ∃ text, m.place.Sound text := by
  induction h with
  | begun => exact ⟨text, hbegun⟩
  | tick _ hrun _ ih =>
    obtain ⟨text, hsound⟩ := ih
    exact tick_sound hsound hrun
  | answered _ ha ih =>
    obtain ⟨text, hsound⟩ := ih
    exact ⟨text, answer?_sound hsound ha⟩
  | attended _ ha ih => rwa [ha.place]

theorem marksAfter_of_suspended {c : Cursor} {s : Stmt} (habout : m.AboutTo c s) (hhalted : m.interp.halted = false)
    (hstep : Engine.step m = .error .suspended m') :
    m.marksAfter gs = List.replicate (m.tick.interp.stack.depth - m.interp.stack.depth) none ++
      some m.interp.stack.top.cursors :: gs.tail := by
  have hfalse : ¬ m.interp.halted = true := by
    rw [hhalted]
    exact Bool.false_ne_true
  have htick : m.tick = m' := by rw [tick, if_neg hfalse, hstep]
  obtain ⟨cs, hcs⟩ := List.head?_eq_some_iff.1 habout.cursor
  have hwaits : m.place.Waits m'.place :=
    (Engine.exec_travels s (m.announced c s) ⟨c, cs, hcs, habout.stmt⟩).suspended
      ((Engine.step_of_aboutTo habout).symm.trans hstep)
  have hmark : (m'.place.top :: m'.place.callers)[m'.interp.stack.depth - m.interp.stack.depth]? =
      some m.interp.stack.top.cursors := by
    have hlost : m'.interp.stack.depth - m.interp.stack.depth = m'.place.callers.length - m.place.callers.length := by
      simp only [Machine.place, Interpreter.place, List.length_map, Stack.depth]
      omega
    rw [hlost]
    generalize m'.place = π at hwaits
    cases hwaits with
    | held hold =>
      rw [Nat.sub_self]
      rfl
    | entered _ _ =>
      rw [List.length_cons, Nat.add_sub_cancel_left]
      rfl
    | refused =>
      rw [Nat.sub_self]
      rfl
  have hframes : m'.interp.stack.frames.map Frame.cursors = m'.place.top :: m'.place.callers := by
    rw [Stack.frames, List.map_cons, List.map_map]
    rfl
  unfold marksAfter
  rw [if_neg hfalse, hstep, htick]
  rw [← List.getElem?_map, hframes, hmark]

end Machine

/-! ## The line that is traced -/

theorem Within.occurs {body block : List Stmt} (h : Within body block) {s : Stmt} (hs : s ∈ block) :
    ∃ t ∈ body, s.Occurs t := by
  induction h generalizing s with
  | self => exact ⟨s, hs, .refl⟩
  | @inner b b' t _ ht hblock ih =>
    obtain ⟨u, hu, hocc⟩ := ih ht
    have hlists : t.lists = t.blocks := by cases t <;> rfl
    exact ⟨u, hu, .head ⟨b', hlists ▸ hblock, hs⟩ hocc⟩

namespace Interpreter

variable {σ : Type} {i : Interpreter σ} {c : Cursor} {s : Stmt} {text : Text}

/-- The line on which a statement stands, in the fragment that it belongs to or in the program. -/
def textOf? (i : Interpreter σ) (c : Cursor) (s : Stmt) : Option Text :=
  if s.pos.line = 0 then none else (((i.fragmentOf? c.unit).map Fragment.lines).getD i.program.lines)[s.pos.line - 1]?

/-- The line that shows a statement in the trace. -/
def shown (i : Interpreter σ) (c : Cursor) (s : Stmt) (text : Text) : Text :=
  Text.untilNul (sourceLine (i.lineOf c s) "*-*" text)

theorem traceOf_of_mark {g : Option (List Cursor)} (h : i.textOf? c s = some text)
    (hg : g = none ↔ i.stack.top.memo = [] ∧ i.stack.top.replies = []) :
    (i.traceOf c s).toList = if i.options.trace && g.isNone then [i.shown c s text] else [] := by
  have hnone : g.isNone = (i.stack.top.memo.isEmpty && i.stack.top.replies.isEmpty) := by
    rw [Bool.eq_iff_iff, isNone_iff_eq_none, hg, Bool.and_eq_true, List.isEmpty_iff, List.isEmpty_iff]
  unfold textOf? at h
  rw [traceOf, hnone, ← Bool.and_assoc]
  dsimp only
  rw [h]
  split
  · rfl
  · rfl

/-- The script has ended with the lines `ls`: the line on which the condition was raised, if there is one, and the
report. -/
def Reported (ls : List Text) (i : Interpreter σ) : Prop :=
  i.status = .stopped ∧ ∃ line, ls =
    ((i.program.line? line).map fun text => Text.untilNul (sourceLine line "+++" text)).toList ++ [Text.untilNul i.error]

theorem fatal_reported (i : Interpreter σ) (c : Condition) :
    ∃ ls, (i.fatal c).diagnostics = i.diagnostics ++ ls.toArray ∧ (i.fatal c).Reported ls := by
  refine ⟨_, ?_, rfl, c.line.getD i.line, rfl⟩
  rw [← append_toArray, ← Array.append_assoc, toArray_toList]
  rfl

theorem raise_reported (i : Interpreter σ) (c : Condition) :
    ∃ ls, (i.raise c).diagnostics = i.diagnostics ++ ls.toArray ∧ (ls ≠ [] → (i.raise c).Reported ls) := by
  unfold raise landed
  dsimp only
  split
  · obtain ⟨ls, hls, hreported⟩ := i.fatal_reported { c with line := some (c.line.getD i.line) }
    exact ⟨ls, hls, fun _ => hreported⟩
  · split
    · exact ⟨[], (Array.append_empty).symm, fun h => absurd rfl h⟩
    · rename_i stack _ _
      obtain ⟨ls, hls, hreported⟩ := fatal_reported _ _
      exact ⟨ls, hls, fun _ => hreported⟩

end Interpreter

namespace Machine

variable {σ : Type} {k : Option Clause} {m m' m0 u : Machine σ} {gs : Marks} {c : Cursor} {s : Stmt}

theorem exists_text {text : Option Nat → Program} (hsound : m.place.Sound text) {source name : Text}
    (hread : parse source name = .ok m.interp.program) (h : m.AboutTo c s) :
    ∃ line, m.interp.textOf? c s = some line := by
  have hc := hsound.top c (mem_of_mem_head? h.cursor)
  obtain ⟨t, ht, hocc⟩ := hc.within.occurs (mem_of_getElem? h.stmt)
  -- The text of the cursor has been read, and its lines are those that are looked at.
  obtain ⟨source', name', hparsed, hlines⟩ : ∃ source' name' : Text, parse source' name' = .ok (text c.unit) ∧
      (text c.unit).lines = ((m.interp.fragmentOf? c.unit).map Fragment.lines).getD m.interp.program.lines := by
    cases hunit : c.unit with
    | none =>
      rw [hsound.main]
      exact ⟨source, name, hread, rfl⟩
    | some id =>
      obtain ⟨f, hf, hid⟩ := mem_map.1 (hc.listed id hunit)
      cases hfind : m.interp.fragments.find? fun f => f.id == id with
      | none => exact absurd (beq_iff_eq.2 hid) (find?_eq_none.1 hfind f hf)
      | some g =>
        obtain ⟨source', name', hparsed, hlines⟩ := hsound.read g (mem_of_find?_eq_some hfind)
        obtain rfl : g.id = id := by simpa using find?_some hfind
        refine ⟨source', name', hparsed, ?_⟩
        show _ = ((m.interp.fragments.find? fun f => f.id == g.id).map Fragment.lines).getD _
        rw [hfind, hlines]
        rfl
  obtain ⟨line, hline⟩ := exists_line hparsed ht hocc
  refine ⟨line, ?_⟩
  rw [textOf?, ← hlines]
  exact hline

/-! ## What a tick writes -/

/-- The lines `ls` have been reported. -/
def Reports (ls : List Text) (m m' : Machine σ) : Prop := m'.interp.diagnostics = m.interp.diagnostics ++ ls.toArray

theorem Does.quiet (h : m.Does k m') (hk : ∀ code cond message, k ≠ some (.exitUnless code cond message)) :
    m'.interp.diagnostics = m.interp.diagnostics := by
  refine h.keeps (R := fun m m' => m'.interp.diagnostics = m.interp.diagnostics) (fun _ => rfl) (fun h h' => h'.trans h) ?_
  intro m m' h
  cases h with
  | evaluates h => rw [h.interp]
  | reports hc _ => exact absurd hc (hk _ _ _)
  | _ => rfl

end Machine

namespace Engine

variable {σ α : Type} {k : Option Clause} {m u : Machine σ}

abbrev Reporting (ls : List Text) (c : Engine σ α) (m : Machine σ) : Prop :=
  Ensures (Machine.Reports ls) (Machine.Reports ls) (Machine.Reports ls) c m

theorem Carries.quiet {c : Engine σ α} (h : Carries k c m)
    (hk : ∀ code cond message, k ≠ some (.exitUnless code cond message)) : Reporting [] c m := by
  have hquiet : ∀ {m'}, m'.interp.diagnostics = m.interp.diagnostics → m.Reports [] m' := fun h =>
    h.trans (Array.append_empty).symm
  refine h.imp (fun h => hquiet ?_) (fun h => hquiet ?_) fun h => hquiet ?_
  · cases h with
    | stays h => exact h.quiet hk
    | @returned m0 c cs value h _ hd hb =>
      obtain ⟨store, pool, hb'⟩ := handBack_of_data hd (popped m0 c cs)
      cases hb.symm.trans hb'
      exact h.quiet hk
    | stopped h he =>
      rw [he.same]
      exact h.quiet hk
  · cases h with
    | stays h => exact h.quiet hk
    | left h _ he =>
      rw [he]
      exact h.quiet hk
  · cases h with
    | held h _ _ hold =>
      obtain ⟨q, _, rfl⟩ := map_eq_some_iff.1 hold
      exact h.quiet hk
    | entered h _ _ he =>
      rw [he]
      exact h.quiet hk
    | refused h _ => exact h.quiet hk

theorem exec_reporting (s : Stmt) (u : Machine σ) : ∃ own, Reporting own (exec s) u ∧ (own ≠ [] → ∃ code cond message,
      s.clause? = some (.exitUnless code cond message) ∧ own = (ownLine? (.exitUnless code cond message) u).toList) := by
  by_cases hs : ∃ code cond message, s.clause? = some (.exitUnless code cond message)
  · obtain ⟨code, cond, message, hs⟩ := hs
    have hwrites := exitUnless_writes code cond message u
    refine ⟨_, ?_, fun _ => ⟨code, cond, message, hs, rfl⟩⟩
    cases s <;> cases hs
    exact Ensures.imp hwrites (fun h => h.reported) (fun h => h.reported) fun h => h.reported
  · simp only [not_exists] at hs
    exact ⟨[], (exec_carries s u).quiet hs, fun h => absurd rfl h⟩

end Engine

namespace Machine

variable {σ : Type} {m m' m0 m1 : Machine σ} {gs : Marks} {c : Cursor} {s : Stmt} {ls : List Text}

theorem tick_reports (hhalted : m.interp.halted = false) (h : Reporting ls step m) :
    ∃ report, m.Reports (ls ++ report) m.tick ∧ (report ≠ [] → m.tick.interp.Reported report) := by
  have hfalse : ¬ m.interp.halted = true := by
    rw [hhalted]
    exact Bool.false_ne_true
  unfold tick
  rw [if_neg hfalse]
  split
  · rename_i m' hm
    refine ⟨[], ?_, fun h => absurd rfl h⟩
    rw [append_nil]
    refine Eq.trans ?_ (h.ok hm)
    show (m'.interp.completeStep _).diagnostics = _
    unfold completeStep
    split <;> rfl
  · rename_i m' hm
    exact ⟨[], (append_nil ls).symm ▸ h.suspended hm, fun h => absurd rfl h⟩
  · rename_i e m' hm
    obtain ⟨report, hreport, hreported⟩ := m'.interp.raise_reported e
    refine ⟨report, ?_, hreported⟩
    have hstep : m'.interp.diagnostics = m.interp.diagnostics ++ ls.toArray := h.raised hm
    refine hreport.trans ?_
    rw [hstep, Array.append_assoc, ← append_toArray]

theorem step_reporting (habout : m.AboutTo c s)
    (h : Reporting ls (exec s) (m.announced c s)) :
    Reporting ((m.interp.traceOf c s).toList ++ ls) step m := by
  have hannounced : ∀ {m'}, (m.announced c s).Reports ls m' →
      m.Reports ((m.interp.traceOf c s).toList ++ ls) m' := by
    intro m' h
    have hlines : m'.interp.diagnostics = m.interp.diagnostics ++ (m.interp.traceOf c s).toArray ++ ls.toArray := h
    rw [Reports, hlines, ← append_toArray, ← Array.append_assoc, toArray_toList]
  unfold Reporting Ensures at h ⊢
  rw [step_of_aboutTo habout]
  split at h
  · exact hannounced h
  · exact hannounced h
  · exact hannounced h

theorem tick_reports_of_no_stmt (h : m.interp.halted = true ∨ ∀ c s, ¬ m.AboutTo c s) :
    ∃ report, m.Reports report m.tick ∧ (report ≠ [] → m.tick.interp.Reported report) := by
  by_cases hhalted : m.interp.halted = true
  · unfold tick
    rw [if_pos hhalted]
    exact { m.interp with halted := false }.raise_reported Fault.interrupted.condition
  · have hquiet := (step_carries_of_no_stmt (h.resolve_left hhalted)).quiet fun _ _ _ h => by cases h
    exact tick_reports (Bool.eq_false_iff.2 hhalted) hquiet

theorem start_aligned {source name : Text} {args : Args} (h : m0.start source name args = .ok m1) :
    m1.interp.Aligned [none] ∧ parse source name = .ok m1.interp.program := by
  obtain ⟨p, hp, rfl⟩ := start_eq_ok.1 h
  exact ⟨⟨none, rfl, .between rfl rfl rfl⟩, hp⟩

/-- **Each clause is traced once.** In every run of a program, whatever routines it calls, whatever it asks the host and
whatever the host does meanwhile: the frame being executed remembers nothing exactly if it is not in the middle of a
step, and otherwise it is where the step was given up; a clause that is given up stays where it is. -/
theorem clause_traced_once {source name : Text} {args : Args} (hstart : m0.start source name args = .ok m1)
    (h : Course m1 gs m) (hrun : m.interp.status = .running) :
    ∃ g, gs = g :: m.interp.stack.callers.map (fun k => some k.frame.cursors) ∧
      (g = none ↔ m.interp.stack.top.memo = [] ∧ m.interp.stack.top.replies = []) ∧
      (∀ cs, g = some cs → m.interp.stack.top.cursors = cs) ∧
      (∀ c s, m.AboutTo c s → m.interp.halted = false →
        (∃ text own report, m.interp.textOf? c s = some text ∧
          m.Reports ((if m.interp.options.trace && g.isNone then [m.interp.shown c s text] else []) ++ own ++ report)
            m.tick ∧
          (own ≠ [] → ∃ code cond message, s.clause? = some (.exitUnless code cond message) ∧ own =
            (Engine.ownLine? (.exitUnless code cond message) (m.announced c s)).toList) ∧
          (report ≠ [] → m.tick.interp.Reported report)) ∧
        ∀ m', Engine.step m = .error .suspended m' →
          m.marksAfter gs = List.replicate (m.tick.interp.stack.depth - m.interp.stack.depth) none ++
            some m.interp.stack.top.cursors :: gs.tail) ∧
      ((m.interp.halted = true ∨ ∀ c s, ¬ m.AboutTo c s) →
        ∃ report, m.Reports report m.tick ∧ (report ≠ [] → m.tick.interp.Reported report)) := by
  obtain ⟨hbegun, hread⟩ := start_aligned hstart
  obtain ⟨text, hsound1⟩ := start_sound hstart
  obtain ⟨text, hsound⟩ := h.sound hsound1
  rw [← h.program] at hread
  obtain ⟨g, rfl, hmarked⟩ := h.aligned hbegun fun hst => by cases hrun.symm.trans hst
  have hnone : g = none ↔ m.interp.stack.top.memo = [] ∧ m.interp.stack.top.replies = [] := by
    obtain ⟨hg, hempty⟩ | ⟨hg, hkept⟩ := hmarked.running hrun
    · exact ⟨fun _ => hempty, fun _ => hg⟩
    · refine ⟨fun h => (by cases hg.symm.trans h), fun hempty => ?_⟩
      rcases hkept with hmemo | hreplies
      · exact absurd hempty.1 hmemo
      · exact absurd hempty.2 hreplies
  refine ⟨g, ?_, hnone, fun cs hcs => ?_, fun c s habout hhalted => ⟨?_, fun m' hstep => ?_⟩, tick_reports_of_no_stmt⟩
  · exact congrArg (g :: ·) (List.map_map ..)
  · obtain ⟨hg, -⟩ | ⟨hg, -⟩ := hmarked.running hrun
    · cases hg.symm.trans hcs
    · exact Option.some.inj (hg.symm.trans hcs)
  · obtain ⟨line, hline⟩ := exists_text hsound hread habout
    obtain ⟨own, hown, hmessage⟩ := Engine.exec_reporting s (m.announced c s)
    obtain ⟨report, hreport, hreported⟩ := tick_reports hhalted (step_reporting habout hown)
    rw [Interpreter.traceOf_of_mark hline hnone] at hreport
    exact ⟨line, own, report, hline, hreport, hmessage, hreported⟩
  · exact marksAfter_of_suspended habout hhalted hstep

def retracer : Machine Unit := (idle.start "say f()\nexit\nf:\ntrace r\nreturn 1" [] []).toOption.getD idle

theorem start_retracer : idle.start "say f()\nexit\nf:\ntrace r\nreturn 1" [] [] = .ok retracer := by
  have hread : (idle.start "say f()\nexit\nf:\ntrace r\nreturn 1" [] []).toOption.isSome = true := by decide +kernel
  unfold retracer
  cases hs : idle.start "say f()\nexit\nf:\ntrace r\nreturn 1" [] [] with
  | error e =>
    rw [hs] at hread
    cases hread
  | ok m => rfl

theorem exists_aboutTo (h : ((m.interp.stack.top.cursors.head?.filter fun c => c.loop.isNone).bind fun c =>
    c.block[c.pc]?).isSome = true) : ∃ c s, m.AboutTo c s := by
  obtain ⟨s, hs⟩ := isSome_iff_exists.1 h
  obtain ⟨c, hc, hstmt⟩ := bind_eq_some_iff.1 hs
  obtain ⟨hhead, hloop⟩ := filter_eq_some_iff.1 hc
  refine ⟨c, s, hhead, fun l hl => ?_, hstmt⟩
  rw [hl] at hloop
  cases hloop

theorem clause_traced_once_retracing :
    ∃ gs, Course retracer gs retracer.tick.tick.tick ∧ retracer.tick.tick.tick.interp.status = .running ∧
      retracer.tick.tick.tick.interp.options.trace = true ∧
      retracer.tick.tick.tick.interp.diagnostics = #[("     5 *-* return 1" : Text)] ∧
      gs = [some retracer.tick.tick.tick.interp.stack.top.cursors] ∧
      ∃ c s, retracer.tick.tick.tick.AboutTo c s ∧ ∃ own report,
        retracer.tick.tick.tick.Reports (own ++ report) retracer.tick.tick.tick.tick ∧
        (own ≠ [] → ∃ code cond message, s.clause? = some (.exitUnless code cond message)) ∧
        (report ≠ [] → retracer.tick.tick.tick.tick.interp.Reported report) := by
  have hcourse : Course retracer _ retracer.tick.tick.tick :=
    .tick (.tick (.tick .begun (by decide +kernel) (by decide +kernel)) (by decide +kernel) (by decide +kernel))
      (by decide +kernel) (by decide +kernel)
  have hrun : retracer.tick.tick.tick.interp.status = .running := by decide +kernel
  obtain ⟨g, hgs, hnone, hcursors, htraced, -⟩ := clause_traced_once start_retracer hcourse hrun
  have hg : g = some retracer.tick.tick.tick.interp.stack.top.cursors := by
    cases g with
    | none => exact absurd (hnone.1 rfl).1 (by decide +kernel)
    | some cs => rw [hcursors cs rfl]
  have hcallers : retracer.tick.tick.tick.interp.stack.callers = [] :=
    List.length_eq_zero_iff.1 (by decide +kernel)
  rw [hcallers, hg] at hgs
  obtain ⟨c, s, habout⟩ := exists_aboutTo (m := retracer.tick.tick.tick) (by decide +kernel)
  obtain ⟨⟨text, own, report, -, hreports, hown, hreport⟩, -⟩ := htraced c s habout (by decide +kernel)
  rw [hg, Option.isNone_some, Bool.and_false] at hreports
  refine ⟨_, hcourse, hrun, by decide +kernel, by decide +kernel, hgs, c, s, habout, own, report, hreports, fun h => ?_, hreport⟩
  obtain ⟨code, cond, message, hclause, -⟩ := hown h
  exact ⟨code, cond, message, hclause⟩

end Machine

end Rexx
