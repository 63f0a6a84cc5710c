import Rexx.Proofs.Isolation.Beginning

/-!
# `Isolation.Routines` — routines keep to their own variables

A clause calls a routine, which runs for any number of ticks, with answers of the host and further calls in between,
and returns.
-/

namespace Rexx

open Engine List Memory Stack Variables

/-! ## Variables of a frame that has waited -/

namespace Variables

variable {v : Variables} {x y : Text}

theorem get?_set_of_ne (value : Text) (hne : y ≠ x) (hold : ∀ i, v.pool.var? x = some i → i ≠ v.store.next)
    (hcell : ∀ i, v.pool.var? x = some i → v.pool.var? y ≠ some i) : (v.set y value).get? x = v.get? x := by
  unfold set Store.varCell
  cases hy : v.pool.vars[y]? with
  | some j =>
    unfold get?
    cases hx : v.pool.vars[x]? with
    | none => rfl
    | some i =>
      have hji : j ≠ i := fun hji => hcell i hx (hji ▸ hy)
      simp [Std.TreeMap.getElem?_insert, hji]
  | none =>
    unfold get?
    rw [Std.TreeMap.getElem?_insert]
    simp only [Std.LawfulEqCmp.compare_eq_iff_eq, hne]
    cases hx : v.pool.vars[x]? with
    | none => rfl
    | some i => simp [Std.TreeMap.getElem?_insert, (hold i hx).symm]

theorem get?_drop_of_ne (hcell : ∀ i, v.pool.var? x = some i → v.pool.var? y ≠ some i) : (v.drop y).get? x = v.get? x := by
  unfold drop
  cases hy : v.pool.vars[y]? with
  | none => rfl
  | some j =>
    unfold get?
    cases hx : v.pool.vars[x]? with
    | none => rfl
    | some i =>
      have hji : j ≠ i := fun hji => hcell i hx (hji ▸ hy)
      simp [Std.TreeMap.getElem?_erase, hji]

theorem stem?_set (v : Variables) (y value stem : Text) : (v.set y value).stem? stem = v.stem? stem := by
  unfold set Store.varCell
  cases v.pool.vars[y]? <;> rfl

theorem stem?_drop (v : Variables) (y stem : Text) : (v.drop y).stem? stem = v.stem? stem := by
  unfold drop
  cases v.pool.vars[y]? <;> rfl

end Variables

namespace Memory

variable {w : Pending} {st : Store} {top : Frame} {above : List Caller} {p : Pool} {x : Text}

theorem Isolated.get? (h : Isolated w st top above p) (hx : ¬ w.vars x) :
    get? ⟨st, p⟩ x = get? ⟨w.store, w.frame.pool⟩ x := by
  have hp : p.vars[x]? = w.frame.pool.vars[x]? := h.vars.other x hx
  unfold Variables.get?
  rw [hp]
  cases hi : w.frame.pool.vars[x]? with
  | none => rfl
  | some i => exact h.varCells x i hx hi

theorem Isolated.stem? (h : Isolated w st top above p) (hx : ¬ w.stems x) :
    stem? ⟨st, p⟩ x = stem? ⟨w.store, w.frame.pool⟩ x := by
  have hp : p.stems[x]? = w.frame.pool.stems[x]? := h.stems.other x hx
  unfold Variables.stem?
  rw [hp]
  cases hi : w.frame.pool.stems[x]? with
  | none => rfl
  | some i => exact congrArg some (h.stemCells x i hx hi)

theorem Isolated.cell (h : Isolated w st top above p) (hx : ¬ w.vars x) {i : Nat} (hi : p.var? x = some i) :
    i < st.next ∧ ∀ y, p.var? y = some i → x = y := by
  rw [h.vars.other x hx] at hi
  refine ⟨lt_of_lt_of_le (h.tidy.vars.below hi) h.next, fun y hy => ?_⟩
  exact h.vars.eq_of_cell h.tidy.vars hi hy

end Memory

/-! ## Machines that a host can come to -/

namespace Memory

theorem tidy_fresh : Tidy (Store.empty, ⟨Frame.fresh, []⟩) := by
  have hvars : ∀ x, Frame.fresh.pool.var? x = none := fun x => by simp [Pool.var?, Frame.fresh, Pool.empty]
  have hstems : ∀ x, Frame.fresh.pool.stem? x = none := fun x => by simp [Pool.stem?, Frame.fresh, Pool.empty]
  have hnone : Names.OneName 0 (∅ : Set Names) := ⟨fun h => absurd h (Set.notMem_empty _), fun h => absurd h (Set.notMem_empty _)⟩
  refine ⟨(hnone.empty hvars).subset ?_, (hnone.empty hstems).subset ?_⟩
  · rintro _ ⟨f, hf, rfl⟩
    obtain rfl := mem_singleton.1 hf
    exact .inl rfl
  · rintro _ ⟨f, hf, rfl⟩
    obtain rfl := mem_singleton.1 hf
    exact .inl rfl

end Memory

namespace Machine

variable {σ : Type} {H : Policy} {A : Memory → List Text → Prop} {d : Nat} {m m' u : Machine σ}

def Answers (m : Machine σ) : Prop := ∀ h, m.interp.status = .held h → h.depth = m.stack.depth

/-- **The machines that a host can come to** with one interpreter, if its code assigns and drops variables as scripts do: it
begins programs, lets them run, answers their requests, assigns variables of the main program, and changes other things
than variables, frames and what is waited for. -/
inductive Reached : Machine σ → Prop where
  | fresh {m : Machine σ} {id : Nat} (h : m.interp = .fresh id) : Reached m
  | begin {m : Machine σ} (p : Program) (args : Args) (h : Reached m) : Reached (m.begin p args)
  | tick {m : Machine σ} (running : m.Running) (hosts : m.Hosts Variables.Grows) (h : Reached m) : Reached m.tick
  | answered {m u : Machine σ} {r : Response} (answer : m.answer? r = some u) (h : Reached m) : Reached u
  | assigned {m : Machine σ} {v : Variables} (grows : m.interp.mainVariables.Grows v) (h : Reached m) :
      Reached (m.modifyInterp fun i => i.setMainVariables v)
  | provided {m m' : Machine σ} (memory : m'.interp.memory = m.interp.memory)
      (status : ∀ h, m'.interp.status = .held h → m.interp.status = .held h) (h : Reached m) : Reached m'

theorem answered_settle {r : Response} (hm : m.Answers) (ha : m.answer? r = some u) :
    (∃ site r', u.interp.memory = (m.settle site r').interp.memory) ∧ u.Running := by
  obtain ⟨hold, hst, _, rfl⟩ := answer?_spec ha
  refine ⟨⟨hold.site, r.outcome, ?_⟩, rfl⟩
  rw [hm hold hst]
  rfl

theorem settle_moves (m : Machine σ) (site : Site) (r : Outcome) :
    Memory.Moves H A d m.interp.memory (m.settle site r).interp.memory := by
  rw [settle_eq]
  exact .tail (.single (.write (.vars (.publish m.interp.vars r.settled)))) (.write (.frame rfl))

theorem Answers.of_running (h : m.Running) : m.Answers := fun _ hh => (by cases h.symm.trans hh)

theorem tick_answers (hrun : m.Running) : m.tick.Answers := by
  intro hold hh
  cases tick_goes hrun with
  | on _ _ hst _ => cases hst.symm.trans hh
  | stops _ _ hst => cases hst.symm.trans hh
  | @holds m0 site k hs hold' =>
    obtain ⟨⟨id, ch⟩, _, htick⟩ := Option.map_eq_some_iff.1 hold'
    rw [← htick] at hh ⊢
    cases hh
    rfl

theorem Reached.tidy (h : m.Reached) : m.interp.memory.Tidy ∧ m.Answers := by
  induction h with
  | fresh h =>
    refine ⟨?_, fun hold hh => ?_⟩
    · rw [h]
      exact Memory.tidy_fresh
    · rw [h] at hh
      cases hh
  | @begin m p args _ ih =>
    refine ⟨?_, .of_running rfl⟩
    have hmoves : Memory.Moves Variables.Grows (fun _ _ => True) 0 m.interp.memory (m.begin p args).interp.memory :=
      (unwound_moves m.interp.store m.stack).tail (.write (.frame rfl))
    exact hmoves.tidy ih.1
  | tick hrun hhosts _ ih => exact ⟨tick_tidy hhosts ih.1, tick_answers hrun⟩
  | @answered m u r ha _ ih =>
    obtain ⟨⟨site, r', hmem⟩, hrun⟩ := answered_settle ih.2 ha
    refine ⟨?_, .of_running hrun⟩
    rw [hmem]
    exact (settle_moves (A := fun _ _ => True) (d := 0) m site r').tidy ih.1
  | @assigned m v hv _ ih =>
    refine ⟨(Memory.Write.host hv).tidy ih.1, fun hold hh => ?_⟩
    rw [ih.2 hold hh]
    exact congrArg (· + 1) (CallersKept.modifyMain m.stack v.pool).length_eq
  | @provided m m' hmem hst _ ih =>
    refine ⟨hmem ▸ ih.1, fun hold hh => ?_⟩
    rw [ih.2 hold (hst hold hh)]
    exact congrArg (fun a => a.2.depth) hmem.symm

end Machine

/-! ## The run of a routine -/

def Cursor.exposes (c : Cursor) : List Text :=
  match c.block[c.pc]? with
  | some (.clause _ (.procedure names)) => names
  | _ => []

def Stack.Begins (n : Nat) (c : Cursor) (s : Stack) : Prop :=
  ∀ f, s.frameAt? n = some f → f.steps = 0 → f.cursors = [c] ∧ f.traps = []

theorem Stack.Begins.upheld {n : Nat} {c : Cursor} {s s' : Stack} (h : s.Begins n c) (hu : s.Upholds n s') :
    s'.Begins n c := by
  intro f' hf' hz
  obtain ⟨f, hf, hup⟩ := hu f' hf'
  obtain hs | ⟨hs, hup⟩ := hup
  · exact absurd hz hs
  · obtain ⟨hc, ht⟩ := h f hf (hs ▸ hz)
    obtain ht' | ⟨hc', ht'⟩ := hup
    · exact absurd ht ht'
    · exact ⟨hc'.trans hc, ht'.trans ht⟩

namespace Machine

variable {σ : Type} {m m' u : Machine σ} {w : Pending} {c : Cursor}

/-- **The way back to the frame** that has `d - 1` frames below it, while the host writes no variables. -/
inductive Regains (d : Nat) : Machine σ → Machine σ → Prop where
  | answered {m u w : Machine σ} {r : Response} (answer : m.answer? r = some u) (rest : Regains d u w) : Regains d m w
  /-- The host does something that concerns neither variables nor frames nor what is waited for: it registers code, asks
  for an interruption, or lets other interpreters use the channel. -/
  | meanwhile {m u w : Machine σ} (memory : u.interp.memory = m.interp.memory)
      (status : u.interp.status = m.interp.status) (rest : Regains d u w) : Regains d m w
  | tick {m w : Machine σ} (running : m.Running) (quiet : m.Hosts Eq) (above : d < m.stack.depth)
      (stays : d < m.tick.stack.depth) (rest : Regains d m.tick w) : Regains d m w
  | returned {m m' : Machine σ} (running : m.Running) (quiet : m.Hosts Eq) (above : d < m.stack.depth)
      (halted : m.interp.halted = false) (step : Engine.step m = .ok () m') (depth : m.tick.stack.depth = d)
      (goesOn : m.tick.Running) : Regains d m m.tick

theorem Regains.not_stopped {d : Nat} (h : Regains d m u) : m.interp.status ≠ .stopped := by
  induction h with
  | answered ha =>
    intro hstop
    obtain ⟨hold, hst, _⟩ := answer?_spec ha
    cases hstop.symm.trans hst
  | meanwhile _ hst _ ih => exact fun hstop => ih (hst.trans hstop)
  | tick hrun => exact fun hstop => (by cases hstop.symm.trans hrun)
  | returned hrun => exact fun hstop => (by cases hstop.symm.trans hrun)

structure Secludes (w : Pending) (c : Cursor) (m : Machine σ) : Prop where
  isolates : Memory.Isolates w m.interp.memory
  begins : m.stack.Begins (w.callers.length + 1) c
  answers : m.Answers

section

variable (h : Secludes w c m)
include h

theorem Secludes.shares {a : Memory} {names : List Text} (ha : m.sharing a names)
    (hlen : a.2.callers.length = w.callers.length + 1) : names = c.exposes := by
  obtain ⟨rfl, hfirst, c', pos, habout⟩ := ha
  have htop : m.stack.frameAt? (w.callers.length + 1) = some m.top :=
    hlen ▸ frameAt?_top m.top m.stack.callers
  obtain ⟨hcursors, -⟩ := h.begins _ htop hfirst
  have hc := habout.cursor
  rw [hcursors] at hc
  cases hc
  unfold Cursor.exposes
  rw [habout.stmt]

variable (hvars : w.vars = (· ∈ c.exposes)) (hstems : w.stems = (· ∈ exposedStems c.exposes))

include hvars hstems in
theorem Secludes.tick (hloop : c.loop = none) (hrun : m.Running) (hquiet : m.Hosts Eq)
    (habove : w.callers.length + 1 < m.stack.depth) (hstays : w.callers.length + 1 < m.tick.stack.depth)
    (hgo : m.tick.interp.status ≠ .stopped) : Secludes w c m.tick := by
  have hshifts := tick_shifts hquiet hgo
  unfold depth at habove hstays
  refine ⟨?_, h.begins.upheld (tick_upholds (by omega) ?_ hgo), tick_answers hrun⟩
  · refine Moves.isolates (A := m.sharing) ?_ (moves_lower (by omega) hshifts.moves) h.isolates
    intro a names ha hlen
    rw [h.shares ha hlen, hvars, hstems]
    exact ⟨fun _ => id, fun _ => id⟩
  · intro hn hz c' hc'
    obtain ⟨hcursors, -⟩ := h.begins _ (hn ▸ frameAt?_top m.top m.stack.callers) hz
    rw [hcursors] at hc'
    cases hc'
    exact hloop

theorem Secludes.answered {r : Response} (ha : m.answer? r = some u) :
    Secludes w c u ∧ u.stack.depth = m.stack.depth := by
  obtain ⟨⟨site, r', hmem⟩, hrun⟩ := answered_settle h.answers ha
  have hstack : u.stack = (m.settle site r').stack := congrArg Prod.snd hmem
  refine ⟨⟨?_, ?_, .of_running hrun⟩, ?_⟩
  · rw [hmem]
    exact Moves.isolates (A := fun _ _ => False) (fun _ _ hf => hf.elim) (settle_moves m site r') h.isolates
  · rw [hstack]
    exact h.begins.upheld (by rw [settle_eq]; exact .of_kept (.refl _) fun _ => .of_eq rfl rfl rfl)
  · rw [hstack, settle_eq]
    rfl

theorem Secludes.meanwhile (hmem : u.interp.memory = m.interp.memory)
    (hst : u.interp.status = m.interp.status) : Secludes w c u := by
  have hstack : u.stack = m.stack := congrArg Prod.snd hmem
  refine ⟨hmem ▸ h.isolates, hstack ▸ h.begins, fun hold hh => ?_⟩
  rw [hstack]
  exact h.answers hold (hst ▸ hh)

def handed (needsValue : Bool) (value : Option Text) (v : Variables) : Variables :=
  if needsValue then v
  else match value with
    | some value => v.set "RESULT" value
    | none => v.drop "RESULT"

omit h in
theorem handBack_handed {k : Caller} {value : Option Text} (hd : (k.needsValue && value.isNone) = false)
    (hb : handBack k value m = .ok () m') :
    m'.interp.vars = handed k.needsValue value m.interp.vars ∧
      m'.top = { m.top with
        pool := m'.top.pool, memo := m'.top.memo } := by
  simp only [handBack, hd] at hb
  cases hn : k.needsValue with
  | true =>
    rw [hn] at hb
    cases hb
    exact ⟨rfl, rfl⟩
  | false =>
    rw [hn] at hb
    cases hb
    cases value with
    | some value => exact ⟨rfl, rfl⟩
    | none => exact ⟨rfl, rfl⟩

structure Returned (w : Pending) (m : Machine σ) : Prop where
  frame : m.top = { w.frame with pool := m.top.pool, memo := m.top.memo }
  vars : ∃ st top p value, Memory.Isolated w st top [] p ∧ m.interp.vars = handed w.needsValue value ⟨st, p⟩

theorem Secludes.returned (hquiet : m.Hosts Eq) (hh : m.interp.halted = false) (hstep : step m = .ok () m')
    (habove : w.callers.length + 1 < m.stack.depth) (hdepth : m.tick.stack.depth = w.callers.length + 1)
    (hgo : m.tick.Running) : Returned w m.tick := by
  have htick : m.tick = m'.modifyInterp fun i => i.completeStep m.stack.depth := by simp [Machine.tick, hh, hstep]
  have hlen : m'.stack.callers.length = w.callers.length := by
    rw [htick, depth, completeStep_length] at hdepth
    omega
  unfold depth at habove
  have hsame : m.tick = m' := by
    rw [htick]
    refine congrArg (fun i => Machine.mk i _ _ _ _) (if_neg ?_)
    show ¬ m'.stack.depth = _
    unfold depth
    omega
  -- the step has left one frame, and not by its own clause
  have hlocal : Proceeds step m := step_proceeds fun c s hs => by
    by_contra hr
    have hlen' := ((step_reaches m.hosts_any hs (by simpa using hr)).ok hstep).2
    omega
  rw [hsame] at hgo ⊢
  cases hlocal.ok hstep with
  | stays hl =>
    have := hl.length_eq
    omega
  | stopped _ he => cases he.status.symm.trans hgo
  | @returned m0 k ks value hl hc hd hb =>
    obtain ⟨hvars, htop⟩ := handBack_handed hd hb
    have hiso : Isolates w m0.interp.memory :=
      Moves.isolates (A := fun _ _ => False) (fun _ _ hf => hf.elim) ((hl.writes Eq hquiet).moves) h.isolates
    obtain ⟨above, p, hcallers, hi⟩ := hiso
    have hks : ks.length = w.callers.length := by
      have hback := (handBack_local hb).length_eq
      exact hback.symm.trans hlen
    have hcallers' : k :: ks = above ++ w.caller p :: w.callers := hc.symm.trans hcallers
    cases above with
    | cons k' above =>
      have := congrArg length hcallers'
      simp only [length_append, length_cons] at this
      omega
    | nil =>
      obtain ⟨rfl, -⟩ := cons.inj hcallers'
      exact ⟨htop, _, _, p, value, hi, hvars⟩

include hvars hstems in
theorem Secludes.regains (hloop : c.loop = none) (habove : w.callers.length + 1 < m.stack.depth)
    (hback : Regains (w.callers.length + 1) m u) : Returned w u := by
  induction hback with
  | answered ha _ ih =>
    obtain ⟨h', hd⟩ := h.answered ha
    exact ih h' (hd ▸ habove)
  | meanwhile hmem hst _ ih =>
    have hdepth := congrArg (fun a => a.2.depth) hmem
    exact ih (h.meanwhile hmem hst) (lt_of_lt_of_eq habove hdepth.symm)
  | tick hrun hquiet _ hstays hrest ih =>
    exact ih (h.tick hvars hstems hloop hrun hquiet habove hstays hrest.not_stopped) hstays
  | returned _ hquiet _ hh hstep hd hgo => exact h.returned hquiet hh hstep habove hd hgo

end

theorem Returned.get? {x : Text} (h : Returned w m) (hx : ¬ w.vars x) (hr : w.needsValue = true ∨ x ≠ "RESULT") :
    m.interp.vars.get? x = get? ⟨w.store, w.frame.pool⟩ x := by
  obtain ⟨st, top, p, value, hi, hv⟩ := h.vars
  rw [hv, ← hi.get? hx]
  unfold handed
  split
  · rfl
  · rename_i hn
    have hne : ("RESULT" : Text) ≠ x := fun he => hr.elim hn fun hx => hx he.symm
    have hcell : ∀ i, p.var? x = some i → p.var? "RESULT" ≠ some i := fun i hxi hri =>
      hne ((hi.cell hx hxi).2 _ hri).symm
    cases value with
    | some value => exact get?_set_of_ne value hne (fun i hxi => (hi.cell hx hxi).1.ne) hcell
    | none => exact get?_drop_of_ne hcell

theorem Returned.stem? {x : Text} (h : Returned w m) (hx : ¬ w.stems x) :
    m.interp.vars.stem? x = stem? ⟨w.store, w.frame.pool⟩ x := by
  obtain ⟨st, top, p, value, hi, hv⟩ := h.vars
  rw [hv, ← hi.stem? hx]
  unfold handed
  split
  · rfl
  · cases value with
    | some value => exact stem?_set _ _ _ _
    | none => exact stem?_drop _ _ _

/-! ## Calls -/

theorem entered_of_deeper (hdeeper : m.stack.depth < m.tick.stack.depth)
    (hgo : m.tick.interp.status ≠ .stopped) :
    ∃ m0 k i a needsValue, m.Local m0 ∧ m.tick = m0.enter k i a needsValue := by
  unfold depth at hdeeper
  unfold tick at hdeeper hgo ⊢
  split
  · rename_i hh
    rw [if_pos hh] at hdeeper hgo
    have hlen := raise_length (m.modifyInterp fun i => { i with halted := false }) _ hgo
    exact absurd hdeeper (not_lt.2 (Nat.succ_le_succ hlen))
  · rename_i hh
    rw [if_neg hh] at hdeeper hgo
    cases hstep : step m with
    | ok v m' =>
      rw [hstep] at hdeeper hgo
      rw [completeStep_length] at hdeeper
      have hlen : m'.stack.callers.length ≤ m.stack.callers.length := by
        cases (step_leads m).ok hstep with
        | steady h => exact h.callers.length_eq.ge
        | @returned m0 k ks _ h hr =>
          have hlen0 := h.callers.length_eq
          rw [hr.callers] at hlen0
          rw [hr.stack, hlen0]
          exact Nat.le_succ _
        | stopped _ _ hst _ => exact absurd ((completeStep_leads m'.interp _).2.1.trans hst) hgo
      omega
    | error e m' =>
      rw [hstep] at hdeeper hgo
      cases e with
      | raised c =>
        have hlen : m'.stack.callers.length ≤ m.stack.callers.length := by
          cases (step_leads m).raised hstep with
          | steady h => exact h.callers.length_eq.ge
          | @left m0 k ks h hc he =>
            have hlen0 := h.callers.length_eq
            rw [hc] at hlen0
            rw [he, hlen0]
            exact Nat.le_succ _
        exact absurd hdeeper (not_lt.2 (Nat.succ_le_succ ((raise_length m' c hgo).trans hlen)))
      | suspended =>
        have hlocal : Proceeds step m := step_proceeds fun c s hs => by
          by_contra hr
          exact (step_reaches m.hosts_any hs (by simpa using hr)).suspended hstep
        cases hlocal.suspended hstep with
        | @entered m0 k i a needsValue h _ _ he => exact ⟨m0, k, i, a, needsValue, h, he⟩
        | @held m0 _ _ h _ _ hh =>
          obtain ⟨⟨id, channel⟩, _, rfl⟩ := Option.map_eq_some_iff.1 hh
          exact absurd hdeeper (not_lt.2 (Nat.succ_le_succ h.length_eq.le))
        | refused h => exact absurd hdeeper (not_lt.2 (Nat.succ_le_succ h.length_eq.le))

/-- What the routine being executed exposes by the clause that it is at. -/
def exposed (m : Machine σ) : List Text := (m.top.cursors.head?.map Cursor.exposes).getD []

/-- **Routines keep to their own variables.** A clause of a running script calls a routine, and some time later, after
any number of ticks and answers of the host, the routine returns to it. -/
theorem routine_isolated {m w : Machine σ} (hm : m.Reached) (hrun : m.Running) (hhosts : m.Hosts Variables.Grows)
    (hcall : m.stack.depth < m.tick.stack.depth) (hback : Regains m.stack.depth m.tick w) :
    ∃ m0 site label args needsValue, m.Local m0 ∧ m.tick = m0.enter site label args needsValue ∧
      (∀ x, x ∉ m.tick.exposed → needsValue = true ∨ x ≠ "RESULT" →
        w.interp.vars.get? x = m0.interp.vars.get? x) ∧
      (∀ stem, stem ∉ exposedStems m.tick.exposed → w.interp.vars.stem? stem = m0.interp.vars.stem? stem) ∧
      w.top.target = m0.top.target ∧ w.top.args = m0.top.args ∧
      w.top.traps = m0.top.traps := by
  obtain ⟨m0, site, label, args, needsValue, hlocal, htick⟩ := entered_of_deeper hcall hback.not_stopped
  refine ⟨m0, site, label, args, needsValue, hlocal, htick, ?_⟩
  have htidy : m0.interp.memory.Tidy :=
    Memory.Moves.tidy (A := fun _ _ => True) (d := 0) (hlocal.writes _ hhosts).moves hm.tidy.1
  have hlen : m.stack.depth = m0.stack.callers.length + 1 := congrArg (· + 1) hlocal.length_eq.symm
  rw [htick, hlen] at hback
  -- the frame of the clause waits, and the routine is at its first clause
  let c : Cursor := .at m0.interp.program.body (label + 1) none
  let p : Pending := ⟨m0.interp.store, m0.top, site, needsValue, m0.stack.callers,
    (· ∈ c.exposes), (· ∈ exposedStems c.exposes)⟩
  have hexposed : m.tick.exposed = c.exposes := by
    rw [htick]
    rfl
  have hentered : Memory.Isolates p (m0.enter site label args needsValue).interp.memory := by
    have hpush : Memory.Isolates p (m0.interp.store, ⟨{ Frame.fresh with
        target := m0.top.target, args, cursors := [c] }, ⟨p.frame, p.site, p.needsValue⟩ :: p.callers⟩) :=
      Memory.isolates_entered rfl (htidy.pool List.mem_cons_self)
    exact Memory.Move.isolates (A := fun _ _ => False) (fun _ _ hf => hf.elim) (.write (.vars (.set _ _ _))) hpush
  have hsecludes : Secludes p c (m0.enter site label args needsValue) := by
    refine ⟨hentered, ?_, ?_⟩
    · intro f hf _
      have htop : (m0.enter site label args needsValue).stack.frameAt? (p.callers.length + 1) = some _ :=
        Stack.frameAt?_top _ (_ :: p.callers)
      cases htop.symm.trans hf
      exact ⟨rfl, rfl⟩
    · rw [← htick]
      exact tick_answers hrun
  have hreturned := hsecludes.regains rfl rfl rfl (Nat.lt_succ_self _) hback
  rw [hexposed]
  exact ⟨fun x hx hr => hreturned.get? hx hr, fun stem hs => hreturned.stem? hs, by rw [hreturned.frame],
    by rw [hreturned.frame], by rw [hreturned.frame]⟩

def idle : Machine Unit := ⟨.fresh 0, ∅, .empty, ⟨0, ⟨#[], 0⟩, [], []⟩, ()⟩

def calling : Machine Unit :=
  ((idle.start "x = 1\ncall f\nexit\nf:\nprocedure expose y\nx = 2\ny = 3\nreturn x" [] []).toOption.getD idle).tick

theorem follow_nil {α : Type} (dir parts path : List Text) (content : α) :
    Files.follow [] dir parts ≠ some (.file path content) := by
  induction parts generalizing dir with
  | nil => exact fun h => (by cases h)
  | cons part rest ih =>
    unfold Files.follow
    split
    · exact ih dir
    · split
      · split
        · exact fun h => (by cases h)
        · exact ih _
      · dsimp only
        split
        · exact ih _
        · exact fun h => (by cases h)

theorem idle_hosts (H : Policy) : idle.Hosts H where
  provisions :=
    ⟨fun _ _ h => (by simp [idle, Interpreter.fresh] at h), fun _ _ h => (by simp [idle, Interpreter.fresh] at h),
      fun _ _ h => (by simp [idle] at h)⟩
  loader := by
    refine ⟨fun _ h => (by cases h), fun _ _ h => (by simp [idle, Interpreter.fresh, Loader.empty] at h), ?_⟩
    intro path place content d h
    unfold Files.find? at h
    split at h
    · cases h
    · cases h
    · exact absurd h (follow_nil _ _ _ _)

theorem start_idle (source name : Text) (args : Args) : ((idle.start source name args).toOption.getD idle).Reached ∧
      ∀ H, ((idle.start source name args).toOption.getD idle).Hosts H := by
  unfold start
  cases Program.parse source name with
  | error e => exact ⟨.fresh rfl, idle_hosts⟩
  | ok p => exact ⟨.begin p args (.fresh rfl), fun H => ⟨(idle_hosts H).provisions, (idle_hosts H).loader⟩⟩

theorem calling_run :
    (calling.Running ∧ calling.tick.Running ∧ calling.tick.tick.Running ∧ calling.tick.tick.tick.Running ∧
      calling.tick.tick.tick.tick.Running ∧ calling.tick.tick.tick.tick.tick.Running) ∧
    [calling, calling.tick, calling.tick.tick, calling.tick.tick.tick, calling.tick.tick.tick.tick,
      calling.tick.tick.tick.tick.tick].map (fun m => m.stack.depth) = [1, 2, 2, 2, 2, 1] := by
  unfold Running
  decide +kernel

theorem routine_isolated_calling :
    calling.Reached ∧ calling.Running ∧ calling.Hosts Variables.Grows ∧
    calling.stack.depth < calling.tick.stack.depth ∧
    Regains calling.stack.depth calling.tick calling.tick.tick.tick.tick.tick ∧
    ∃ m0 site label args needsValue, calling.Local m0 ∧ calling.tick = m0.enter site label args needsValue ∧
      calling.tick.tick.tick.tick.tick.interp.vars.get? "X" = m0.interp.vars.get? "X" := by
  obtain ⟨⟨h0, h1, h2, h3, h4, h5⟩, hdepths⟩ := calling_run
  simp only [List.map_cons, List.map_nil, List.cons.injEq, and_true] at hdepths
  obtain ⟨d0, d1, d2, d3, d4, d5⟩ := hdepths
  have hstart := start_idle "x = 1\ncall f\nexit\nf:\nprocedure expose y\nx = 2\ny = 3\nreturn x" [] []
  have hreached : calling.Reached := .tick (by decide +kernel) (hstart.2 _) hstart.1
  have hosts : ∀ H, calling.Hosts H := fun H => (tick_shifts (hstart.2 H) (by rw [← calling, h0]; exact nofun)).hosts
  have hosts1 : ∀ H, calling.tick.Hosts H := fun H => (tick_shifts (hosts H) (by rw [h1]; exact nofun)).hosts
  have hosts2 : ∀ H, calling.tick.tick.Hosts H := fun H => (tick_shifts (hosts1 H) (by rw [h2]; exact nofun)).hosts
  have hosts3 : ∀ H, calling.tick.tick.tick.Hosts H := fun H => (tick_shifts (hosts2 H) (by rw [h3]; exact nofun)).hosts
  have hosts4 : ∀ H, calling.tick.tick.tick.tick.Hosts H := fun H =>
    (tick_shifts (hosts3 H) (by rw [h4]; exact nofun)).hosts
  have hcall : calling.stack.depth < calling.tick.stack.depth := by omega
  have hback : Regains calling.stack.depth calling.tick calling.tick.tick.tick.tick.tick := by
    refine .tick h1 (hosts1 Eq) (by omega) (by omega) (.tick h2 (hosts2 Eq) (by omega) (by omega) ?_)
    refine .tick h3 (hosts3 Eq) (by omega) (by omega) ?_
    cases hstep : Engine.step calling.tick.tick.tick.tick with
    | ok v m' => exact .returned h4 (hosts4 Eq) (by omega) (by decide +kernel) hstep (by omega) h5
    | error e m' =>
      have hok : (match Engine.step calling.tick.tick.tick.tick with
        | .ok _ _ => true
        | .error _ _ => false) = true := by decide +kernel
      rw [hstep] at hok
      cases hok
  refine ⟨hreached, h0, hosts _, hcall, hback, ?_⟩
  obtain ⟨m0, site, label, args, needsValue, hlocal, htick, hvars, -⟩ := routine_isolated hreached h0 (hosts _) hcall hback
  exact ⟨m0, site, label, args, needsValue, hlocal, htick, hvars "X" (by decide +kernel) (.inr (by decide))⟩

end Machine

end Rexx
