import Rexx.Proofs.Trap.Causes
import Rexx.Proofs.Trap.Unwinding

/-!
# `Trap.Discipline` — traps take what they are set for, once

A failure, and a variable without a value, raise a condition only where some frame has a trap for it, so neither ever
ends the script (`Machine.trap_discipline`).
-/

namespace Rexx

open Engine

namespace Engine

variable {σ : Type} {m m1 m' : Machine σ} {r : Outcome}

/-! ## Failures, with and without a trap -/

theorem check_of_failed (hr : r.success = false) (m : Machine σ) :
    check r m = if m.stack.traps (failureEvent r) then .error (.raised (failureOf r)) m else .ok () m := by
  rw [check_apply, hr]
  rfl

theorem eval_symbol_of_unset {site : Site} {name : Text} (hmemo : m.top.memo.lookup site = none)
    (hunset : m.interp.vars.peek? name = none) (hname : isConstant name = false)
    (hfatal : m.interp.options.noValueFatal = false) :
    eval site (.symbol name) m =
      if m.stack.traps .novalue then
        .error (.raised (Fault.noValue (m.interp.vars.derivedName name)).condition) m
      else .ok (m.interp.vars.derivedName name) (m.note site (m.interp.vars.derivedName name)) := by
  have hfetch : fetch name m = if m.stack.traps .novalue then
      .error (.raised (Fault.noValue (m.interp.vars.derivedName name)).condition) m
      else .ok (m.interp.vars.derivedName name) m := by
    rw [fetch, bind_of_ok (interp_apply m), hunset]
    simp only [hname, hfatal, Bool.false_eq_true, if_false]
    split <;> rfl
  cases htraps : m.stack.traps .novalue with
  | true =>
    rw [htraps] at hfetch
    exact remember_of_error hmemo hfetch
  | false =>
    rw [htraps] at hfetch
    exact remember_of_ok hmemo hfetch

theorem callMethod_of_failed {site : Site} {target name : Text} {a : Args}
    (hd : dispatch site target name (a.mapIdx fun i value => (Text.ofNat (i + 1), value)) true m = .ok r m')
    (hr : r.success = false) :
    callMethod site target name a m =
      if m'.stack.traps (failureEvent r) then .error (.raised (failureOf r)) m' else .ok r.output m' := by
  rw [callMethod, bind_of_ok hd, bind_apply, check_of_failed hr]
  cases m'.stack.traps (failureEvent r) <;> rfl

theorem send_of_failed {name cmd : Text} {params : Params} {method : Bool}
    (hd : dispatch [] name cmd params method m = .ok r m') (hr : r.success = false) : send name cmd params method m =
      if m'.stack.traps (failureEvent r) then .error (.raised (failureOf r)) (m'.modifyTop Frame.advance)
      else .ok () (m'.modifyTop Frame.advance) := by
  rw [send, bind_of_ok hd]
  exact (bind_of_ok (modifyTop_apply Frame.advance m')).trans (check_of_failed hr _)

theorem execCommand_of_failed {site : Site} {x : Expr} {b : Binding σ} {name cmd : Text}
    (hb : m.binding? m.top = some b) (hname : m.top.target = some name)
    (hcmd : commandText site (some b) x m = .ok cmd m1) (hd : dispatch [] name cmd [] false m1 = .ok r m')
    (hr : r.success = false) :
    execCommand site x m =
      if m'.stack.traps (failureEvent r) then
        .error (.raised (failureOf r)) (m'.modifyTop Frame.advance)
      else .ok () (m'.modifyTop Frame.advance) := by
  rw [execCommand_apply, hb, bind_of_ok hcmd, commandee?, hb, hname]
  exact send_of_failed hd hr

theorem operate_of_failed {name target : Text} {params : Params}
    (hop : m.interp.operations[name]? = none) (htarget : targetWith? name m = .ok (some target) m)
    (hd : dispatch [] target name params true m = .ok r m') (hr : r.success = false) :
    operate name params m =
      if m'.stack.traps (failureEvent r) then
        .error (.raised (failureOf r)) (m'.modifyTop Frame.advance)
      else .ok () (m'.modifyTop Frame.advance) := by
  rw [operate, bind_of_ok (interp_apply m), hop]
  dsimp only
  rw [bind_of_ok htarget]
  exact send_of_failed hd hr

end Engine

/-! ## Runs -/

namespace Machine

variable {σ : Type} {n : Nat} {t : Event} {m u : Machine σ} {c : Condition}

/-- **A step of a run.** -/
inductive Next (m u : Machine σ) : Prop where
  | tick (running : m.Running) (next : u = m.tick)
  /-- The host answers, assigns variables, registers code or does something else: no trap is changed, and a script that has
  ended does not go on. -/
  | meanwhile (traps : u.stack.frames.map Frame.traps = m.stack.frames.map Frame.traps)
      (ended : m.interp.status = .stopped → u.interp.status = .stopped)

theorem step_of_raised? {i : Interpreter σ} (hh : m.interp.halted = false) (h : m.raised? = some (i, c)) :
    ∃ m', step m = .error (.raised c) m' ∧ m'.interp = i := by
  unfold raised? at h
  rw [hh] at h
  simp only [Bool.false_eq_true, if_false] at h
  split at h
  · rename_i hstep
    cases h
    exact ⟨_, hstep, rfl⟩
  · cases h

variable {run : Nat → Machine σ}

theorem stopped_of_le (hrun : ∀ i, (run i).Next (run (i + 1))) {j b : Nat} (hjb : j ≤ b)
    (h : (run j).interp.status = .stopped) : (run b).interp.status = .stopped := by
  induction b, hjb using Nat.le_induction with
  | base => exact h
  | succ b _ ih =>
    cases hrun b with
    | tick hr _ =>
      rw [Running, ih] at hr
      cases hr
    | meanwhile _ hended => exact hended ih

theorem exists_setsTrap (hrun : ∀ i, (run i).Next (run (i + 1))) {a b : Nat} (hab : a ≤ b)
    (hoff : ¬ (run a).stack.Armed n t) (hgo : (run b).interp.status ≠ .stopped)
    (hon : (run b).stack.Armed n t) :
    ∃ j, a ≤ j ∧ j < b ∧ run (j + 1) = (run j).tick ∧ (run j).SetsTrap n t ∧
      ∀ i, j ≤ i → i ≤ b → n ≤ (run i).stack.callers.length := by
  induction b, hab using Nat.le_induction with
  | base => exact absurd hon hoff
  | succ b hab ih =>
    have hgo_b : (run b).interp.status ≠ .stopped := fun hst => hgo (stopped_of_le hrun (Nat.le_succ b) hst)
    by_cases hon_b : (run b).stack.Armed n t
    · -- It was set before, and the frame is still there.
      obtain ⟨j, haj, hjb, htick, hsets, hthere⟩ := ih hgo_b hon_b
      refine ⟨j, haj, by omega, htick, hsets, fun i hji hib => ?_⟩
      obtain hib | rfl := Nat.lt_or_eq_of_le hib
      · exact hthere i hji (by omega)
      · exact hon.le
    · -- It has just been set.
      cases hrun b with
      | meanwhile htraps _ => exact absurd (hon.of_traps_eq htraps) hon_b
      | tick hr hnext =>
        rw [hnext] at hgo hon
        obtain hset | hsets := tick_armed hr hgo hon
        · exact absurd hset hon_b
        · refine ⟨b, hab, Nat.lt_succ_self b, hnext, hsets, fun i hji hib => ?_⟩
          obtain rfl | hlt := Nat.eq_or_lt_of_le hji
          · exact hsets.place.ge
          · obtain rfl : i = b + 1 := by omega
            rw [hnext]
            exact hon.le

theorem traps_of_causes (h : m.Causes (fun _ _ => True) c) (hfatal : m.interp.options.noValueFatal = false)
    (hhost : ¬ m.Throws c) (hevent : c.event = .error ∨ c.event = .failure ∨ c.event = .novalue) :
    c.trappable = true ∧ m.stack.traps c.event = true := by
  cases h with
  | fault hs =>
    have hs' : (Fault.condition _).event = .syntaxError := hs
    rw [hs'] at hevent
    simp at hevent
  | unset name htraps => exact ⟨rfl, htraps⟩
  | uninitialized name hf =>
    rw [hfatal] at hf
    cases hf
  | failed _ htraps => exact ⟨rfl, htraps⟩
  | thrown ht => exact absurd ht hhost

theorem local_of_raised {m' : Machine σ} (hstep : step m = .error (.raised c) m')
    (hdepth : m'.stack.depth = m.stack.depth) : m.Local m' := by
  have hfails : m.LocalFails m' := by
    obtain ⟨c, s, hs, hr⟩ | hlocal := m.reaches_or_proceeds
    · exact (step_reaches m.hosts_any hs hr).raised hstep
    · exact hlocal.raised hstep
  cases hfails with
  | stays h => exact h
  | @left m0 k ks h hc he =>
    subst he
    have hlen := h.length_eq
    rw [hc, List.length_cons] at hlen
    have hd : ks.length + 1 = m.stack.callers.length + 1 := hdepth
    omega

/-- **Trap discipline.** A condition for which a frame has a trap goes to the topmost such frame, whatever it is. A
command or method that failed, and a variable without a value, are raised exactly if there is such a frame, and
otherwise the clause goes on; so unless code of the host throws it, no condition of these kinds ends the script. -/
theorem trap_discipline {σ : Type} :
    (∀ (i : Interpreter σ) (c : Condition), c.trappable = true → i.stack.traps c.event = true →
      i.Diverts c (i.raise c)) ∧
    (∀ (m m' : Machine σ) (c : Condition), m.interp.halted = false → m.interp.options.noValueFatal = false →
      Engine.step m = .error (.raised c) m' → ¬ m'.Throws c →
      c.event = .error ∨ c.event = .failure ∨ c.event = .novalue →
        m'.interp.status = m.interp.status ∧
        m'.stack.frames.map Frame.traps = m.stack.frames.map Frame.traps ∧
        m'.interp.Diverts c m.tick.interp) ∧
    (∀ (m : Machine σ) (site : Site) (name : Text), m.top.memo.lookup site = none →
      m.interp.vars.peek? name = none → Engine.isConstant name = false → m.interp.options.noValueFatal = false →
        Engine.eval site (.symbol name) m =
          if m.stack.traps .novalue then
            .error (.raised (Fault.noValue (m.interp.vars.derivedName name)).condition) m
          else .ok (m.interp.vars.derivedName name) (m.note site (m.interp.vars.derivedName name))) ∧
    (∀ (m m' : Machine σ) (site : Site) (target name : Text) (a : Args) (r : Outcome),
      Engine.dispatch site target name (a.mapIdx fun i value => (Text.ofNat (i + 1), value)) true m = .ok r m' →
      r.success = false →
        Engine.callMethod site target name a m =
          if m'.stack.traps (Engine.failureEvent r) then .error (.raised (Engine.failureOf r)) m'
          else .ok r.output m') ∧
    (∀ (m m1 m' : Machine σ) (site : Site) (x : Expr) (b : Binding σ) (name cmd : Text) (r : Outcome),
      m.binding? m.top = some b → m.top.target = some name →
      Engine.commandText site (some b) x m = .ok cmd m1 → Engine.dispatch [] name cmd [] false m1 = .ok r m' →
      r.success = false →
        Engine.execCommand site x m =
          if m'.stack.traps (Engine.failureEvent r) then
            .error (.raised (Engine.failureOf r)) (m'.modifyTop Frame.advance)
          else .ok () (m'.modifyTop Frame.advance)) ∧
    (∀ (m m' : Machine σ) (name target : Text) (params : Params) (r : Outcome), m.interp.operations[name]? = none →
      Engine.targetWith? name m = .ok (some target) m → Engine.dispatch [] target name params true m = .ok r m' →
      r.success = false →
        Engine.operate name params m =
          if m'.stack.traps (Engine.failureEvent r) then
            .error (.raised (Engine.failureOf r)) (m'.modifyTop Frame.advance)
          else .ok () (m'.modifyTop Frame.advance)) ∧
    ∀ (run : Nat → Machine σ) (a b n : Nat) (t : Event), (∀ i, (run i).Next (run (i + 1))) → a < b →
      run (a + 1) = (run a).tick → (run a).fires? = some (n, t) → (run b).Running → (run b).fires? = some (n, t) →
        ∃ j, a < j ∧ j < b ∧ run (j + 1) = (run j).tick ∧ (run j).SetsTrap n t ∧
          ∀ i, j ≤ i → i ≤ b → n ≤ (run i).stack.callers.length := by
  refine ⟨fun i c hc h => i.raise_diverts hc h, ?_, ?_, ?_, ?_, ?_, ?_⟩
  · intro m m' c hh hfatal hstep hhost hevent
    obtain ⟨hcause, hstrict, hdepth⟩ := Engine.step_explains (F := fun _ _ => True) (fun _ _ => trivial) hstep
    obtain ⟨htrappable, htraps⟩ := traps_of_causes hcause (hstrict.trans hfatal) hhost hevent
    have htick : m.tick.interp = m'.interp.raise c := tick_of_raised? (by simp [raised?, hh, hstep])
    have hlocal : m.Local m' := by
      refine local_of_raised hstep (hdepth.resolve_right ?_)
      -- A routine without a value is a fault of the clause.
      rintro rfl
      revert hevent
      decide
    refine ⟨hlocal.status, hlocal.traps_eq, ?_⟩
    rw [htick]
    exact m'.interp.raise_diverts htrappable htraps
  · exact fun m site name => Engine.eval_symbol_of_unset
  · exact fun m m' site target name a r => Engine.callMethod_of_failed
  · exact fun m m1 m' site x b name cmd r => Engine.execCommand_of_failed
  · exact fun m m' name target params r => Engine.operate_of_failed
  · intro run a b n t hrun hab htick hfirst hgo hsecond
    have hgo_b : (run b).interp.status ≠ .stopped := by
      rw [hgo]
      exact nofun
    have hoff : ¬ (run (a + 1)).stack.Armed n t := by
      have hgo_a : (run (a + 1)).interp.status ≠ .stopped := fun hst => hgo_b (stopped_of_le hrun hab hst)
      rw [htick] at hgo_a ⊢
      exact not_armed_of_fires hfirst hgo_a
    obtain ⟨j, haj, hrest⟩ := exists_setsTrap hrun hab hoff hgo_b (armed_of_fires hsecond)
    exact ⟨j, haj, hrest⟩

def failing : Target Unit :=
  ⟨0, "T", true, true, false, [], fun _ _ _ => pure (.now (.failed "no" 3))⟩

def troubled : Machine Unit :=
  let m := idle.start "signal on error\naddress t 'work'\nexit\nerror:\nsignal on error\n'again'" [] []
  { m.toOption.getD idle with targets := (∅ : Registry Unit).insert "T" ⟨failing, [], []⟩ }

theorem troubled_run : ((troubled.run 1).interp.status = .running ∧ (troubled.run 3).interp.status = .running) ∧
    ((troubled.run 1).fires? = some (0, .error) ∧ (troubled.run 3).fires? = some (0, .error)) ∧
    (troubled.run 1).interp.halted = false ∧ (troubled.run 1).interp.options.noValueFatal = false ∧
    ((troubled.run 1).raised?.map fun q => (q.2.event, q.1.functions.isEmpty, q.1.operations.isEmpty)) =
      some (.error, true, true) := by
  decide +kernel

theorem dispatch_failing {m : Machine Unit} {site : Site} (hn : m.top.replies.lookup site = none)
    (ht : m.targets[("T" : Text)]? = some ⟨failing, [], []⟩) (cmd : Text) (params : Params) (method : Bool) :
    dispatch site "T" cmd params method m =
      .ok (.failed "no" 3) ((m.afterHost m.hostView).settle site (.failed "no" 3)) := by
  rw [dispatch_apply, hn, ht]
  cases method <;> rfl

def helpless : Machine Unit :=
  { idle with
    interp := { idle.interp with stack := ⟨{ Frame.fresh with target := some "T" }, []⟩ }
    targets := (∅ : Registry Unit).insert "T" ⟨failing, [], []⟩ }

theorem trap_discipline_troubled :
    (∃ j, 1 < j ∧ j < 3 ∧ (troubled.run j).SetsTrap 0 .error) ∧
    (∃ m' c, Engine.step (troubled.run 1) = .error (.raised c) m' ∧ m'.interp.Diverts c (troubled.run 1).tick.interp) ∧
    (∃ m', Engine.eval [0] (.symbol "X") helpless = .ok ("X" : Text) m') ∧
    (∃ m', Engine.callMethod [0] "T" "F" [] helpless = .ok ([] : Text) m') ∧
    (∃ m', Engine.execCommand [0] (.literal "work" none) helpless = .ok () m') ∧
    (∃ m', Engine.operate "F" [] helpless = .ok () m') := by
  obtain ⟨-, hstep, hsymbol, hmethod, hcommand, hoperation, hrun⟩ := trap_discipline (σ := Unit)
  obtain ⟨⟨hgo1, hgo3⟩, ⟨hfires1, hfires3⟩, hhalted, hfatal, hraised⟩ := troubled_run
  have ht : helpless.targets[("T" : Text)]? = some ⟨failing, [], []⟩ := by simp [helpless]
  have hbinding : helpless.binding? helpless.top = some ⟨failing, [], []⟩ := ht
  refine ⟨?_, ?_, ?_, ?_, ?_, ?_⟩
  · have hnext : ∀ i, (troubled.run i).Next (troubled.run (i + 1)) := by
      intro i
      by_cases h : (troubled.run i).Running
      · exact .tick h ((run_succ i troubled).1 h)
      · rw [(run_succ i troubled).2 (not_running_iff.1 h)]
        exact .meanwhile rfl id
    obtain ⟨j, h1, h3, _, hsets, _⟩ :=
      hrun (fun i => troubled.run i) 1 3 0 .error hnext (by decide) ((run_succ 1 troubled).1 hgo1) hfires1 hgo3 hfires3
    exact ⟨j, h1, h3, hsets⟩
  · obtain ⟨⟨i, c⟩, hq, hfacts⟩ := Option.map_eq_some_iff.1 hraised
    obtain ⟨m', hm', rfl⟩ := step_of_raised? hhalted hq
    simp only [Prod.mk.injEq] at hfacts
    obtain ⟨hevent, hfunctions, hoperations⟩ := hfacts
    refine ⟨m', c, hm', (hstep _ m' c hhalted hfatal hm' ?_ (.inl hevent)).2.2⟩
    rintro (⟨hf, _⟩ | ⟨hf, _⟩)
    · rw [Std.TreeMap.getElem?_of_isEmpty hfunctions] at hf
      cases hf
    · rw [Std.TreeMap.getElem?_of_isEmpty hoperations] at hf
      cases hf
  · have h := hsymbol helpless [0] "X" rfl (by decide +kernel) (by decide) rfl
    exact ⟨_, h.trans (if_neg (by decide))⟩
  · have h := hmethod helpless _ [0] "T" "F" [] _ (dispatch_failing rfl ht _ _ _) rfl
    exact ⟨_, h.trans (if_neg (by decide))⟩
  · have h := hcommand helpless helpless _ [0] (.literal "work" none) ⟨failing, [], []⟩ "T" "work" _ hbinding rfl rfl
      (dispatch_failing rfl ht _ _ _) rfl
    exact ⟨_, h.trans (if_neg (by decide))⟩
  · have hnone : helpless.interp.operations[("F" : Text)]? = none := by simp [helpless, idle, Interpreter.fresh]
    have hwith : Engine.targetWith? "F" helpless = .ok (some "T") helpless := by
      rw [Engine.targetWith?_apply, method?, hbinding]
      rfl
    have h := hoperation helpless _ "F" "T" [] _ hnone hwith (dispatch_failing rfl ht _ _ _) rfl
    exact ⟨_, h.trans (if_neg (by decide))⟩

end Machine

end Rexx
