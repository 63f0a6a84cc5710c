import Rexx.Proofs.Clause.Anatomy

/-!
# `Clause.Steps` — what each statement does, and where it leads

What each part of a statement does is one of the acts that `Machine.Act` lists (`enacts_executive`).
-/

namespace Rexx

/-! ## The statement that comes next -/

/-- The machine is about to execute the statement `s` of the block at the cursor `c`. -/
structure Machine.AboutTo {σ : Type} (m : Machine σ) (c : Cursor) (s : Stmt) : Prop where
  cursor : m.top.cursors.head? = some c
  phase : ∀ l, c.loop = some l → l.phase = .body
  stmt : c.block[c.pc]? = some s

namespace Interpreter

variable {σ : Type} (i : Interpreter σ)

theorem announced_again {c : Cursor} {s : Stmt} (hline : i.line = i.lineOf c s) (hr : i.stack.top.replies ≠ []) :
    i.announced c s = i := by
  have htrace : i.traceOf c s = none := by
    unfold traceOf
    rw [List.isEmpty_eq_false_iff.2 hr, Bool.and_false]
    rfl
  unfold announced
  rw [htrace, ← hline]
  simp

end Interpreter

protected abbrev Machine.announced {σ : Type} (m : Machine σ) (c : Cursor) (s : Stmt) : Machine σ :=
  m.modifyInterp fun i => i.announced c s

namespace Engine

variable {σ : Type} {m : Machine σ} {c : Cursor} {s : Stmt}

theorem execAt_apply (c : Cursor) (s : Stmt) (m : Machine σ) : execAt c s m = exec s (m.announced c s) := rfl

theorem step_of_aboutTo (h : m.AboutTo c s) : step m = exec s (m.announced c s) := by
  obtain ⟨cs, hcs⟩ := List.head?_eq_some_iff.1 h.cursor
  have hblock : stepBlock c m = exec s (m.announced c s) := by
    rw [stepBlock, h.stmt]
    rfl
  rw [step, bind_of_ok (top_apply m), hcs]
  dsimp only
  cases hl : c.loop with
  | none => exact hblock
  | some l =>
    dsimp only
    rw [if_pos (h.phase l hl)]
    exact hblock

end Engine

end Rexx

namespace Rexx.Engine

variable {σ α β : Type} {k : Option Clause} {m m' : Machine σ}

/-! ## Blocks and routines -/

theorem leaveBlock_enacts (m : Machine σ) : Enacts k leaveBlock m := .moveCursors m ⟨_, rfl⟩

theorem stop_carries (m : Machine σ) : Carries k stop m :=
  .of_ok rfl (.stopped .refl ⟨rfl, fun f hf => ⟨f, hf, rfl⟩⟩)

theorem exitWith_carries (value : Option Text) (m : Machine σ) : Carries k (exitWith value) m :=
  .of_ok rfl (.stopped .refl ⟨rfl, fun f hf => by
    obtain rfl := List.mem_singleton.1 hf
    exact ⟨_, m.stack.main_mem_frames, rfl⟩⟩)

theorem jump_enacts (label : Text) (m : Machine σ) : Enacts k (jump label) m := by
  refine .bind (.of_same (interp_apply m)) fun i m1 _ => ?_
  dsimp only
  split
  · exact .moveCursors m1 ⟨_, rfl⟩
  · exact .fail _ m1

theorem returnWith_of_nil (hc : m.stack.callers = []) (value : Option Text) : returnWith value m = finish value m := by
  rw [returnWith, bind_of_ok (interp_apply m), hc]

variable {value : Option Text} {c : Caller} (name : Text) (args : List Expr)

theorem returnWith_of_cons {cs : List Caller} (hc : m.stack.callers = c :: cs)
    (value : Option Text) : returnWith value m = handBack c value (popped m c cs) := by
  rw [returnWith, bind_of_ok (interp_apply m), hc]
  exact bind_of_ok (modifyInterp_apply _ m)

theorem handBack_of_noData (hv : (c.needsValue && value.isNone) = true)
    (m : Machine σ) : handBack c value m = .error (.raised Fault.noData.condition) m := by
  simp only [handBack, hv, if_true, bind_apply, fail_apply]

theorem handBack_of_data (hv : (c.needsValue && value.isNone) = false)
    (m : Machine σ) : ∃ store pool, handBack c value m = .ok () (m.modifyInterp fun i =>
      { i with
        store
        stack := i.stack.modifyTop fun f => { f with pool, memo := (c.site, value.getD []) :: f.memo } }) := by
  simp only [handBack, hv]
  cases c.needsValue with
  | true => exact ⟨m.interp.store, m.top.pool, rfl⟩
  | false => exact ⟨_, _, rfl⟩

theorem moves_of_steady (h : m.MovesBy Machine.Steady m') : m.Moves m' := by
  cases h with
  | stays h => exact .steady h
  | @returned m0 c cs value h hc hd hb =>
    obtain ⟨store, pool, hb'⟩ := handBack_of_data hd (popped m0 c cs)
    cases hb.symm.trans hb'
    exact .returned h ⟨hc, rfl, rfl, rfl, rfl, rfl, rfl⟩
  | stopped h he =>
    rw [he.same]
    exact .stopped h.id h.channel rfl h.halted

theorem fails_of_steady (h : m.FailsBy Machine.Steady m') : m.Fails m' := by
  cases h with
  | stays h => exact .steady h
  | left h hc he => exact .left h hc he

theorem returnWith_carries (value : Option Text) (m : Machine σ) : Carries k (returnWith value) m := by
  cases hc : m.stack.callers with
  | nil =>
    refine .of_ok (returnWith_of_nil hc value) (.stopped .refl ⟨rfl, fun f hf => ?_⟩)
    obtain rfl | hf := List.mem_cons.1 hf
    · exact ⟨_, List.mem_cons_self, rfl⟩
    · exact ⟨f, List.mem_cons_of_mem _ hf, rfl⟩
  | cons c cs =>
    cases hv : c.needsValue && value.isNone with
    | true => exact .of_raised ((returnWith_of_cons hc value).trans (handBack_of_noData hv _)) (.left .refl hc rfl)
    | false =>
      obtain ⟨store, pool, hb⟩ := handBack_of_data hv (popped m c cs)
      exact .of_ok ((returnWith_of_cons hc value).trans hb) (.returned .refl hc hv hb)

theorem endBlock_carries (c : Cursor) (m : Machine σ) : Carries k (endBlock c) m := by
  unfold endBlock
  split
  · exact Abides.proceeds (Enacts.moveCursors m ⟨_, rfl⟩)
  · refine .bind (.of_same (interp_apply m)) fun i m1 _ => ?_
    dsimp only
    split
    · exact Abides.proceeds (leaveBlock_enacts m1)
    · split
      · exact returnWith_carries none m1
      · exact .bind (leaveBlock_enacts m1) fun _ m2 _ => stop_carries m2

/-! ## Loops -/

theorem enacts_looping : Looping fun _ (c : Engine σ _) => ∀ m, Enacts k c m where
  pure := .pure
  bind ha hf m := .bind (ha m) fun v m1 _ => hf v m1
  fail _ := .fail _
  numeric m := .of_same (numeric_apply m)
  fetch name m := (fetch_evaluates (S := ∅) name m).enacts
  assign := .assign
  eval i := .eval [i]
  leaveBlock := leaveBlock_enacts
  setLoop _ m := .moveCursors m ⟨_, rfl⟩
  beginRound _ m := .moveCursors m ⟨_, rfl⟩

theorem leaveLoop_enacts (var : Option Text) (again : Bool) (m : Machine σ) : Enacts k (leaveLoop var again) m := by
  refine .bind (.of_same (top_apply m)) fun f m1 _ => ?_
  split
  · exact .fail _ m1
  · exact .moveCursors m1 ⟨_, rfl⟩

/-! ## Targets, operations and routines -/

theorem send_enacts (name cmd : Text) (params : Params) (method : Bool) (m : Machine σ) :
    Enacts k (send name cmd params method) m := by
  refine .bind (dispatch_evaluates (Set.mem_univ []) name cmd params method m).enacts fun r m1 _ => ?_
  exact .bind (.advance m1) fun _ m2 _ => (check_evaluates (S := ∅) r m2).enacts

theorem orFail_eq_ok {r : Except Fault α} {a : α} (h : (orFail r : Engine σ α) m = .ok a m') : r = .ok a ∧ m = m' := by
  cases r with
  | ok b =>
    cases h
    exact ⟨rfl, rfl⟩
  | error f => cases h

theorem switchTo_enacts {name asName : Option Text} {auth cmd : Option Expr}
    (hk : k = some (.address name auth asName cmd)) (token : Text) (m : Machine σ) :
    Enacts k (switchTo (name.getD []) (asName.getD []) token) m := by
  refine .bind (.of_same (get_apply m)) fun m0 m1 h1 => ?_
  cases h1
  refine .bind (.orFail _ m) fun p m2 h2 => ?_
  obtain ⟨hs, rfl⟩ := orFail_eq_ok h2
  exact .bind (.of_act rfl (.switches hk hs)) fun _ m3 _ => .of_act rfl (.aims hk p.2)

theorem execHostOperation_enacts {op : Entry (HostOperation σ)} (params : Params) (m : Machine σ)
    (hop : m.interp.operations[name]? = some op) : Enacts k (execHostOperation name op.code params) m := by
  refine .bind (callHost_evaluates (S := ∅) _ m fun H hm => hm.provisions.operations name op hop params).enacts
    fun r m1 _ => ?_
  cases r with
  | ok value => exact .bind (.advance m1) fun _ m2 _ => .setVar _ value m2
  | error fault =>
    cases fault with
    | condition c => exact .of_raised (throw_apply _ m1) .refl
    | exception message => exact .fail _ m1

theorem callArgs_evaluates (m : Machine σ) (hn : m.top.memo.lookup [] = none) :
    Evaluates Set.univ (evalArgs [] 0 args >>= fun a => call [] name a false false) m := by
  have ha := evalArgs_evaluates [] 0 args m
  refine .bind ha.weaken fun a m1 h1 => (call_evaluates (Site.self_mem_tree []) name a false false m1 ?_).weaken
  exact ((ha.ok h1).top.memo_eq (Site.self_not_mem_inner [])).trans hn

theorem execCall_eq : (execCall name args : Engine σ Unit) =
    (evalArgs [] 0 args >>= fun a => call [] name a false false) >>= fun v => setVar "RESULT" v >>= fun _ => advance :=
  (bind_assoc _ _ _).symm

theorem execCall_enacts (m : Machine σ)
    (hn : m.top.memo.lookup [] = none) : Enacts k (execCall name args) m := by
  rw [execCall_eq]
  refine .bind (callArgs_evaluates name args m hn).enacts fun value m2 _ => ?_
  exact .bind (.setVar _ value m2) fun _ m3 _ => .advance m3

theorem unlessReturned_enacts {c : Engine σ Unit} (hc : m.top.memo.lookup [] = none → Enacts k c m) :
    Enacts k (unlessReturned c) m := by
  cases hn : m.top.memo.lookup [] with
  | some v => exact (Enacts.advance m).congr (orNoted_of_some hn)
  | none => exact (hc hn).congr (orNoted_of_none hn)

theorem execRoutine_enacts (m : Machine σ) : Enacts k (execRoutine name args) m := by
  refine unlessReturned_enacts fun hn => ?_
  refine .bind (.of_same (interp_apply m)) fun i m1 h1 => ?_
  cases h1
  dsimp only
  cases ho : if args.isEmpty then m.interp.operations[name]? else none with
  | some op => exact execHostOperation_enacts name [] m (Option.ite_none_right_eq_some.1 ho).2
  | none => exact execCall_enacts name args m hn

theorem execOperation_enacts (params : List (Text × Expr)) (m : Machine σ) :
    Enacts k (execOperation name params) m := by
  refine unlessReturned_enacts fun _ => ?_
  refine .bind (evalArgs_evaluates [] 0 _ m).enacts fun values m1 _ => ?_
  refine .bind (.of_same (interp_apply m1)) fun i m2 h2 => ?_
  cases h2
  split
  · rename_i op ho
    exact execHostOperation_enacts name _ m1 ho
  · refine .bind (.of_same (targetWith?_apply name m1)) fun t m3 _ => ?_
    split
    · exact .fail _ m3
    · exact send_enacts _ name _ true m3

/-! ## Other clauses -/

theorem setNumeric_enacts {setting : NumericSetting} {x : Option Expr} (hk : k = some (.numeric setting x))
    (given : Option Text) (m : Machine σ) : Enacts k (setNumeric setting given) m := by
  refine .bind (.orFail _ m) fun n m1 _ => .bind (.of_same (numeric_apply m1)) fun now m2 h2 => ?_
  cases h2
  refine .bind (.orFail _ m1) fun changed m3 h3 => ?_
  obtain ⟨hs, rfl⟩ := orFail_eq_ok h3
  exact .of_act rfl (.counts hk hs)

theorem execProcedure_enacts {names : List Text} (hk : k = some (.procedure names)) (m : Machine σ) :
    Enacts k (execProcedure names) m := by
  refine .bind (.of_same (interp_apply m)) fun i m1 h1 => ?_
  cases h1
  dsimp only
  cases hc : m.stack.callers with
  | nil => exact .fail _ m
  | cons c cs =>
    dsimp only
    split
    · exact .fail _ m
    · refine .bind (.of_act rfl (.shares (f := fun f => { f with pool := _ }) hk rfl ?_)) fun _ m1 _ => .advance m1
      rw [hc]
      exact .cons rfl (CallersKept.refl cs)

theorem execInterpret_enacts {x : Expr} (hk : k = some (.interpret x)) (m : Machine σ) : Enacts k (execInterpret x) m := by
  have hpermit : Enacts k permit m := .bind (.of_same (interp_apply m)) fun i m1 _ => by
    split
    · exact .fail _ m1
    · exact .pure _ m1
  refine .bind hpermit fun _ m1 h1 => ?_
  obtain ⟨hopen, rfl⟩ := permit_ok.1 h1
  have heval := eval_evaluates [0] x m1
  refine .bind heval.enacts fun source m2 h2 => .bind (.of_same (interp_apply m2)) fun i m3 h3 => ?_
  cases h3
  split
  · exact .fail _ m2
  · split
    · exact .fail _ m2
    · refine .bind (.of_same (interp_apply m2)) fun i m3 h3 => .bind (.advance m3) fun _ m4 h4 => ?_
      cases h3
      cases h4
      have hopen4 : (m2.modifyTop Frame.advance).interp.interpretBlocked = false := by
        show m2.interp.interpretBlocked = false
        rw [(heval.ok h2).interp]
        exact hopen
      refine .bind (.of_act rfl (.interprets hk hopen4 _ _)) fun _ m5 _ => ?_
      split
      · exact .moveCursors m5 ⟨_, rfl⟩
      · exact .pure _ m5

theorem loadModule_enacts {spec : Expr} {as : Option Text} (hk : k = some (.require spec as)) (spec : Text)
    (m : Machine σ) : Enacts k (loadModule (as.getD []) spec) m := by
  refine .bind (.of_same (get_apply m)) fun _ m1 h1 => ?_
  cases h1
  refine .bind (.of_act rfl (.loads hk spec)) fun _ m2 _ => ?_
  split
  · exact .pure _ m2
  · exact .fail _ m2

theorem enacts_executive (hk : ∀ c, k = some c → c.leaves = false) (blocks : List (List Stmt)) :
    Executive k blocks (fun _ (c : Engine σ _) => ∀ m, Enacts k c m) (fun _ c => ∀ m, Enacts k c m)
      fun _ c => ∀ m, Enacts k c m where
  evaluative := enacts_looping.toEvaluative
  pervasive := enacts_looping.toPervasive
  seq := enacts_looping.bind
  onward hc := enacts_looping.bind .advance fun _ => hc
  acted hc := enacts_looping.bind hc fun _ => .advance
  inward hc _ _ := enacts_looping.bind .advance fun _ => enacts_looping.bind hc fun _ m => .moveCursors m ⟨_, rfl⟩
  look _ := .of_same rfl
  vars _ _ := .of_same rfl
  fetch := enacts_looping.fetch
  take _ _ := .of_act rfl (.speaks _ _ _)
  speak _ _ := .of_act rfl (.speaks _ _ _)
  change := .modifyVariables
  send := send_enacts
  forbid h _ := .of_act rfl (.forbids h)
  arm {event label} h _ := .of_act rfl (.shares (f := fun f => f.arm event label) h rfl (.refl _))
  disarm {event} h _ := .of_act rfl (.shares (f := fun f => f.disarm event) h rfl (.refl _))
  trace h _ _ := .of_act rfl (.traces h _)
  count h := setNumeric_enacts h
  form h _ _ := .of_act rfl (.forms h _)
  aim h target _ := .of_act rfl (.aims h target)
  switch h := switchTo_enacts h
  load h := loadModule_enacts h
  report h _ _ := .of_act rfl (.reports h _)
  exit := fun ⟨c, h, hc⟩ => absurd (hk c h) (by simp [hc])
  ret := fun ⟨c, h, hc⟩ => absurd (hk c h) (by simp [hc])
  jump := jump_enacts
  leave := leaveLoop_enacts
  interpret h := execInterpret_enacts h
  procedure h := execProcedure_enacts h
  call name args m := unlessReturned_enacts fun hn => execCall_enacts name args m hn
  routine := execRoutine_enacts
  operation := execOperation_enacts

theorem exec_enacts {s : Stmt} (hs : s.leaves = false) (m : Machine σ) : Enacts s.clause? (exec s) m := by
  refine (enacts_executive (fun c hc => ?_) s.blocks).exec m
  cases s <;> cases hc
  exact hs

/-! ## Statements and steps -/

/-- A clause that may leave its frame is made of evaluations and of what leaves the frame. -/
theorem exec_of_leaves {P : Engine σ Unit → Machine σ → Prop} {s : Stmt} (hs : s.leaves = true)
    (bind : ∀ {α : Type} {a : Engine σ α} {f : α → Engine σ Unit} {m : Machine σ}, Enacts s.clause? a m →
      (∀ v m', P (f v) m') → P (a >>= f) m)
    (advance : ∀ m, P advance m) (exit : ∀ value m, P (exitWith value) m) (ret : ∀ value m, P (returnWith value) m)
    (m : Machine σ) : P (exec s) m := by
  have hany : ∀ (i : Nat) x (m : Machine σ), Enacts s.clause? (evalIfAny (eval [i]) x) m := fun i x =>
    enacts_looping.evalIfAny (enacts_looping.eval i) x
  cases s with
  | clause pos c =>
    cases c with
    | exit x => exact bind (hany 0 x m) exit
    | exitUnless code cond message =>
      refine bind (enacts_looping.evalTruth 0 cond m) fun b m1 => ?_
      split
      · exact advance m1
      · refine bind (.eval [1] message m1) fun text m2 => bind (.of_act rfl (.reports rfl _)) fun _ m3 => ?_
        exact bind (hany 2 code m3) exit
    | ret x => exact bind (hany 0 x m) ret
    | _ => cases hs
  | _ => cases hs

theorem exec_carries (s : Stmt) (m : Machine σ) : Carries s.clause? (exec s) m := by
  cases hs : s.leaves with
  | false => exact Abides.proceeds (exec_enacts hs m)
  | true =>
    exact exec_of_leaves hs (fun ha hf => Carries.bind ha fun v m' _ => hf v m')
      (fun m => Abides.proceeds (Enacts.advance m)) exitWith_carries returnWith_carries m

theorem exec_stays {s : Stmt} (hs : s.leaves = false) (m : Machine σ) : Stays (exec s) m :=
  (exec_enacts hs m).imp (fun h => h.steady) (fun h => .steady h.steady) fun h => h.after fun _ h => h.steady

theorem ProceedsBy.leads {c : Engine σ α} (h : ProceedsBy Machine.Steady c m) : Leads c m :=
  Ensures.imp h moves_of_steady fails_of_steady id

theorem exec_leads (s : Stmt) (m : Machine σ) : Leads (exec s) m :=
  ProceedsBy.leads ((exec_carries s m).weaken fun _ h => h.steady)

/-! ## Steps -/

theorem step_of_no_stmt (h : ∀ c s, ¬ m.AboutTo c s) :
    step m = stop m ∨ (∃ c, step m = endBlock c m) ∨ ∃ l, step m = stepLoop l m := by
  rw [step, bind_of_ok (top_apply m)]
  cases hcs : m.top.cursors with
  | nil => exact .inl rfl
  | cons c cs =>
    have hblock : (∀ l, c.loop = some l → l.phase = .body) → stepBlock c m = endBlock c m := by
      intro hphase
      unfold stepBlock
      cases hs : c.block[c.pc]? with
      | some s => exact absurd ⟨by rw [hcs]; rfl, hphase, hs⟩ (h c s)
      | none => rfl
    dsimp only
    cases hl : c.loop with
    | none => exact .inr (.inl ⟨c, hblock fun l hl' => by cases hl.symm.trans hl'⟩)
    | some l =>
      by_cases hp : l.phase = .body
      · exact .inr (.inl ⟨c, (congrFun (if_pos hp) m).trans (hblock fun l' hl' => by cases hl.symm.trans hl'; exact hp)⟩)
      · exact .inr (.inr ⟨l, congrFun (if_neg hp) m⟩)

theorem step_carries_of_no_stmt (h : ∀ c s, ¬ m.AboutTo c s) : Carries none step m := by
  obtain h | ⟨c, h⟩ | ⟨l, h⟩ := step_of_no_stmt h
  · exact (stop_carries m).congr h
  · exact (endBlock_carries c m).congr h
  · exact (Abides.proceeds (enacts_looping.stepLoop l m)).congr h

theorem announced_local (m : Machine σ) (c : Cursor) (s : Stmt) : m.Local (m.announced c s) :=
  .of_alike ⟨rfl, rfl, rfl, rfl, rfl, rfl, rfl, rfl, rfl⟩

theorem step_proceedsBy {R : Machine σ → Machine σ → Prop}
    (hexec : ∀ c s, m.AboutTo c s → ∀ m0, (m.announced c s).Does s.clause? m0 → R m m0)
    (hnone : ∀ m0, m.Does none m0 → R m m0) : ProceedsBy R step m := by
  by_cases hs : ∃ c s, m.AboutTo c s
  · obtain ⟨c, s, hs⟩ := hs
    have he := exec_carries s (m.announced c s)
    unfold Carries at he
    unfold ProceedsBy Ensures at he ⊢
    rw [step_of_aboutTo hs]
    split at he
    · exact he.after (hexec c s hs)
    · exact he.after (hexec c s hs)
    · exact he.after (hexec c s hs)
  · simp only [not_exists] at hs
    exact (step_carries_of_no_stmt hs).weaken hnone

theorem step_proceeds (h : ∀ c s, m.AboutTo c s → s.reaches = false) : Proceeds step m := by
  refine step_proceedsBy (fun c s hs m0 h0 => (announced_local m c s).trans (h0.local fun k hk => ?_))
    fun m0 h0 => h0.local nofun
  have hr := h c s hs
  cases s <;> cases hk
  exact hr

theorem step_leads (m : Machine σ) : Leads step m :=
  ProceedsBy.leads (step_proceedsBy (fun c s _ _ h => (announced_local m c s).toSteady.trans h.steady) fun _ h => h.steady)

end Rexx.Engine
