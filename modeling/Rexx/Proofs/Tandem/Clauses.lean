import Rexx.Proofs.Tandem.Evaluation

/-!
# `Tandem.Clauses` — statements on two machines in step

A statement that is executed on two machines in step ends in the same way on both.
-/

namespace Rexx

open Cursor Rexx.Frame Interpreter List Loader Machine Place

/-! ## Moves -/

theorem Place.units_advance (π : Place) : π.advance.units = π.units := by
  unfold units advance onTop
  cases π.top <;> rfl

theorem Place.live_advance (π : Place) : π.advance.live = π.live := by
  unfold live
  rw [units_advance]
  rfl

namespace Machine

variable {σ : Type} {P : Place → Place → Prop} {m w : Machine σ}

theorem place_advance (m : Machine σ) : (m.modifyTop advance).place = m.place.advance := rfl

def relocated (m : Machine σ) (π : Place) : Machine σ :=
  m.modifyInterp fun i =>
    { i with
      fragments := π.fragments
      nextFragment := π.nextFragment
      stack := i.stack.modifyTop fun f => { f with cursors := π.top } }

theorem SameData.relocated (h : m.SameData w) (π π' : Place) : (m.relocated π).SameData (w.relocated π') :=
  h.onCourse (i := (m.relocated π).interp) (j := (w.relocated π').interp) h.status h.labels h.name
    ⟨⟨(congrArg (fun f : Frame => { f with cursors := π'.top }) h.stack.top.same :), h.stack.top.first⟩, h.stack.callers⟩

variable (hP : Place.Lawful P) (h : m.InStep P w)

include hP h

theorem InStep.stop :
    (m.modifyInterp fun i => { i with status := .stopped }).InStep P (w.modifyInterp fun i => { i with status := .stopped }) :=
  h.setStatus hP .stopped h.channel

theorem InStep.clearStack {f f' : Frame} (hf : f.SameData f') :
    (m.modifyInterp fun i => { i with stack := ⟨{ f with cursors := [] }, []⟩ }).InStep P
      (w.modifyInterp fun i => { i with stack := ⟨{ f' with cursors := [] }, []⟩ }) :=
  h.replaceStack ⟨⟨by rw [hf.same], hf.first⟩, .nil⟩ (hP.clear h.place)

theorem InStep.pop {c c' : Caller} {cs cs' : List Caller}
    (hc : m.stack.callers = c :: cs) (hc' : w.stack.callers = c' :: cs') :
    (Engine.popped m c cs).InStep P (Engine.popped w c' cs') := by
  obtain ⟨hframe, htail⟩ := forall₂_cons.1 (hc ▸ hc' ▸ h.stack.callers)
  refine h.replaceStack ⟨hframe.frame, htail⟩ ?_
  have hplace : ∀ {m : Machine σ} {c : Caller} {cs : List Caller}, m.stack.callers = c :: cs →
      m.place.withStack ⟨c.frame, cs⟩ = m.place.pop := by
    intro m c cs hm
    unfold Place.pop Place.withStack Machine.place Interpreter.place
    rw [hm]
    rfl
  rw [hplace hc, hplace hc']
  exact hP.pop h.place

end Machine

namespace Engine

variable {σ α β : Type} {P : Place → Place → Prop} {m w : Machine σ} {site : Site}

variable (hP : Place.Lawful P) (h : m.InStep P w)

/-! ## Data -/

theorem handBack_congr {c c' : Caller} (h : c.SameData c') (value : Option Text) :
    (handBack c' value : Engine σ Unit) = handBack c value := by
  unfold handBack
  rw [h.needsValue, h.site]

include h

theorem modifyInterp_tandem {f : Interpreter σ → Interpreter σ} (hf : DataOnly f) : Tandem P (modifyInterp f) m w :=
  .value (h.modifyInterp hf)

theorem modifyTop_tandem {g : Frame → Frame} (hg : DataOnly g) : Tandem P (modifyTop g) m w :=
  .value (h.modifyTop hg)

theorem setVar_tandem (name value : Text) : Tandem P (setVar name value) m w :=
  modifyVariables_tandem h _

theorem vars_tandem (g : Variables → α) : Tandem P (do return g (← interp).vars) m w := by
  refine Matched.interp ?_
  rw [h.vars]
  exact .pure h _

theorem handBack_tandem (c : Caller) (value : Option Text) : Tandem P (handBack c value) m w := by
  have hnote : ∀ {m w : Machine σ}, m.InStep P w →
      Tandem P (modifyTop fun f => { f with memo := (c.site, value.getD []) :: f.memo }) m w :=
    fun h => modifyTop_tandem h fun _ _ _ => rfl
  cases hv : c.needsValue && value.isNone with
  | true =>
    unfold Tandem Matched
    rw [handBack_of_noData hv, handBack_of_noData hv]
    exact .error h
  | false =>
    unfold handBack
    rw [hv]
    cases c.needsValue with
    | true => exact hnote h
    | false => exact .seq (modifyVariables_tandem h _) fun _ _ _ h1 => hnote h1

theorem look_tandem : Tandem P (look : Engine σ (Outlook σ)) m w := by
  have hout : w.outlook = m.outlook := by
    unfold outlook
    rw [h.queue, h.input, h.args, h.isMain, h.title, h.target, h.binding?]
  show SameResult P (.ok m.outlook m) (.ok w.outlook w)
  rw [hout]
  exact .value h

theorem switchTo_tandem (name asName auth : Text) : Tandem P (switchTo name asName auth) m w := by
  unfold Tandem Matched
  rw [switchTo_apply, switchTo_apply, h.targets]
  cases m.targets.switch name auth asName with
  | error f => exact .error h
  | ok p =>
    exact .value ((h.modifyTop fun _ _ _ => rfl).setAround rfl h.around h.host)

theorem setNumeric_tandem (setting : NumericSetting) (given : Option Text) :
    Tandem P (setNumeric setting given) m w := by
  refine .seq (.orFail h _) fun n _ _ h1 => .seq (numeric_tandem h1) fun now _ _ h2 => .seq (.orFail h2 _) fun _ _ _ h3 => ?_
  exact modifyInterp_tandem h3 fun _ _ => rfl

theorem sharingWith_going {names : List Text} {k k' : Caller} {ks ks' : List Caller}
    (hm : m.stack.callers = k :: ks) (hw : w.stack.callers = k' :: ks') :
    (m.sharingWith names k ks).InStep P (w.sharingWith names k' ks') := by
  obtain ⟨hk, hks⟩ := forall₂_cons.1 (hm ▸ hw ▸ h.stack.callers)
  have hpool : k'.frame.pool = k.frame.pool := by rw [hk.frame.same]
  unfold Machine.sharingWith Machine.modifyInterp
  dsimp only
  rw [h.store, h.pool, hpool]
  generalize Store.share names _ = b
  have hplace : ∀ {m : Machine σ} {k : Caller} {ks : List Caller}, m.stack.callers = k :: ks →
      m.place.withStack ⟨{ m.top with pool := b.2.1 }, { k with frame := { k.frame with pool := b.2.2 } } :: ks⟩ =
        m.place := by
    intro m k ks hm
    unfold Place.withStack Machine.place Interpreter.place
    rw [hm]
    rfl
  have htop : DataOnly fun f => { f with pool := b.2.1 } := fun _ _ _ => rfl
  have hcaller : DataOnly fun f => { f with pool := b.2.2 } := fun _ _ _ => rfl
  exact h.setFrames ⟨htop.sameData h.stack.top, .cons ⟨hcaller.sameData hk.frame, hk.site, hk.needsValue⟩ hks⟩ rfl
    (hplace hm) (hplace hw)

theorem load_going (spec as : Text) :
    (w.load spec as).1 = (m.load spec as).1 ∧ (m.load spec as).2.InStep P (w.load spec as).2 := by
  have hload : load w.loading w.searchPath spec as = load m.loading m.searchPath spec as := by
    unfold loading searchPath
    rw [h.loader, h.functions, h.operations, h.targets, h.options, h.around, h.host]
  unfold Machine.load
  rw [hload]
  exact ⟨rfl, (h.modifyInterp (f := fun i => { i with
    loader := (load m.loading m.searchPath spec as).2.loader
    functions := (load m.loading m.searchPath spec as).2.provisions.functions
    operations := (load m.loading m.searchPath spec as).2.provisions.operations }) fun _ _ => rfl).setAround rfl
    h.around rfl⟩

theorem loadModule_tandem (as spec : Text) : Tandem P (loadModule as spec) m w := by
  refine Matched.get ?_
  obtain ⟨hr, hg⟩ := load_going h spec as
  dsimp only
  rw [hr]
  refine .seq (.value hg) fun _ _ _ h1 => ?_
  cases (m.load spec as).1 with
  | ok _ => exact .pure h1 _
  | error f => exact .fail h1 _

/-! ## Flow of control -/

omit h

theorem returnWith_of_main (hm : m.stack.callers = []) (value : Option Text) :
    returnWith value m = exitWith value m := by
  have hmain : m.stack.unwound = m.stack := by
    unfold Stack.unwound Stack.main
    rw [hm]
    exact congrArg (Stack.mk _) hm.symm
  rw [returnWith_of_nil hm, finish, exitWith, modifyInterp_apply, modifyInterp_apply]
  simp only [Machine.modifyInterp, hmain]

theorem place_of_advance {v : Unit} {m' : Machine σ} (h : advance m = .ok v m') : m'.place = m.place.advance := by
  cases (modifyTop_apply Frame.advance m).symm.trans h
  exact m.place_advance

include hP h

theorem advance_tandem : Tandem P (advance : Engine σ Unit) m w := .value (h.onTop (hP.advance h.place))

theorem onward_tandem {c : Engine σ α}
    (hc : ∀ {m w : Machine σ}, m.InStep P w → Tandem P c m w) : Tandem P (advance >>= fun _ => c) m w :=
  .seq (advance_tandem hP h) fun _ _ _ h' => hc h'

theorem leaveBlock_tandem : Tandem P leaveBlock m w := by
  have hdrop : (drop 1 : List Cursor → List Cursor) = tail := funext fun _ => drop_one
  have hleave := hP.leave 1 h.place
  unfold leave at hleave
  rw [hdrop] at hleave
  exact .value (h.onTop hleave)

theorem stop_tandem : Tandem P stop m w :=
  .value (h.stop hP)

theorem jump_tandem (label : Text) : Tandem P (jump label) m w := by
  refine Matched.interp ?_
  dsimp only
  rw [h.labels]
  cases m.interp.program.labels[label]? with
  | some k => exact .value (h.onTop (hP.goto k h.place))
  | none => exact .fail h _

theorem exitWith_tandem (value : Option Text) : Tandem P (exitWith value) m w := by
  have hdata : (m.modifyInterp fun i => { i with result := value.getD [], exitCode := exitCodeOf value }).InStep P
      (w.modifyInterp fun i => { i with result := value.getD [], exitCode := exitCodeOf value }) :=
    h.modifyInterp fun _ _ => rfl
  exact .value ((hdata.clearStack hP h.main).stop hP)

theorem returnWith_tandem (value : Option Text) : Tandem P (returnWith value) m w := by
  have hcallers := h.stack.callers
  cases hm : m.stack.callers with
  | nil =>
    rw [hm] at hcallers
    have hw := forall₂_nil_left_iff.1 hcallers
    unfold Tandem Matched
    rw [returnWith_of_main hm, returnWith_of_main hw]
    exact exitWith_tandem hP h value
  | cons c cs =>
    rw [hm] at hcallers
    obtain ⟨c', cs', hc, -, hw⟩ := forall₂_cons_left_iff.1 hcallers
    unfold Tandem Matched
    rw [returnWith_of_cons hm, returnWith_of_cons hw, handBack_congr hc]
    exact handBack_tandem (h.pop hP hm hw) c value

/-! ## Blocks -/

/-- Both machines may enter the blocks after the statement that comes next: none of them is empty or both are, and the
places in them correspond. -/
structure Enters (P : Place → Place → Prop) (π π' : Place) (b b' : List Stmt) : Prop where
  empty : b'.isEmpty = b.isEmpty
  enter : ∀ loop, P (π.advance.enter b loop) (π'.advance.enter b' loop)

omit hP in
theorem enter_matched {b b' : List Stmt} {l : Option LoopState} (hE : P (m.place.enter b l) (w.place.enter b' l)) :
    Matched P (modifyTop fun f => f.enter ⟨b, 0, f.unit, l⟩)
      (modifyTop fun f => f.enter ⟨b', 0, f.unit, l⟩) m w :=
  .value (h.onTop hE)

theorem enterBlock_matched {b b' : List Stmt} (hE : Enters P m.place w.place b b') :
    Matched P (advance >>= fun _ => enterBlock b) (advance >>= fun _ => enterBlock b') m w := by
  refine .bind (advance_tandem hP h) fun _ m1 w1 hm hw h1 => ?_
  unfold enterBlock
  rw [hE.empty]
  refine .ite (fun _ => .pure h1 _) fun _ => enter_matched h1 ?_
  rw [place_of_advance hm, place_of_advance hw]
  exact hE.enter none

/-! ## Loops -/

omit h in
theorem tandem_looping : Looping fun _ (c : Engine σ _) => ∀ m w, m.InStep P w → Tandem P c m w where
  toPervasive := tandem_computing.toPervasive
  eval := (tandem_evaluative hP).eval
  leaveBlock _ _ := leaveBlock_tandem hP
  setLoop l _ _ h := .value (h.onTop (hP.loop l h.place))
  beginRound l _ _ h := .value (h.onTop (hP.again { l with phase := .body } h.place))

omit hP h in
theorem drop_loops {p : Cursor → Bool} (hp : ∀ {c c' : Cursor}, c'.loop = c.loop → p c' = p c) {cs cs' : List Cursor}
    (h : Forall₂ (fun c c' : Cursor => c'.loop = c.loop) cs cs') :
    ∃ n, cs.dropWhile p = cs.drop n ∧ cs'.dropWhile p = cs'.drop n := by
  induction h with
  | nil => exact ⟨0, rfl, rfl⟩
  | @cons c c' cs cs' hc _ ih =>
    cases hpc : p c with
    | false =>
      refine ⟨0, ?_, ?_⟩
      · rw [dropWhile_cons_of_neg (by simp [hpc]), drop_zero]
      · rw [dropWhile_cons_of_neg (by simp [hp hc, hpc]), drop_zero]
    | true =>
      obtain ⟨n, hn, hn'⟩ := ih
      refine ⟨n + 1, ?_, ?_⟩
      · rw [dropWhile_cons_of_pos hpc, hn, drop_succ_cons]
      · rw [dropWhile_cons_of_pos (by rw [hp hc, hpc]), hn', drop_succ_cons]

theorem leaveLoop_tandem (var : Option Text) (again : Bool) : Tandem P (leaveLoop var again) m w := by
  obtain ⟨n, hm, hw⟩ := drop_loops (p := fun c => !c.isLoopOf var) (fun h => by simp only [isLoopOf, h]) (hP.loops h.place)
  have hleft := hP.leave n h.place
  have hloops : Forall₂ (fun c c' : Cursor => c'.loop = c.loop) (m.place.top.drop n) (w.place.top.drop n) :=
    hP.loops hleft
  have hplace : ∀ {π : Place} {cs : List Cursor}, π.top.drop n = cs → π.leave n = π.onTop fun _ => cs := by
    rintro π _ rfl
    rfl
  refine Matched.top ?_
  rw [show m.top.cursors.dropWhile _ = _ from hm, show w.top.cursors.dropWhile _ = _ from hw]
  cases hcs : m.place.top.drop n with
  | nil =>
    rw [hcs] at hloops
    rw [forall₂_nil_left_iff.1 hloops]
    exact .fail h _
  | cons c cs =>
    rw [hcs] at hloops
    obtain ⟨c', cs', hloop, -, hcs'⟩ := forall₂_cons_left_iff.1 hloops
    rw [hcs']
    rw [hplace hcs, hplace hcs'] at hleft
    cases again with
    | false => exact .value (h.onTop (k := fun _ => cs) (l := fun _ => cs') (hP.leave 1 hleft))
    | true =>
      have hfirst := head?_dropWhile_not (fun c : Cursor => !c.isLoopOf var) m.place.top
      rw [hm, hcs] at hfirst
      have hends : c.isLoopOf var = true := by simpa using hfirst
      obtain ⟨l, hl⟩ := loop_of_isLoopOf hends
      dsimp only
      rw [hloop, hl]
      exact .value (h.onTop (k := fun _ => { c with loop := some { l with phase := .after } } :: cs)
        (l := fun _ => { c' with loop := some { l with phase := .after } } :: cs') (hP.loop { l with phase := .after } hleft))

/-! ## Targets, operations and routines -/

theorem send_tandem (name cmd : Text) (params : Params) (method : Bool) :
    Tandem P (send name cmd params method) m w :=
  .seq (dispatch_tandem hP h name cmd params method) fun r _ _ h1 => onward_tandem hP h1 fun h2 => check_tandem h2 r

theorem execHostOperation_tandem (name : Text) (op : HostOperation σ)
    (params : Params) : Tandem P (execHostOperation name op params) m w := by
  refine .seq (callHost_tandem h _) fun r _ _ h1 => ?_
  cases r with
  | ok value => exact onward_tandem hP h1 fun h2 => setVar_tandem h2 _ value
  | error fault =>
    cases fault with
    | condition c => exact .raise h1 c
    | exception message => exact .fail h1 _

theorem unlessReturned_tandem {c : Engine σ Unit} (hc : Tandem P c m w) :
    Tandem P (unlessReturned c) m w := by
  unfold Tandem Matched unlessReturned
  cases hn : m.top.memo.lookup [] with
  | some v =>
    rw [orNoted_of_some hn, orNoted_of_some (h.memo ▸ hn)]
    exact advance_tandem hP h
  | none =>
    rw [orNoted_of_none hn, orNoted_of_none (h.memo ▸ hn)]
    exact hc

theorem execCall_tandem (name : Text) (args : List Expr) : Tandem P (execCall name args) m w := by
  refine .seq ((tandem_expressive hP).evalArgs [] 0 args (Subset.refl _) _ _ h) fun a _ _ h1 =>
    .seq (call_tandem hP h1 name a false false) fun v _ _ h2 => ?_
  exact .seq (setVar_tandem h2 _ v) fun _ _ _ h3 => advance_tandem hP h3

theorem execRoutine_tandem (name : Text) (args : List Expr) : Tandem P (execRoutine name args) m w := by
  refine unlessReturned_tandem hP h (Matched.interp ?_)
  dsimp only
  rw [h.operations]
  cases if args.isEmpty then m.interp.operations[name]? else none with
  | some op => exact execHostOperation_tandem hP h name op.code []
  | none => exact execCall_tandem hP h name args

theorem execOperation_tandem (name : Text) (params : List (Text × Expr)) :
    Tandem P (execOperation name params) m w := by
  refine unlessReturned_tandem hP h (.seq ((tandem_expressive hP).evalArgs [] 0 _ (Subset.refl _) _ _ h)
    fun values m1 w1 h1 => Matched.interp ?_)
  rw [h1.operations]
  cases m1.interp.operations[name]? with
  | some op => exact execHostOperation_tandem hP h1 name op.code _
  | none =>
    refine .seq (targetWith?_tandem h1 name) fun t _ _ h2 => ?_
    cases t with
    | none => exact .fail h2 _
    | some target => exact send_tandem hP h2 target name _ true

/-! ## Other clauses -/

theorem execProcedure_tandem (names : List Text) : Tandem P (execProcedure names) m w := by
  have hcallers := h.stack.callers
  unfold Tandem Matched
  cases hm : m.stack.callers with
  | nil =>
    rw [hm] at hcallers
    rw [execProcedure_of_nil hm, execProcedure_of_nil (forall₂_nil_left_iff.1 hcallers)]
    exact .error h
  | cons k ks =>
    rw [hm] at hcallers
    obtain ⟨k', ks', -, -, hw⟩ := forall₂_cons_left_iff.1 hcallers
    by_cases hsteps : m.top.steps = 0
    · rw [execProcedure_of_first hm hsteps, execProcedure_of_first hw (h.stack.top.first.2 hsteps)]
      exact advance_tandem hP (sharingWith_going h hm hw)
    · rw [execProcedure_of_late hm hsteps, execProcedure_of_late hw (mt h.stack.top.first.1 hsteps)]
      exact .error h

omit hP h in
theorem enterText_apply (p : Program) (m : Machine σ) :
    enterText p m = .ok () (m.relocated (m.place.interpret m.interp.line p)) := by
  have hadopted : (m.modifyTop Frame.advance).modifyInterp (adopted m.interp.nextFragment p.lines) =
      m.relocated { m.place.advance with
        fragments := m.place.live ++ [⟨m.interp.nextFragment, m.interp.line, p.lines⟩]
        nextFragment := m.interp.nextFragment + 1 } := by
    have hlive : (m.modifyTop Frame.advance).interp.liveFragments = m.place.live := by
      rw [liveFragments_place, show Interpreter.place _ = _ from m.place_advance, Place.live_advance]
    unfold Machine.modifyTop Machine.modifyInterp adopted at *
    dsimp only at *
    rw [hlive]
    rfl
  rw [enterText, bind_of_ok (interp_apply m), advance, bind_of_ok (modifyTop_apply _ m), bind_of_ok (modifyInterp_apply _ _),
    hadopted]
  unfold Place.interpret
  cases p.body.isEmpty <;> rfl

theorem enterText_tandem (p : Program) : Tandem P (enterText p) m w := by
  unfold Tandem Matched
  rw [enterText_apply, enterText_apply, h.line]
  exact .value ⟨h.toSameData.relocated _ _, hP.interpret m.interp.line p h.place⟩

theorem execInterpret_tandem (x : Expr) : Tandem P (execInterpret x) m w := by
  have hpermit : Tandem P permit m w := by
    refine Matched.interp ?_
    rw [h.interpretBlocked]
    exact .ite (fun _ => .fail h _) fun _ => .pure h _
  refine .seq hpermit fun _ m1 w1 h1 => .seq ((tandem_evaluative hP).eval 0 x _ _ h1) fun source m1 w1 h1 => Matched.interp ?_
  rw [h1.name]
  cases Program.parse source m1.interp.program.name with
  | error e => exact .fail h1 _
  | ok p => exact .ite (fun _ => .fail h1 _) fun _ => enterText_tandem hP h1 p

theorem execClause_tandem (c : Clause) : Tandem P (execClause c) m w := by
  have hdata : ∀ {f : Interpreter σ → Interpreter σ}, DataOnly f → ∀ m w, m.InStep P w →
      Tandem P (modifyInterp f) m w := fun hf _ _ h => modifyInterp_tandem h hf
  have htop : ∀ {g : Frame → Frame}, DataOnly g → ∀ m w, m.InStep P w →
      Tandem P (modifyTop g : Engine σ Unit) m w := fun hg _ _ h => modifyTop_tandem h hg
  have hX : Executive (some c) [] (fun _ c => ∀ m w, m.InStep P w → Tandem P c m w)
      (fun _ c => ∀ m w, m.InStep P w → Tandem P c m w) fun _ c => ∀ m w, m.InStep P w → Tandem P c m w := {
    evaluative := tandem_evaluative hP
    pervasive := tandem_computing.toPervasive
    seq ha hf m w h := .seq (ha m w h) fun v m1 w1 h1 => hf v m1 w1 h1
    onward hc _ _ h := onward_tandem hP h fun h1 => hc _ _ h1
    acted hc m w h := .seq (hc m w h) fun _ _ _ h1 => advance_tandem hP h1
    inward _ hb := absurd hb not_mem_nil
    look _ _ := look_tandem
    vars g _ _ h := vars_tandem h g
    fetch := tandem_computing.fetch
    take _ := hdata fun _ _ => rfl
    speak _ := hdata fun _ _ => rfl
    change _ _ _ h := modifyVariables_tandem h _
    send name cmd params method _ _ h := send_tandem hP h name cmd params method
    forbid _ := hdata fun _ _ => rfl
    arm _ := htop fun _ _ _ => rfl
    disarm _ := htop fun _ _ _ => rfl
    trace _ _ := hdata fun _ _ => rfl
    count _ given _ _ h := setNumeric_tandem h _ given
    form _ _ := hdata fun _ _ => rfl
    aim _ _ := htop fun _ _ _ => rfl
    switch _ token _ _ h := switchTo_tandem h _ _ token
    load _ spec _ _ h := loadModule_tandem h _ spec
    report _ line _ _ h := .value (h.setReports _ _)
    exit _ value _ _ h := exitWith_tandem hP h value
    ret _ value _ _ h := returnWith_tandem hP h value
    jump label _ _ h := jump_tandem hP h label
    leave var again _ _ h := leaveLoop_tandem hP h var again
    interpret _ _ _ h := execInterpret_tandem hP h _
    procedure _ _ _ h := execProcedure_tandem hP h _
    call name args _ _ h := unlessReturned_tandem hP h (execCall_tandem hP h name args)
    routine name args _ _ h := execRoutine_tandem hP h name args
    operation name params _ _ h := (execOperation_tandem hP h name params) }
  exact hX.execClause rfl m w h

end Engine

/-! ## Statements -/

/-- **Statements that are executed alike**: they differ in where they stand and in blocks, which `E` relates. -/
inductive Stmt.Paired (E : List Stmt → List Stmt → Prop) : Stmt → Stmt → Prop where
  | clause (pos pos' : Position) (c : Clause) : Paired E (.clause pos c) (.clause pos' c)
  | ifThen (pos pos' : Position) (cond : Expr) {thens thens' elses elses' : List Stmt} (thens_ : E thens thens')
      (elses_ : E elses elses') : Paired E (.ifThen pos cond thens elses) (.ifThen pos' cond thens' elses')
  | group (pos pos' : Position) {body body' : List Stmt} (body_ : E body body') :
      Paired E (.group pos body) (.group pos' body')
  | loop (pos pos' : Position) (control : Control) (guard : Option Guard) {body body' : List Stmt} (body_ : E body body') :
      Paired E (.loop pos control guard body) (.loop pos' control guard body')
  | select (pos pos' : Position) {whens whens' : List (Expr × List Stmt)} {otherwise otherwise' : Option (List Stmt)}
      (whens_ : List.Forall₂ (fun b b' => b'.1 = b.1 ∧ E b.2 b'.2) whens whens')
      (otherwise_ : Option.Rel E otherwise otherwise') :
      Paired E (.select pos whens otherwise) (.select pos' whens' otherwise')

namespace Engine

variable {σ : Type} {P : Place → Place → Prop} {m w : Machine σ} (hP : Place.Lawful P) (h : m.InStep P w)

include hP h

theorem execLoop_matched (control : Control) (guard : Option Guard)
    {body body' : List Stmt} (hE : Enters P m.place w.place body body') :
    Matched P (execLoop control guard body) (execLoop control guard body') m w := by
  refine .bind ((tandem_evaluative hP).loopStart (fun g _ _ h => vars_tandem h g) control guard _ _ h) fun q m1 w1 hm hw h1 => ?_
  obtain ⟨loop, first⟩ := q
  refine .bind (advance_tandem hP h1) fun _ m2 w2 hm2 hw2 h2 => ?_
  have hplace : ∀ {m m1 m2 : Machine σ}, loopStart control guard m = .ok (loop, first) m1 → advance m1 = .ok () m2 →
      m2.place = m.place.advance := by
    intro m m1 m2 h1 h2
    rw [place_of_advance h2, (lingers_evaluative.loopStart (fun _ => .bind .interp fun _ => .pure _) control guard m).ok h1]
  refine .bind (tandem_computing.assignFirst control first _ _ h2) fun _ m3 w3 hm3 hw3 h3 => enter_matched h3 ?_
  have hfirst := lingers_pervasive.assignFirst (σ := σ) control first
  rw [(hfirst m2).ok hm3, (hfirst w2).ok hw3, hplace hm hm2, hplace hw hw2]
  exact hE.enter (some loop)

theorem execWhens_matched {π π' : Place} (hπ : m.place = π)
    (hπ' : w.place = π') {otherwise otherwise' : Option (List Stmt)} {whens whens' : List (Expr × List Stmt)} (i : Nat)
    (hwhens : Forall₂ (fun b b' => b'.1 = b.1 ∧ Enters P π π' b.2 b'.2) whens whens')
    (hother : Option.Rel (Enters P π π') otherwise otherwise') :
    Matched P (execWhens otherwise i whens) (execWhens otherwise' i whens') m w := by
  induction hwhens generalizing i m w with
  | nil =>
    cases hother with
    | none => exact .fail h _
    | some hE => exact enterBlock_matched hP h (hπ ▸ hπ' ▸ hE)
  | @cons b b' whens whens' hb _ ih =>
    obtain ⟨cond, block⟩ := b
    obtain ⟨cond', block'⟩ := b'
    obtain ⟨rfl, hE⟩ : cond' = cond ∧ _ := hb
    refine .bind ((tandem_evaluative hP).evalTruth i cond' _ _ h) fun v m1 w1 hm hw h1 => ?_
    have hm1 := ((lingers_evaluative.evalTruth i cond' m).ok hm).trans hπ
    have hw1 := ((lingers_evaluative.evalTruth i cond' w).ok hw).trans hπ'
    exact .ite (fun _ => enterBlock_matched hP h1 (hm1 ▸ hw1 ▸ hE)) fun _ => ih h1 hm1 hw1 (i + 1)

theorem exec_tandem {s s' : Stmt}
    (hs : s.Paired (Enters P m.place w.place) s') : Matched P (exec s) (exec s') m w := by
  cases hs with
  | clause pos pos' c => exact execClause_tandem hP h c
  | ifThen pos pos' cond hthens helses =>
    refine .bind ((tandem_evaluative hP).evalTruth 0 cond _ _ h) fun b m1 w1 hm hw h1 => enterBlock_matched hP h1 ?_
    rw [(lingers_evaluative.evalTruth 0 cond m).ok hm, (lingers_evaluative.evalTruth 0 cond w).ok hw]
    cases b with
    | true => exact hthens
    | false => exact helses
  | group pos pos' hbody =>
    refine .bind (advance_tandem hP h) fun _ m1 w1 hm hw h1 => enter_matched h1 ?_
    rw [place_of_advance hm, place_of_advance hw]
    exact hbody.enter none
  | loop pos pos' control guard hbody => exact execLoop_matched hP h control guard hbody
  | select pos pos' hwhens hother => exact execWhens_matched hP h rfl rfl 0 hwhens hother

end Engine

end Rexx
