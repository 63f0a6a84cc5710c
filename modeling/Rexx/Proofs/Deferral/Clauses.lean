import Rexx.Proofs.Clause.Suspension
import Rexx.Proofs.Deferral.Expressions

/-!
# `Deferral.Clauses` — statements with answers that come later

A statement is executed on a machine whose targets answer at once, and in passes on its twin.
-/

namespace Rexx

open Rexx.Expr Interpreter List Machine Stack Text

def Expr.callsOpt (x : Option Expr) : List (Text × Bool) := (x.map Expr.calls).getD []

namespace Interpreter

variable {σ : Type}

def routineCalls (i : Interpreter σ) (name : Text) (args : List Expr) : List (Text × Bool) :=
  if (if args.isEmpty then i.operations[name]? else none).isSome then [] else (name, false) :: Expr.callsAll args

/-- The names that a repeatable statement calls, each with whether it is quoted. -/
def callsOf (i : Interpreter σ) : Stmt → List (Text × Bool)
  | .clause _ (.assign _ x) | .clause _ (.command x) => x.calls
  | .clause _ (.say x) | .clause _ (.push x) | .clause _ (.queue x) | .clause _ (.ret x) => Expr.callsOpt x
  | .clause _ (.call name args) => (name, false) :: Expr.callsAll args
  | .clause _ (.routine name args) => i.routineCalls name args
  | .clause _ (.operation _ params) => Expr.callsAll (params.map Prod.snd)
  | .clause _ (.address _ auth _ cmd) => Expr.callsOpt auth ++ Expr.callsOpt cmd
  | .ifThen _ cond _ _ => cond.calls
  | .select _ whens _ => Expr.callsAll (whens.map Prod.fst)
  | _ => []

end Interpreter

/-! ## What forgets the outcomes that were kept -/

namespace Stack

theorem unwindFrom_replies (e : Event) (top : Frame) (replies : List (Site × Outcome)) (cs : List Caller) :
    match unwindFrom e top cs with
    | none => unwindFrom e { top with replies } cs = none
    | some (t, s) => ∃ s', unwindFrom e { top with replies } cs = some (t, s') ∧
        ∀ event, s'.modifyTop (fun f => (f.disarm event).forget) = s.modifyTop fun f => (f.disarm event).forget := by
  have htrap : ({ top with replies } : Frame).trap? e = top.trap? e := rfl
  cases cs with
  | nil =>
    unfold unwindFrom
    rw [htrap]
    cases top.trap? e with
    | none => rfl
    | some t => exact ⟨_, rfl, fun _ => rfl⟩
  | cons c cs =>
    unfold unwindFrom
    rw [htrap]
    cases top.trap? e with
    | some t => exact ⟨_, rfl, fun _ => rfl⟩
    | none =>
      cases unwindFrom e c.frame cs with
      | none => rfl
      | some p => exact ⟨_, rfl, fun _ => rfl⟩

end Stack

namespace Interpreter

variable {σ : Type}

theorem fatal_withReplies (i : Interpreter σ) (replies : List (Site × Outcome)) (c : Condition) :
    (i.withReplies replies).fatal c = i.fatal c := by
  have hmain : ((i.withReplies replies).stack.unwound.modifyTop fun f => { f.forget with cursors := [] }) =
      i.stack.unwound.modifyTop fun f => { f.forget with cursors := [] } := by
    have hcallers : (i.withReplies replies).stack.callers = i.stack.callers := rfl
    unfold unwound Stack.main
    rw [hcallers]
    cases i.stack.callers.getLast? <;> rfl
  unfold fatal
  rw [hmain]
  rfl

theorem raise_withReplies (i : Interpreter σ) (replies : List (Site × Outcome)) (c : Condition) :
    (i.withReplies replies).raise c = i.raise c := by
  have hline : (i.withReplies replies).line = i.line := rfl
  have hunwind : (i.withReplies replies).stack.unwindTo c.event =
      unwindFrom c.event { i.stack.top with replies } i.stack.callers := rfl
  have hcut := unwindFrom_replies c.event i.stack.top replies i.stack.callers
  unfold raise
  simp only [hunwind]
  rw [show i.stack.unwindTo c.event = unwindFrom c.event i.stack.top i.stack.callers from rfl]
  cases ht : ({ c with line := some (c.line.getD i.line) } : Condition).trappable with
  | false =>
    exact fatal_withReplies i replies _
  | true =>
    simp only [if_true]
    cases hu : unwindFrom c.event i.stack.top i.stack.callers with
    | none =>
      rw [hu] at hcut
      rw [hcut]
      exact fatal_withReplies i replies _
    | some p =>
      rw [hu] at hcut
      obtain ⟨s', hs', hforget⟩ := hcut
      rw [hs']
      simp only [sprung, hforget]
      rfl

end Interpreter

/-! ## The same for all that can be seen -/

namespace Machine

variable {σ : Type} {answer : Text → Params → σ → Outcome} {m u : Machine σ}

/-- **The counterpart** `u` of a machine whose targets answer at once: it differs from it in nothing but that its targets
may have the host answer, and in its channel. -/
structure Counterpart (answer : Text → Params → σ → Outcome) (m u : Machine σ) : Prop where
  interp : u.interp = m.interp
  targets : ∀ name : Text, m.targets[name]? = u.targets[name]?.map (Binding.atOnce answer)
  around : u.around = m.around
  host : u.host = m.host

theorem Twin.retarget (h : m.Twin answer u) {r q : Registry σ} (target : Option Text)
    (hr : ∀ n : Text, r[n]? = q[n]?.map (Binding.atOnce answer)) :
    (m.retarget r target).Twin answer (u.retarget q target) where
  interp := by
    show (u.interp.modifyTop fun f => { f with target }) = _
    rw [h.interp]
    rfl
  replies := h.replies
  targets := hr
  around := h.around
  host := h.host
  room := h.room

theorem Twin.counterpart (h : m.Twin answer u) {f : Interpreter σ → Interpreter σ}
    (hf : ∀ replies, f (m.interp.withReplies replies) = f m.interp) :
    (m.modifyInterp f).Counterpart answer (u.modifyInterp f) where
  interp := by
    show f u.interp = f m.interp
    rw [h.interp, hf]
  targets := h.targets
  around := h.around
  host := h.host

theorem Counterpart.modifyInterp (h : m.Counterpart answer u) (f : Interpreter σ → Interpreter σ) :
    (m.modifyInterp f).Counterpart answer (u.modifyInterp f) :=
  ⟨congrArg f h.interp, h.targets, h.around, h.host⟩

theorem Counterpart.eq_refit (h : m.Counterpart answer u) : u = m.refit m.top.replies u.targets u.channel := by
  obtain ⟨interp, targets, channel, around, host⟩ := u
  obtain ⟨rfl, _, rfl, rfl⟩ := h
  rfl

end Machine

namespace Engine

variable {σ α β : Type} {answer : Text → Params → σ → Outcome} {m m' u : Machine σ} {site : Site}
  {P : Machine σ → Prop} {ρ : Machine σ → Machine σ → Prop} {a : Engine σ α}

inductive Concurs (answer : Text → Params → σ → Outcome) (depth : Nat) : Result σ Unit → Result σ Unit → Prop where
  | value {m u : Machine σ} (h : (m.modifyInterp fun i => i.completeStep depth).Counterpart answer
      (u.modifyInterp fun i => i.completeStep depth)) : Concurs answer depth (.ok () m) (.ok () u)
  | raises {e : Condition} {m u : Machine σ} (h : (m.modifyInterp fun i => i.raise e).Counterpart answer
      (u.modifyInterp fun i => i.raise e)) : Concurs answer depth (.error (.raised e) m) (.error (.raised e) u)

theorem Alike.concurs {depth : Nat} {r r' : Result σ Unit} (h : Alike answer r r')
    (hdepth : ∀ m', r = .ok () m' → m'.stack.depth = depth) : Concurs answer depth r r' := by
  cases h with
  | @value v m u h =>
    refine .value (h.counterpart fun replies => ?_)
    have hd := hdepth m rfl
    have hd' : (m.interp.withReplies replies).stack.depth = depth := hd
    unfold completeStep
    rw [if_pos hd, if_pos hd']
    rfl
  | raises h => exact .raises (h.counterpart fun replies => raise_withReplies _ replies _)

theorem Tracks.concurs {c : Engine σ Unit} (h : Tracks answer c m u) (hc : Stays c m) :
    ∃ r, Replays (HostAnswers answer) c u r ∧ Concurs answer m.stack.depth (c m) r := by
  obtain ⟨r, hr, halike⟩ := h
  exact ⟨r, hr, halike.concurs fun m' hm => (hc.ok hm).depth⟩

/-! ## Detached parts of statements -/

theorem advance_detached : Detached (advance : Engine σ Unit) := .modifyTop fun _ _ => rfl

theorem onward_detached {c : Engine σ Unit} (hc : Detached c) : Detached (advance >>= fun _ => c) :=
  .bind advance_detached fun _ => hc

theorem enterBlock_detached (block : List Stmt) : Detached (advance >>= fun _ => enterBlock block : Engine σ Unit) := by
  refine onward_detached ?_
  unfold enterBlock
  split
  · exact .pure _
  · exact .modifyTop fun _ _ => rfl

theorem execHostOperation_detached (name : Text) (op : HostOperation σ) (params : Params) :
    Detached (execHostOperation name op params) := by
  refine .bind (.callHost (op params)) fun r => ?_
  cases r with
  | ok value => exact onward_detached (.modifyVariables _)
  | error fault =>
    cases fault with
    | condition c => exact .raise c
    | exception message => exact .fail _

/-! ## Evaluation in statements -/

section

variable {names : List (Text × Bool)}

theorem evalOpt_follows (site : Site) {x : Option Expr} (hx : callsOpt x ⊆ names) :
    Follows answer names (evalOpt site x) := by
  cases x with
  | some x => exact eval_follows site hx
  | none => exact .pure []

theorem evalIfAny_follows (site : Site) {x : Option Expr} (hx : callsOpt x ⊆ names) :
    Follows answer names (evalIfAny (eval site) x : Engine σ (Option Text)) := by
  cases x with
  | none => exact .pure none
  | some x =>
    exact .bind (eval_follows site hx) fun v => .pure (some v)

theorem evalTruth_follows (site : Site) {x : Expr} (hx : x.calls ⊆ names) : Follows answer names (evalTruth site x) :=
  .bind (eval_follows site hx) fun s =>
    ⟨.of_numeric fun _ => truth s, fun m => .orFail (truth s) m, fun h _ _ => (Detached.orFail (truth s)).tracks h⟩

theorem commandText_follows (site : Site) (b : Option (Binding σ)) {x : Expr} (hx : x.calls ⊆ names) :
    Follows answer names (commandText site b x) := by
  unfold commandText
  split
  · split
    · exact eval_follows site hx
    · exact .pure _
  · exact eval_follows site hx

end

theorem Resumable.of_readies {c : Engine σ α} (hc : ∀ m, Readies c m) : Resumable Running (HostAnswers answer) c where
  recalls {w m1 w'} hrun h hr := by
    obtain ⟨m0, k, r, ch, hp, _, ho, rfl⟩ := hr.settled ((hc w).suspended h) fun hp => hp.status.trans hrun
    have hsettle := (Evolves.settle (Set.mem_univ k) m0 ho r).later.recalls
    exact ⟨hp.recalls.trans ⟨hsettle.memo, hsettle.replies, hsettle.numeric⟩, hr.running⟩

/-! ## Targets -/

theorem commandText_atOnce (site : Site) (b : Option (Binding σ)) (x : Expr) :
    commandText site (b.map (Binding.atOnce answer)) x = commandText site b x := by
  cases b with
  | none => rfl
  | some b =>
    unfold commandText
    cases x.literal? <;> rfl

theorem commandee?_twin (h : m.Twin answer u) : commandee? m = commandee? u := by
  unfold commandee?
  rw [binding?_twin h, target_twin h]
  cases u.binding? u.top <;> rfl

theorem commandee?_sameRegistries {w : Machine σ} (h : u.SameRegistries w) : commandee? w = commandee? u := by
  unfold commandee?
  rw [binding?_sameRegistries h, h.target]

theorem switch_atOnce {r q : Registry σ} (h : ∀ n : Text, r[n]? = q[n]?.map (Binding.atOnce answer))
    (name auth asName : Text) :
    match q.switch name auth asName with
    | .ok (q', target) => ∃ r', r.switch name auth asName = .ok (r', target) ∧
        ∀ n : Text, r'[n]? = q'[n]?.map (Binding.atOnce answer)
    | .error f => r.switch name auth asName = .error f := by
  have hinsert : ∀ (k : Text) (b : Binding σ) (n : Text),
      (r.insert k (b.atOnce answer))[n]? = (q.insert k b)[n]?.map (Binding.atOnce answer) := by
    intro k b n
    rw [Std.TreeMap.getElem?_insert, Std.TreeMap.getElem?_insert]
    split
    · rfl
    · exact h n
  have hname := h (upper name)
  have halias := h (upper asName)
  unfold Registry.switch
  dsimp only
  cases hd : isEmpty (upper name) || upper name == Registry.defaultName with
  | true => exact ⟨r, rfl, h⟩
  | false =>
    cases hb : q[upper name]? with
    | none =>
      rw [hb] at hname
      rw [hname]
      rfl
    | some b =>
      rw [hb] at hname
      rw [hname]
      have htaken : ((r[Text.upper asName]?).any fun e => e.target.id != (b.atOnce answer).target.id) =
          (q[upper asName]?).any fun e => e.target.id != b.target.id := by
        rw [halias, Option.any_map]
        rfl
      simp only [Option.map_some, htaken]
      cases isEmpty asName with
      | true =>
        cases isEmpty auth with
        | true => exact ⟨r, rfl, h⟩
        | false => exact ⟨_, rfl, hinsert (upper name) { b with auth }⟩
      | false =>
        cases (q[upper asName]?).any fun e => e.target.id != b.target.id with
        | true => rfl
        | false => exact ⟨_, rfl, hinsert (upper asName) { b with auth }⟩

theorem execRoutine_apply (name : Text) (args : List Expr) (m : Machine σ) :
    execRoutine name args m = orNoted [] (fun _ => advance)
      (match if args.isEmpty then m.interp.operations[name]? else none with
        | some op => execHostOperation name op.code []
        | none => execCall name args) m := by
  unfold execRoutine unlessReturned
  cases hn : m.top.memo.lookup [] with
  | some v => rw [orNoted_of_some hn, orNoted_of_some hn]
  | none =>
    rw [orNoted_of_none hn, orNoted_of_none hn]
    exact bind_of_ok (interp_apply m)

theorem operate_apply (name : Text) (params : Params) (m : Machine σ) :
    operate name params m = match m.interp.operations[name]? with
      | some op => execHostOperation name op.code params m
      | none => match method? m name with
        | none => fail (.operationNotFound name) m
        | some target => send target name params true m := by
  rw [operate, bind_of_ok (interp_apply m)]
  cases m.interp.operations[name]? with
  | some op => rfl
  | none =>
    refine (bind_of_ok (targetWith?_apply name m)).trans ?_
    show (match method? m name with
      | none => fail (.operationNotFound name)
      | some target => send target name params true : Engine σ Unit) m = _
    cases method? m name <;> rfl

/-! ## Statements on twins -/

section

variable {names : List (Text × Bool)} (h : m.Twin answer u) (hrun : u.Running)
include h hrun

theorem send_tracks (name cmd : Text) (params : Params) (method : Bool) :
    Tracks answer (send name cmd params method) m u :=
  dispatch_tracks h hrun (fun r => congrArg (advance >>= fun _ => ·) (check_plain r)) (fun r => onward_detached (.check r))
    rfl fun _ _ => rfl

theorem carryOut_tracks (target : Option Text) (cmd : Text) : Tracks answer (carryOut target cmd) m u := by
  cases target with
  | none =>
    refine Detached.tracks (onward_detached ?_) h
    exact .bind (.modifyInterp fun _ _ => rfl) fun _ => .modifyVariables _
  | some name => exact send_tracks h hrun name cmd [] false

theorem operate_tracks (name : Text) (params : Params) (hn : m.top.memo.lookup [] = none) :
    Tracks answer (orNoted [] (fun _ => advance) (operate name params)) m u := by
  have hops : u.interp.operations = m.interp.operations := by rw [h.interp]; rfl
  have hm : orNoted [] (fun _ => advance) (operate name params) m = operate name params m := orNoted_of_none hn
  have hw : ∀ w, u.Matches w → orNoted [] (fun _ => advance) (operate name params) w = operate name params w :=
    fun w hw => orNoted_of_none (by rw [hw.memo, memo_twin h, hn])
  have hu := hw u (.refl u)
  cases hop : m.interp.operations[name]? with
  | some op =>
    refine (execHostOperation_detached name op.code params).tracks_of_eq h ?_ ?_
    · rw [hm, operate_apply, hop]
    · rw [hu, operate_apply, hops, hop]
  | none =>
    cases ht : method? m name with
    | none =>
      refine (Detached.fail (.operationNotFound name)).tracks_of_eq h ?_ ?_
      · rw [hm, operate_apply, hop, ht]
      · rw [hu, operate_apply, hops, hop, method?_twin h, ht]
    | some target =>
      have hdm : operate name params m = send target name params true m := by rw [operate_apply, hop, ht]
      have hdw : ∀ w, u.Matches w → operate name params w = send target name params true w := by
        intro w hmatch
        rw [operate_apply, hmatch.operations, hops, hop, method?_sameRegistries hmatch.toSameRegistries, method?_twin h, ht]
      exact dispatch_tracks h hrun (fun r => congrArg (advance >>= fun _ => ·) (check_plain r))
        (fun r => onward_detached (.check r)) (hm.trans hdm) fun w hmatch => (hw w hmatch).trans (hdw w hmatch)

variable (hout : m.interp.Outward names)
include hout

theorem Follows.then {f : α → Engine σ β} (ha : Follows answer names a) (hf : ∀ v, Detached (f v)) :
    Tracks answer (a >>= f) m u :=
  ha.tracks_bind (fun v => .of_immediate (hf v).immediate) h hrun hout fun v _ _ h' _ _ => (hf v).tracks h'

theorem execWhens_tracks (otherwise : Option (List Stmt)) (i : Nat) (whens : List (Expr × List Stmt))
    (hwhens : callsAll (whens.map Prod.fst) ⊆ names) : Tracks answer (execWhens otherwise i whens) m u := by
  induction whens generalizing i m u with
  | nil =>
    cases otherwise with
    | none => exact (Detached.fail _).tracks h
    | some block => exact (enterBlock_detached block).tracks h
  | cons p whens ih =>
    obtain ⟨cond, block⟩ := p
    rw [map_cons, callsAll, append_subset] at hwhens
    refine (evalTruth_follows [i] hwhens.1).tracks_bind (fun b => .of_defers (hostAnswers_faithful answer) fun w => ?_)
      h hrun hout fun b _ _ h1 hrun1 hout1 => ?_
    · cases b with
      | true => exact .of_immediate (enterBlock_detached block).immediate
      | false => exact execWhens_defers otherwise (i + 1) whens w
    · cases b with
      | true => exact (enterBlock_detached block).tracks h1
      | false => exact ih h1 hrun1 hout1 (i + 1) hwhens.2

theorem execCommand_tracks (i : Nat) {x : Expr} (hx : x.calls ⊆ names) : Tracks answer (execCommand [i] x) m u := by
  have hρ := hostAnswers_faithful answer
  have htext : Follows answer names (commandText [i] (u.binding? u.top) x) := commandText_follows [i] _ hx
  obtain ⟨r, hr, halike⟩ := htext.tracks_bind (fun cmd => .of_defers hρ (carryOut_defers (commandee? u) cmd)) h hrun hout
    fun cmd _ _ h' hrun' _ => carryOut_tracks h' hrun' (commandee? u) cmd
  refine ⟨r, (Replays.congr_registries hrun (fun w hw => ?_) fun w => ?_).2 hr, ?_⟩
  · rw [execCommand_apply, commandee?_sameRegistries hw, binding?_sameRegistries hw]
  · exact .bind (htext.evaluates w) fun cmd w1 _ => carryOut_defers (commandee? u) cmd w1
  · rw [execCommand_apply, commandee?_twin h, binding?_twin h, commandText_atOnce]
    exact halike

/-! ## ADDRESS -/

theorem switchTo_tracks (name asName auth : Text) (i : Nat) {x : Expr} (hx : x.calls ⊆ names) :
    Tracks answer (switchTo name asName auth >>= fun _ => execCommand [i] x) m u := by
  have hswitch := switch_atOnce h.targets name auth asName
  cases hq : u.targets.switch name auth asName with
  | error f =>
    rw [hq] at hswitch
    have hm : switchTo name asName auth m = .error (.raised f.condition) m := by rw [switchTo_apply, hswitch]
    have hu : switchTo name asName auth u = .error (.raised f.condition) u := by rw [switchTo_apply, hq]
    refine ⟨_, .raises (bind_of_error hu), ?_⟩
    rw [bind_of_error hm]
    exact .raises h
  | ok p =>
    obtain ⟨q, target⟩ := p
    rw [hq] at hswitch
    obtain ⟨r, hr, hlook⟩ := hswitch
    have hm : switchTo name asName auth m = .ok () (m.retarget r target) := by rw [switchTo_apply, hr]
    have hu : switchTo name asName auth u = .ok () (u.retarget q target) := by rw [switchTo_apply, hq]
    -- A pass that starts with the target switched is a pass of the command alone.
    have hagain : ∀ w, (u.retarget q target).SameRegistries w →
        (switchTo name asName auth >>= fun _ => execCommand [i] x) w = execCommand [i] x w := by
      intro w hw
      have hself : w.retarget q target = w := by
        have htargets : w.targets = q := hw.targets
        have htarget : w.top.target = target := hw.target
        rw [← htargets, ← htarget]
        rfl
      have hw' : switchTo name asName auth w = .ok () w := by
        rw [switchTo_apply, hw.targets, show (u.retarget q target).targets = q from rfl, Registry.switch_again hq]
        exact congrArg (EStateM.Result.ok ()) hself
      exact bind_of_ok hw'
    obtain ⟨res, hres, halike⟩ := execCommand_tracks (h.retarget target hlook) hrun hout i hx
    have hrun' : (u.retarget q target).Running := hrun
    refine ⟨res, .of_eq ?_ ((Replays.congr_registries hrun' hagain (execCommand_defers i x)).2 hres), ?_⟩
    · exact (bind_of_ok hu).trans (hagain _ (.refl _)).symm
    · rw [bind_of_ok hm]
      exact halike

theorem execAddress_tracks (name : Text) {auth : Option Expr} (asName : Text) {x : Expr}
    (hauth : callsOpt auth ⊆ names) (hx : x.calls ⊆ names) :
    Tracks answer (execAddress name auth asName (some x)) m u := by
  unfold execAddress
  split
  · exact (onward_detached (.modifyTop fun _ _ => rfl)).tracks h
  · refine (evalOpt_follows [0] hauth).tracks_bind (fun token => ?_) h hrun hout fun token _ _ h' hrun' hout' => ?_
    · exact .of_readies (switchTo_readies name asName token _ x)
    · exact switchTo_tracks h' hrun' hout' name asName token _ hx

/-! ## Calls by clauses -/

theorem execCall_tracks {name : Text} {args : List Expr} (hname : (name, false) ∈ names) (hargs : callsAll args ⊆ names) :
    Tracks answer (orNoted [] (fun _ => advance) (execCall name args)) m u := by
  have hρ := hostAnswers_faithful answer
  have hargs : Follows answer names (evalArgs [] 0 args) := follows_expressive.evalArgs [] 0 args hargs
  have hrest : ∀ value, Detached (do setVar "RESULT" value; advance : Engine σ Unit) := fun value =>
    .bind (.modifyVariables _) fun _ => advance_detached
  refine .orNoted_bind (fun _ => advance_detached) hargs.settles (evalArgs_evaluates [] 0 args)
    (fun a => .of_defers hρ fun w => .orNoted (fun _ => .modifyTop _) fun hn =>
      .then (call_evaluates (Set.mem_univ []) name a false false w hn) fun value => (hrest value).immediate) h hrun
    (hargs.tracks h hrun hout) fun a m1 u1 h1 htwin1 hrun1 hn => ?_
  refine call_tracks htwin1 hrun1 (((hargs.evaluates m).ok h1).outward hout _ hname) hrest (orNoted_of_none hn) fun w hw => ?_
  exact orNoted_of_none (by rw [hw.memo, memo_twin htwin1, hn])

theorem execRoutine_tracks {name : Text} {args : List Expr} (hcalls : m.interp.routineCalls name args ⊆ names) :
    Tracks answer (execRoutine name args) m u := by
  have hops : u.interp.operations = m.interp.operations := by rw [h.interp]; rfl
  unfold routineCalls at hcalls
  cases hop : (if args.isEmpty then m.interp.operations[name]? else none) with
  | some op =>
    have heq : ∀ w, w.interp.operations = m.interp.operations →
        execRoutine name args w = orNoted [] (fun _ => advance) (execHostOperation name op.code []) w := by
      intro w hw
      rw [execRoutine_apply, hw, hop]
    exact (Detached.orNoted (fun _ => advance_detached) (execHostOperation_detached name op.code [])).tracks_of_eq h
      (heq m rfl) (heq u hops)
  | none =>
    rw [hop] at hcalls
    have hcalls := cons_subset.1 hcalls
    have heq : ∀ w, w.interp.operations = m.interp.operations →
        execRoutine name args w = orNoted [] (fun _ => advance) (execCall name args) w := by
      intro w hw
      rw [execRoutine_apply, hw, hop]
    obtain ⟨r, hr, halike⟩ := execCall_tracks h hrun hout hcalls.1 hcalls.2
    refine ⟨r, (Replays.congr_registries hrun (fun w hw => heq w (hw.operations.trans hops)) fun w => ?_).2 hr, ?_⟩
    · exact .orNoted (fun _ => .modifyTop _) fun hn => execCall_defers name args w hn
    · rw [heq m rfl]
      exact halike

theorem execOperation_tracks (name : Text) {params : List (Text × Expr)}
    (hparams : callsAll (params.map Prod.snd) ⊆ names) : Tracks answer (execOperation name params) m u := by
  have hargs : Follows answer names (evalArgs [] 0 (params.map Prod.snd)) := follows_expressive.evalArgs [] 0 _ hparams
  refine .orNoted_bind (fun _ => advance_detached) hargs.settles (evalArgs_evaluates [] 0 _)
    (fun values => .of_defers (hostAnswers_faithful answer) fun w => ?_) h hrun (hargs.tracks h hrun hout)
    fun values m1 u1 _ htwin1 hrun1 hn => operate_tracks htwin1 hrun1 name _ hn
  exact .orNoted (fun _ => .modifyTop _) fun _ => operate_defers name _ w

end

/-! ## RETURN -/

theorem Detached.concurs {c : Engine σ Unit} (hc : Detached c) (h : m.Counterpart answer u) (depth : Nat) :
    Concurs answer depth (c m) (c u) := by
  have hu := hc.oblivious m m.top.replies u.targets u.channel
  rw [← h.eq_refit] at hu
  rw [hu]
  have hpart : ∀ m' : Machine σ, m'.top.replies = m.top.replies → m'.targets = m.targets →
      m'.Counterpart answer (m'.refit m.top.replies u.targets u.channel) := fun m' hr ht =>
    ⟨by rw [← hr]; rfl, fun name => ht ▸ h.targets name, rfl, rfl⟩
  cases hm : c m with
  | ok v m' =>
    obtain ⟨hr, ht⟩ := hc.oblivious.keeps hm
    exact .value ((hpart m' hr ht).modifyInterp _)
  | error e m' =>
    obtain ⟨hr, ht⟩ := hc.oblivious.keeps_of_error hm
    cases e with
    | suspended => exact absurd hm (hc.immediate m m')
    | raised e => exact .raises ((hpart m' hr ht).modifyInterp _)

theorem handBack_detached (c : Caller) (value : Option Text) : Detached (handBack c value : Engine σ Unit) := by
  refine ⟨fun m replies targets channel => ?_, immediate_elementary.handBack c value⟩
  obtain ⟨frame, site, needsValue⟩ := c
  cases needsValue <;> cases value <;> rfl

theorem returnWith_concurs (value : Option Text) (h : m.Twin answer u) :
    Concurs answer m.stack.depth (returnWith value m) (returnWith value u) := by
  have hcallers : u.stack.callers = m.stack.callers := by rw [Machine.stack, h.interp]; rfl
  cases hc : m.stack.callers with
  | nil =>
    rw [returnWith_of_nil hc, returnWith_of_nil (hcallers.trans hc)]
    have hfinish : Detached (finish value : Engine σ Unit) := .modifyInterp fun _ _ => rfl
    refine (hfinish.alike h).concurs fun m' hm => ?_
    cases hm
    rfl
  | cons c cs =>
    rw [returnWith_of_cons hc, returnWith_of_cons (hcallers.trans hc)]
    have hpop : (popped m c cs).Counterpart answer (popped u c cs) := by
      refine ⟨?_, h.targets, h.around, h.host⟩
      show ({ u.interp with stack := ⟨c.frame, cs⟩ } : Interpreter σ) = _
      rw [h.interp]
      rfl
    exact (handBack_detached c value).concurs hpop _

theorem execReturn_concurs (x : Option Expr) (h : m.Twin answer u) (hrun : u.Running)
    (hout : m.interp.Outward (callsOpt x)) :
    ∃ r, Replays (HostAnswers answer) (evalIfAny (eval [0]) x >>= returnWith) u r ∧
      Concurs answer m.stack.depth ((evalIfAny (eval [0]) x >>= returnWith) m) r := by
  have hx : Follows answer (callsOpt x) (evalIfAny (eval [0]) x) := evalIfAny_follows [0] (Subset.refl _)
  have hiff := fun r => Replays.bind_iff (hostAnswers_faithful answer) hx.settles
    (fun value => .of_immediate (immediate_elementary.returnWith value)) (r := r) hrun
  obtain ⟨r, hr, halike⟩ := hx.tracks h hrun hout
  have hdepth : ∀ m' v, evalIfAny (eval [0]) x m = .ok v m' → m'.stack.depth = m.stack.depth :=
    fun m' v hm => ((hx.evaluates m).ok hm).depth
  cases hm : evalIfAny (eval [0]) x m with
  | ok value m' =>
    rw [hm] at halike
    cases halike with
    | @value _ _ u' h' =>
      refine ⟨_, (hiff _).2 (.inl ⟨value, u', hr, .of_immediate (immediate_elementary.returnWith value) u'⟩), ?_⟩
      rw [bind_of_ok hm, ← hdepth m' value hm]
      exact returnWith_concurs value h'
  | error e m' =>
    rw [hm] at halike
    cases halike with
    | @raises e _ u' h' =>
      refine ⟨_, (hiff _).2 (.inr ⟨e, u', hr, rfl⟩), ?_⟩
      rw [bind_of_error hm]
      exact (Alike.raises h').concurs fun _ hok => by cases hok

theorem exec_concurs {s : Stmt} (hs : s.Repeatable) (h : m.Twin answer u) (hrun : u.Running)
    (hout : m.interp.Outward (m.interp.callsOf s)) :
    ∃ r, Replays (HostAnswers answer) (exec s) u r ∧ Concurs answer m.stack.depth (exec s m) r := by
  have hstays := fun hleaves : s.leaves = false => exec_stays hleaves m
  -- Most statements evaluate an expression, go on to the next statement, and act.
  have hact : ∀ {α : Type} {a : Engine σ α} {f : α → Engine σ Unit}, Follows answer (m.interp.callsOf s) a →
      (∀ v, Detached (f v)) → Tracks answer (a >>= fun v => advance >>= fun _ => f v) m u := fun ha hf =>
    ha.then h hrun hout fun v => onward_detached (hf v)
  cases hs with
  | assign pos name x =>
    refine Tracks.concurs (hact (eval_follows [0] (Subset.refl _)) fun v => ?_) (hstays rfl)
    exact ⟨assign_oblivious name v, assign_immediate name v⟩
  | say pos x =>
    exact Tracks.concurs (hact (evalOpt_follows [0] (Subset.refl _)) fun _ => .modifyInterp fun _ _ => rfl) (hstays rfl)
  | push pos x =>
    exact Tracks.concurs (hact (evalOpt_follows [0] (Subset.refl _)) fun _ => .modifyInterp fun _ _ => rfl) (hstays rfl)
  | queue pos x =>
    exact Tracks.concurs (hact (evalOpt_follows [0] (Subset.refl _)) fun _ => .modifyInterp fun _ _ => rfl) (hstays rfl)
  | ret pos x => exact execReturn_concurs x h hrun hout
  | ifThen pos cond thens elses =>
    refine Tracks.concurs ?_ (hstays rfl)
    exact (evalTruth_follows [0] (Subset.refl _)).then h hrun hout fun _ => enterBlock_detached _
  | select pos whens otherwise =>
    exact Tracks.concurs (execWhens_tracks h hrun hout otherwise 0 whens (Subset.refl _)) (hstays rfl)
  | call pos name args =>
    refine Tracks.concurs ?_ (hstays rfl)
    exact execCall_tracks h hrun hout mem_cons_self (subset_cons_self _ _)
  | command pos x => exact Tracks.concurs (execCommand_tracks h hrun hout 0 (Subset.refl _)) (hstays rfl)
  | address pos name auth asName cmd =>
    refine Tracks.concurs (execAddress_tracks h hrun hout _ _ ?_ ?_) (hstays rfl)
    · exact subset_append_left _ _
    · exact subset_append_right (callsOpt auth) _
  | routine pos name args => exact Tracks.concurs (execRoutine_tracks h hrun hout (Subset.refl _)) (hstays rfl)
  | operation pos name params => exact Tracks.concurs (execOperation_tracks h hrun hout name (Subset.refl _)) (hstays rfl)

end Engine

end Rexx
