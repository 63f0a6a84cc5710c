import Rexx.Proofs.Clause.Acts

/-!
# `Clause.Anatomy` — what statements are made of

A statement evaluates its operands, goes on to the next statement or into a block, and acts; a few clauses act before
they go on, and a few lead elsewhere.
-/

namespace Rexx

open Engine

def Stmt.blocks : Stmt → List (List Stmt)
  | .clause _ _ => []
  | .ifThen _ _ thens elses => [thens, elses]
  | .group _ body => [body]
  | .loop _ _ _ body => [body]
  | .select _ whens otherwise => whens.map Prod.snd ++ otherwise.toList

structure Outlook (σ : Type) where
  queue : List Text
  input : List Text
  args : List Text
  main : Bool
  title : Text
  target : Option Text
  binding : Option (Binding σ)

def Machine.outlook {σ : Type} (m : Machine σ) : Outlook σ where
  queue := m.interp.queue
  input := m.interp.input
  args := m.top.args
  main := m.stack.callers.isEmpty
  title := m.interp.program.title
  target := m.top.target
  binding := m.binding? m.top

namespace Engine

variable {σ : Type} {P : (α : Type) → Engine σ α → Prop}

/-! ## Parts of clauses -/

def look : Engine σ (Outlook σ) := do return (← get).outlook

def speak (g : Array Text × List Text × List Text → Array Text × List Text × List Text) : Engine σ Unit :=
  modifyInterp fun i =>
    let p := g (i.said, i.queue, i.input)
    { i with said := p.1, queue := p.2.1, input := p.2.2 }

def takeLine (v : Outlook σ) : Engine σ Text :=
  match v.queue, v.input with
  | s :: queue, _ => do
    speak fun p => (p.1, queue, p.2.2)
    return s
  | [], s :: input => do
    speak fun p => (p.1, p.2.1, input)
    return s
  | [], [] => return []

theorem execCommand_apply (site : Site) (x : Expr) (m : Machine σ) :
    execCommand site x m = (commandText site (m.binding? m.top) x >>= carryOut (commandee? m)) m := rfl

theorem permit_apply (m : Machine σ) : permit m =
      if m.interp.interpretBlocked then .error (.raised Fault.interpretBlocked.condition) m else .ok () m := by
  simp only [permit, bind_apply, interp_apply]
  cases m.interp.interpretBlocked <;> rfl

theorem permit_ok {m u : Machine σ} : permit m = .ok () u ↔ m.interp.interpretBlocked = false ∧ u = m := by
  rw [permit_apply]
  cases m.interp.interpretBlocked <;> simp [eq_comm]

/-! ## Properties of what reads and changes the interpreter alone -/

structure Elementary (P : (α : Type) → Engine σ α → Prop) : Prop extends Sequential P where
  interp : P _ Engine.interp
  modifyInterp : ∀ f, (∀ m : Machine σ, (m.modifyInterp f).loading = m.loading) → P _ (Engine.modifyInterp f)

namespace Elementary

variable (hP : Elementary P)
include hP

theorem reads {α : Type} (g : Interpreter σ → α) : P _ (do return g (← Engine.interp)) :=
  hP.bind hP.interp fun _ => hP.pure _

theorem top : P _ top := hP.reads (·.stack.top)

theorem numeric : P _ numeric := hP.reads (·.options.numeric)

theorem modifyTop (f : Frame → Frame) : P _ (modifyTop f) := hP.modifyInterp _ fun _ => rfl

theorem assign (name value : Text) : P _ (assign name value) := by
  refine hP.bind hP.interp fun i => ?_
  split
  · exact hP.modifyInterp _ fun _ => rfl
  · exact hP.fail rfl

theorem jump (label : Text) : P _ (jump label) := by
  refine hP.bind hP.interp fun i => ?_
  dsimp only
  split
  · exact hP.modifyTop _
  · exact hP.fail rfl

theorem leaveLoop (var : Option Text) (again : Bool) : P _ (leaveLoop var again) := by
  refine hP.bind hP.top fun f => ?_
  split
  · exact hP.fail rfl
  · exact hP.modifyTop _

theorem handBack (c : Caller) (value : Option Text) : P _ (handBack c value) := by
  have hnote := hP.modifyTop fun f => { f with memo := (c.site, value.getD []) :: f.memo }
  unfold Engine.handBack
  dsimp only
  split
  · refine hP.bind (hP.fail rfl) fun _ => ?_
    split
    · exact hP.bind (hP.modifyInterp _ fun _ => rfl) fun _ => hnote
    · exact hnote
  · split
    · exact hP.bind (hP.modifyInterp _ fun _ => rfl) fun _ => hnote
    · exact hnote

theorem returnWith (value : Option Text) : P _ (returnWith value) := by
  refine hP.bind hP.interp fun i => ?_
  cases i.stack.callers with
  | nil => exact hP.modifyInterp _ fun _ => rfl
  | cons c cs => exact hP.bind (hP.modifyInterp _ fun _ => rfl) fun _ => hP.handBack c value

theorem endBlock (c : Cursor) : P _ (endBlock c) := by
  unfold Engine.endBlock
  split
  · exact hP.modifyTop _
  · refine hP.bind hP.interp fun i => ?_
    dsimp only
    split
    · exact hP.modifyTop _
    · split
      · exact hP.returnWith none
      · exact hP.bind (hP.modifyTop _) fun _ => hP.modifyInterp _ fun _ => rfl

theorem permit : P _ permit := by
  refine hP.bind hP.interp fun i => ?_
  split
  · exact hP.fail rfl
  · exact hP.pure _

theorem enterText (p : Program) : P _ (enterText p) := by
  refine hP.bind hP.interp fun i => hP.bind (hP.modifyTop _) fun _ => hP.bind (hP.modifyInterp _ fun _ => rfl) fun _ => ?_
  split
  · exact hP.modifyTop _
  · exact hP.pure _

theorem runText (source : Text) : P _ (runText source) := by
  refine hP.bind hP.interp fun i => ?_
  split
  · exact hP.fail rfl
  · split
    · exact hP.fail rfl
    · exact hP.enterText _

theorem execProcedure (names : List Text) : P _ (execProcedure names) := by
  refine hP.bind hP.interp fun i => ?_
  dsimp only
  split
  · exact hP.fail rfl
  · split
    · exact hP.fail rfl
    · exact hP.bind (hP.modifyInterp _ fun _ => rfl) fun _ => hP.modifyTop _

theorem setNumeric (setting : NumericSetting) (given : Option Text) : P _ (setNumeric setting given) := by
  have hgiven : SyntaxOnly (settingGiven setting given) := by
    unfold settingGiven
    split
    · exact .ok _
    · split
      · exact .ok _
      · exact .error rfl
  have hchanged : ∀ now n, SyntaxOnly (settingsWith setting now n) := fun now n => by
    cases setting <;> exact .ite (.error rfl) (.ok _)
  refine hP.bind (hP.orFail hgiven) fun n => hP.bind hP.numeric fun now => ?_
  exact hP.bind (hP.orFail (hchanged now n)) fun _ => hP.modifyInterp _ fun _ => rfl

end Elementary

/-! ## Properties of statements -/

/-- **What a property must have for every statement to have it**: `E` is asked of what is evaluated and looked at, `A`
of what acts, and `Q` of whole statements. -/
structure Executive (k : Option Clause) (blocks : List (List Stmt)) (E A Q : (α : Type) → Engine σ α → Prop) : Prop where
  evaluative : Evaluative E
  pervasive : Pervasive A
  seq : ∀ {α β : Type} {a : Engine σ α} {f : α → Engine σ β}, E α a → (∀ v, Q β (f v)) → Q β (a >>= f)
  onward : ∀ {c : Engine σ Unit}, A _ c → Q _ (Engine.advance >>= fun _ => c)
  acted : ∀ {c : Engine σ Unit}, A _ c → Q _ (c >>= fun _ => Engine.advance)
  inward : ∀ {c : Engine σ Unit} {block : List Stmt}, A _ c → block ∈ blocks → ∀ loop,
    Q _ (Engine.advance >>= fun _ => c >>= fun _ => modifyTop fun f => f.enter ⟨block, 0, f.unit, loop⟩)
  look : E _ Engine.look
  vars : ∀ {α : Type} (g : Variables → α), E α (do return g (← interp).vars)
  fetch : ∀ name, E _ (Engine.fetch name)
  take : ∀ g, E _ (speak g)
  speak : ∀ g, A _ (speak g)
  change : ∀ {f : Variables → Variables}, (∀ v : Variables, v.Grows (f v)) → A _ (modifyVariables f)
  send : ∀ name cmd params method, Q _ (Engine.send name cmd params method)
  -- Clauses that act.
  forbid : k = some .noInterpret → A _ (modifyInterp fun i => { i with interpretBlocked := true })
  arm : ∀ {event label}, k = some (.signalOn event label) → A _ (modifyTop fun f => f.arm event label)
  disarm : ∀ {event}, k = some (.signalOff event) → A _ (modifyTop fun f => f.disarm event)
  trace : ∀ {option}, k = some (.trace option) → ∀ trace,
    A _ (modifyInterp fun i => { i with options := { i.options with trace } })
  count : ∀ {setting x}, k = some (.numeric setting x) → ∀ given, A _ (setNumeric setting given)
  form : ∀ {engineering}, k = some (.numericForm engineering) → ∀ form,
    A _ (modifyInterp fun i => { i with options := { i.options with numeric := { i.options.numeric with form } } })
  aim : ∀ {name auth asName cmd}, k = some (.address name auth asName cmd) → ∀ target,
    A _ (modifyTop fun f => { f with target })
  switch : ∀ {name auth asName cmd}, k = some (.address name auth asName cmd) → ∀ token,
    E _ (switchTo (name.getD []) (asName.getD []) token)
  load : ∀ {x as}, k = some (.require x as) → ∀ spec, A _ (loadModule (as.getD []) spec)
  report : ∀ {code cond message}, k = some (.exitUnless code cond message) → ∀ line, E _ (report line)
  -- Clauses with a course of their own.
  exit : (∃ c, k = some c ∧ c.leaves = true) → ∀ value, Q _ (exitWith value)
  ret : (∃ c, k = some c ∧ c.leaves = true) → ∀ value, Q _ (returnWith value)
  jump : ∀ label, Q _ (jump label)
  leave : ∀ var again, Q _ (leaveLoop var again)
  interpret : ∀ {x}, k = some (.interpret x) → Q _ (execInterpret x)
  procedure : ∀ {names}, k = some (.procedure names) → Q _ (execProcedure names)
  call : ∀ name args, Q _ (unlessReturned (execCall name args))
  routine : ∀ name args, Q _ (execRoutine name args)
  operation : ∀ name params, Q _ (execOperation name params)

namespace Executive

variable {k : Option Clause} {blocks : List (List Stmt)} {E A Q : (α : Type) → Engine σ α → Prop}
  (hX : Executive k blocks E A Q)
include hX

theorem advance : Q _ advance := hX.onward (hX.pervasive.pure ())

theorem fail {f : Fault} (hf : f.event = .syntaxError) : Q Unit (fail f) :=
  hX.seq (f := fun _ : Unit => Engine.advance) (hX.evaluative.fail hf) fun _ => hX.advance

theorem enterBlock {block : List Stmt} (hb : block ∈ blocks) :
    Q _ (Engine.advance >>= fun _ => Engine.enterBlock block) := by
  unfold Engine.enterBlock
  split
  · exact hX.advance
  · exact hX.inward (hX.pervasive.pure ()) hb none

/-! ### Commands -/

theorem carryOut (target : Option Text) (cmd : Text) : Q _ (carryOut target cmd) := by
  cases target with
  | none =>
    refine hX.onward (hX.pervasive.bind (hX.speak fun p => (p.1.push cmd, p.2)) fun _ => ?_)
    exact hX.change fun v => .publish v _
  | some name => exact hX.send name cmd [] false

theorem execCommand (i : Nat) (x : Expr) : Q _ (execCommand [i] x) := by
  have hcommand := hX.seq hX.look fun v =>
    hX.seq (hX.evaluative.commandText i v.binding x) (hX.carryOut (v.binding.bind fun _ => v.target))
  exact hcommand

theorem execAddress {name asName : Option Text} {auth cmd : Option Expr}
    (hk : k = some (.address name auth asName cmd)) :
    Q _ (execAddress (name.getD []) auth (asName.getD []) cmd) := by
  unfold Engine.execAddress
  split
  · exact hX.onward (hX.aim hk none)
  · refine hX.seq (hX.evaluative.evalOpt 0 auth) fun token => hX.seq (hX.switch hk token) fun _ => ?_
    cases cmd with
    | none => exact hX.advance
    | some x => exact hX.execCommand _ x

/-! ### Other clauses -/

theorem pull : E _ pull := by
  refine hX.evaluative.bind (f := takeLine) hX.look fun v => ?_
  unfold takeLine
  split
  · exact hX.evaluative.bind (hX.take _) fun _ => hX.evaluative.pure _
  · exact hX.evaluative.bind (hX.take _) fun _ => hX.evaluative.pure _
  · exact hX.evaluative.pure _

theorem parseTexts (src : ParseSource) : E _ (parseTexts src) := by
  have hone : ∀ {c : Engine σ Text}, E _ c → E _ (do return [← c]) := fun hc =>
    hX.evaluative.bind hc fun _ => hX.evaluative.pure _
  cases src with
  | arg =>
    have hargs := hX.evaluative.bind hX.look fun v => hX.evaluative.pure v.args
    exact hargs
  | var name => exact hone (hX.fetch name)
  | value x => exact hone (hX.evaluative.evalOpt 0 x)
  | pull => exact hone hX.pull
  | version => exact hX.evaluative.pure _
  | source =>
    have hsource := hX.evaluative.bind hX.look fun v => hX.evaluative.pure
      [("LINUX " : Text) ++ (if v.main then ("COMMAND " : Text) else ("SUBROUTINE " : Text)) ++ v.title]
    exact hsource

theorem execClause {c : Clause} (hk : k = some c) : Q _ (execClause c) := by
  have hE := hX.evaluative
  cases c with
  | nop => exact hX.advance
  | label name => exact hX.advance
  | noInterpret => exact hX.acted (hX.forbid hk)
  | assign name x => exact hX.seq (hE.eval 0 x) fun value => hX.onward (hX.pervasive.assign name value)
  | say x => exact hX.seq (hE.evalOpt 0 x) fun value => hX.onward (hX.speak fun p => (p.1.push value, p.2))
  | exit x => exact hX.seq (hE.evalIfAny (hE.eval 0) x) (hX.exit ⟨_, hk, rfl⟩)
  | exitUnless code cond message =>
    refine hX.seq (hE.evalTruth 0 cond) fun b => ?_
    split
    · exact hX.advance
    · refine hX.seq (hE.eval 1 message) fun text => hX.seq (hX.report hk text) fun _ => ?_
      exact hX.seq (hE.evalIfAny (hE.eval 2) code) (hX.exit ⟨_, hk, rfl⟩)
  | ret x => exact hX.seq (hE.evalIfAny (hE.eval 0) x) (hX.ret ⟨_, hk, rfl⟩)
  | push x => exact hX.seq (hE.evalOpt 0 x) fun value => hX.onward (hX.speak fun p => (p.1, value :: p.2.1, p.2.2))
  | queue x => exact hX.seq (hE.evalOpt 0 x) fun value => hX.onward (hX.speak fun p => (p.1, p.2.1 ++ [value], p.2.2))
  | interpret x => exact hX.interpret hk
  | command x => exact hX.execCommand 0 x
  | call name args => exact hX.call name args
  | routine name args => exact hX.routine name args
  | operation name params => exact hX.operation name params
  | signal label => exact hX.jump label
  | signalValue x => exact hX.seq (hE.eval 0 x) fun value => hX.jump (Text.upper value)
  | signalOn event label => exact hX.acted (hX.arm hk)
  | signalOff event => exact hX.acted (hX.disarm hk)
  | leave var => exact hX.leave var false
  | iterate var => exact hX.leave var true
  | trace option => exact hX.acted (hX.trace hk _)
  | parse src letters templates =>
    exact hX.seq (hX.parseTexts src) fun texts => hX.onward (hX.pervasive.applyTemplates letters templates texts)
  | address name auth asName cmd => exact hX.execAddress hk
  | require spec as => exact hX.seq (hE.eval 0 spec) fun spec => hX.onward (hX.load hk spec)
  | procedure names => exact hX.procedure hk
  | drop names => exact hX.acted (hX.change fun v => .dropNames v names)
  | numeric setting x =>
    exact hX.seq (hE.evalIfAny (hE.eval 0) x) fun given => hX.acted (hX.count hk given)
  | numericForm engineering => exact hX.acted (hX.form hk _)

theorem execWhens {otherwise : Option (List Stmt)} {whens : List (Expr × List Stmt)} (i : Nat)
    (hwhens : ∀ w ∈ whens, w.2 ∈ blocks) (hother : ∀ b ∈ otherwise, b ∈ blocks) :
    Q _ (Engine.execWhens otherwise i whens) := by
  induction whens generalizing i with
  | nil =>
    cases otherwise with
    | none => exact hX.fail rfl
    | some block => exact hX.enterBlock (hother block rfl)
  | cons w whens ih =>
    obtain ⟨cond, block⟩ := w
    refine hX.seq (hX.evaluative.evalTruth i cond) fun b => ?_
    split
    · exact hX.enterBlock (hwhens _ List.mem_cons_self)
    · exact ih (i + 1) fun w hw => hwhens w (List.mem_cons_of_mem _ hw)

theorem execLoop {control : Control} {guard : Option Guard} {body : List Stmt} (hb : body ∈ blocks) :
    Q _ (execLoop control guard body) := by
  refine hX.seq (hX.evaluative.loopStart hX.vars control guard) ?_
  rintro ⟨loop, first⟩
  exact hX.inward (hX.pervasive.assignFirst control first) hb (some loop)

end Executive

theorem Executive.exec {s : Stmt} {E A Q : (α : Type) → Engine σ α → Prop} (hX : Executive s.clause? s.blocks E A Q) :
    Q _ (Engine.exec s) := by
  cases s with
  | clause pos c => exact hX.execClause rfl
  | ifThen pos cond thens elses =>
    refine hX.seq (hX.evaluative.evalTruth 0 cond) fun b => hX.enterBlock ?_
    cases b with
    | true => exact List.mem_cons_self
    | false => exact List.mem_cons_of_mem _ List.mem_cons_self
  | group pos body => exact hX.inward (hX.pervasive.pure ()) (List.mem_singleton_self body) none
  | loop pos control guard body => exact hX.execLoop (List.mem_singleton_self body)
  | select pos whens otherwise =>
    refine hX.execWhens 0 (fun w hw => ?_) fun b hb => ?_
    · exact List.mem_append_left _ (List.mem_map_of_mem hw)
    · exact List.mem_append_right _ (Option.mem_toList.2 hb)

end Engine

end Rexx
