import Rexx.Proofs.Engine.Outcome

/-!
# `Engine.Parts` — parts of statements

Templates, the control of a loop and its start are made of a few things: values, faults, the settings for numbers,
variables and expressions.
-/

namespace Rexx

open Engine

def Machine.visible {σ : Type} (m : Machine σ) :=
  (m.around, m.interp.options, m.top.targetName, m.top.args, m.interp.trapped, m.interp.queue,
    m.interp.vars)

/-! ## Faults of values -/

def SyntaxOnly {α : Type} (r : Except Fault α) : Prop := ∀ f, r = .error f → f.event = .syntaxError

namespace SyntaxOnly

variable {α β : Type}

theorem ok (a : α) : SyntaxOnly (.ok a : Except Fault α) := by
  rintro f ⟨⟩

theorem error {f : Fault} (h : f.event = .syntaxError) : SyntaxOnly (.error f : Except Fault α) := by
  rintro _ ⟨⟩
  exact h

theorem bind {a : Except Fault α} {f : α → Except Fault β} (ha : SyntaxOnly a) (hf : ∀ v, SyntaxOnly (f v)) :
    SyntaxOnly (a >>= f) := by
  cases a with
  | ok v => exact hf v
  | error e => exact error (ha e rfl)

theorem ite {p : Prop} [Decidable p] {r r' : Except Fault α} (h : SyntaxOnly r) (h' : SyntaxOnly r') :
    SyntaxOnly (if p then r else r') := by
  split
  · exact h
  · exact h'

end SyntaxOnly

theorem truth_syntaxOnly (s : Text) : SyntaxOnly (truth s) := by
  refine .ite (.ok _) (.ite (.ok _) ?_)
  split
  · exact .ite (.ok _) (.ite (.ok _) (.error rfl))
  · exact .error rfl

theorem numberOf_syntaxOnly (s : Text) : SyntaxOnly (numberOf s) := by
  unfold numberOf
  split
  · exact .ok _
  · exact .error rfl

theorem countOf_syntaxOnly (s : Text) : SyntaxOnly (Engine.countOf s) := by
  unfold Engine.countOf
  split
  · exact .ite (.error rfl) (.ok _)
  · exact .error rfl

theorem ArithOp.compute_syntaxOnly (op : ArithOp) (x y : Float) (right : Text) : SyntaxOnly (op.compute x y right) := by
  cases op with
  | add => exact .ok _
  | sub => exact .ok _
  | mul => exact .ok _
  | div => exact .ite (.error rfl) (.ok _)
  | intDiv => exact .ite (.error rfl) (.ok _)
  | rem => exact .ite (.error rfl) (.ok _)
  | pow =>
    simp only [compute]
    split
    · exact .ok _
    · exact .error rfl

theorem BinaryOp.apply_syntaxOnly (s : Number.Settings) (op : BinaryOp) (left right : Text) :
    SyntaxOnly (op.apply s left right) := by
  cases op with
  | logic op => exact .bind (truth_syntaxOnly left) fun _ => .bind (truth_syntaxOnly right) fun _ => .ok _
  | compare rel => exact .ok _
  | strict rel => exact .ok _
  | concat b => cases b <;> exact .ok _
  | arith op =>
    refine .bind (numberOf_syntaxOnly left) fun x => .bind (numberOf_syntaxOnly right) fun y => ?_
    refine .bind (op.compute_syntaxOnly x y right) fun v => ?_
    split
    · exact .ok _
    · exact .error rfl

theorem UnaryOp.apply_syntaxOnly (s : Number.Settings) (op : UnaryOp) (operand : Text) : SyntaxOnly (op.apply s operand) := by
  cases op with
  | not => exact .bind (truth_syntaxOnly operand) fun _ => .ok _
  | neg => exact .bind (numberOf_syntaxOnly operand) fun _ => .ok _
  | plus => exact .bind (numberOf_syntaxOnly operand) fun _ => .ok _

namespace Engine

variable {σ : Type} {P : (α : Type) → Engine σ α → Prop}

structure Sequential (P : (α : Type) → Engine σ α → Prop) : Prop where
  pure : ∀ {α : Type} (v : α), P α (Pure.pure v)
  bind : ∀ {α β : Type} {a : Engine σ α} {f : α → Engine σ β}, P α a → (∀ v, P β (f v)) → P β (a >>= f)
  fail : ∀ {α : Type} {f : Fault}, f.event = .syntaxError → P α (Engine.fail f)

theorem Sequential.orFail (hP : Sequential P) {α : Type} {r : Except Fault α} (hr : SyntaxOnly r) : P _ (orFail r) := by
  cases r with
  | ok v => exact hP.pure v
  | error f => exact hP.fail (hr f rfl)

/-! ## Reading and assigning variables -/

structure Pervasive (P : (α : Type) → Engine σ α → Prop) : Prop extends Sequential P where
  numeric : P _ Engine.numeric
  fetch : ∀ name, P _ (Engine.fetch name)
  assign : ∀ name value, P _ (Engine.assign name value)

namespace Pervasive

variable (hP : Pervasive P)
include hP

theorem formatNumber (x : Float) : P _ (formatNumber x) := hP.bind hP.numeric fun _ => hP.pure _

theorem controlValue (var : Text) : P _ (controlValue var) := by
  refine hP.bind (hP.fetch var) fun s => ?_
  split
  · exact hP.pure _
  · exact hP.fail rfl

theorem countOn (l : LoopState) : P _ (countOn l) := by
  unfold Engine.countOn
  cases l.control with
  | counted var _ _ _ _ => exact hP.bind (hP.controlValue var) fun _ => hP.bind (hP.formatNumber _) fun _ => hP.assign var _
  | _ => exact hP.pure _

theorem assignFirst (control : Control) (first : Option Float) : P _ (assignFirst control first) := by
  unfold Engine.assignFirst
  split
  · exact hP.bind (hP.formatNumber _) (hP.assign _)
  · exact hP.pure _

theorem controlAdmits (l : LoopState) : P _ (controlAdmits l) := by
  unfold Engine.controlAdmits
  split
  · exact hP.pure _
  · split
    · split
      · exact hP.pure _
      · exact hP.bind (hP.assign _ _) fun _ => hP.pure _
    · split
      · exact hP.pure _
      · exact hP.bind (hP.controlValue _) fun _ => hP.pure _
    · exact hP.pure _

theorem assignAll (receivers : List (Option Text)) (shares : List Text) :
    P _ (Template.assignAll Engine.assign receivers shares) := by
  fun_induction Template.assignAll Engine.assign receivers shares with
  | case1 name rs s ss ih => exact hP.bind (hP.assign name s) fun _ => ih
  | case2 _ rs ss ih => exact ih
  | case3 => exact hP.pure _

theorem walk (src : Text) (pieces : List Piece) (receivers : List (Option Text)) (pos origin : Nat) :
    P _ (Template.walk Engine.fetch Engine.assign src pieces receivers pos origin) := by
  induction pieces generalizing receivers pos origin with
  | nil => exact hP.assignAll _ _
  | cons p ps ih =>
    cases p with
    | var name => exact ih _ _ _
    | dot => exact ih _ _ _
    | literal text => exact hP.bind (hP.assignAll _ _) fun _ => ih _ _ _
    | pattern name => exact hP.bind (hP.fetch name) fun _ => hP.bind (hP.assignAll _ _) fun _ => ih _ _ _
    | column n => exact hP.bind (hP.assignAll _ _) fun _ => ih _ _ _
    | offset n => exact hP.bind (hP.assignAll _ _) fun _ => ih _ _ _

theorem applyTemplates (letters : Option LetterCase) (ts : List (List Piece)) (texts : List Text) :
    P _ (applyTemplates letters ts texts) := by
  induction ts generalizing texts with
  | nil => exact hP.pure _
  | cons t ts ih => exact hP.bind (hP.walk _ t [] 0 0) fun _ => ih _

end Pervasive

theorem Pervasive.and {R : (α : Type) → Engine σ α → Prop} (hP : Pervasive P) (hR : Pervasive R) :
    Pervasive fun _ c => P _ c ∧ R _ c where
  pure v := ⟨hP.pure v, hR.pure v⟩
  bind ha hf := ⟨hP.bind ha.1 fun v => (hf v).1, hR.bind ha.2 fun v => (hf v).2⟩
  fail hf := ⟨hP.fail hf, hR.fail hf⟩
  numeric := ⟨hP.numeric, hR.numeric⟩
  fetch name := ⟨hP.fetch name, hR.fetch name⟩
  assign name value := ⟨hP.assign name value, hR.assign name value⟩

/-! ## Built-in functions -/

structure Computing (P : (α : Type) → Engine σ α → Prop) : Prop extends Pervasive P where
  reads : ∀ {α : Type} {g : Machine σ → Engine σ α}, (∀ m m', m.visible = m'.visible → g m = g m') → (∀ m, P α (g m)) →
    P α (get >>= g)
  draws : ∀ random, P _ (modify fun m => { m with around := { m.around with random } })
  marks : ∀ markers, P _ (Engine.modifyInterp fun i => { i with options := { i.options with markers } })

namespace Computing

variable (hP : Computing P)
include hP

theorem orBadCall {α : Type} (b : Builtin) (r : Except BadCall α) : P _ (orBadCall b r) := by
  cases r with
  | ok a => exact hP.pure a
  | error why => exact hP.fail rfl

theorem random (a : Args) : P _ (random a) := by
  -- Of the machine that a draw starts with only the generator matters.
  have hdraw : ∀ lo hi : Int, P _ (do
      if hi < lo then fail (.badCall Builtin.random.name .emptyRange)
      else
        let m ← get
        set { m with around := { m.around with random := (m.around.random.between lo hi).2 } }
        return Text.ofInt (m.around.random.between lo hi).1) := by
    intro lo hi
    split
    · exact hP.fail rfl
    · refine hP.reads (g := fun m => (modify fun m' => { m' with around :=
          { m'.around with random := (m.around.random.between lo hi).2 } }) >>= fun _ =>
          Pure.pure (Text.ofInt (m.around.random.between lo hi).1)) (fun m m' h => ?_) fun m => ?_
      · rw [show m.around = m'.around from congrArg Prod.fst h]
      · exact hP.bind (hP.draws _) fun _ => hP.pure _
  refine hP.bind (hP.orBadCall _ _) fun range => ?_
  obtain ⟨lo, hi⟩ := range
  dsimp only
  split
  · exact hP.bind (hP.orBadCall _ _) fun seed => hP.bind (hP.draws _) fun _ => hdraw lo hi
  · exact hdraw lo hi

theorem interpolation (a : Args) : P _ (interpolation a) := by
  refine hP.reads (g := fun m => do
    if !a.isEmpty then
      let name := Text.lower (a.text 0)
      if (MarkerPattern.ofName? name).isNone then
        fail (.badCall Builtin.interpolation.name (.unknownPattern (a.text 0)))
      modifyInterp fun i => { i with options := { i.options with markers := name } }
    return m.interp.options.markers) (fun m m' h => ?_) fun m => ?_
  · rw [show m.interp.options = m'.interp.options from congrArg (·.2.1) h]
  · dsimp only
    split
    · split
      · exact hP.bind (hP.fail rfl) fun _ => hP.bind (hP.marks _) fun _ => hP.pure _
      · exact hP.bind (hP.marks _) fun _ => hP.pure _
    · exact hP.pure _

theorem value (a : Args) : P _ (value a) := by
  have hassign : ∀ name : Text, P _ (do
      let v := (← interp).vars
      let old := (v.peek? name).getD (v.derivedName name)
      if a.size = 2 then assign name (a.text 1)
      return old : Engine σ Text) := by
    intro name
    refine hP.reads (g := fun m => do
      if a.size = 2 then assign name (a.text 1)
      return (m.interp.vars.peek? name).getD (m.interp.vars.derivedName name)) (fun m m' h => ?_) fun m => ?_
    · rw [show m.interp.vars = m'.interp.vars from congrArg (·.2.2.2.2.2.2) h]
    · dsimp only
      split
      · exact hP.bind (hP.assign _ _) fun _ => hP.pure _
      · exact hP.pure _
  unfold Engine.value
  dsimp only
  split
  · exact hP.bind (hP.fail rfl) fun _ => hassign _
  · exact hassign _

theorem callBuiltin (b : Builtin) (a : Args) : P _ (callBuiltin b a) := by
  unfold Engine.callBuiltin
  split
  · refine hP.reads (fun m m' h => ?_) fun m => ?_
    · simp only [Machine.visible, Prod.mk.injEq] at h
      obtain ⟨ha, ho, ht, hargs, htrapped, hq, hv⟩ := h
      simp only [ha, ho, ht, hargs, htrapped, hq, hv]
    · cases b <;> first
        | exact hP.orBadCall _ _
        | exact hP.random a
        | exact hP.interpolation a
        | exact hP.value a
        | exact hP.pure _
  · exact hP.fail rfl

end Computing

/-! ## Evaluation -/

structure Evaluative (P : (α : Type) → Engine σ α → Prop) : Prop extends Sequential P where
  eval : ∀ i x, P _ (Engine.eval [i] x)

namespace Evaluative

variable (hP : Evaluative P)
include hP

variable (g : Option Guard) (i : Nat) (x : Expr)

theorem evalOpt (x : Option Expr) : P _ (evalOpt [i] x) := by
  cases x with
  | some x => exact hP.eval i x
  | none => exact hP.pure _

theorem evalTruth : P _ (evalTruth [i] x) :=
  hP.bind (hP.eval i x) fun s => hP.orFail (truth_syntaxOnly s)

theorem evalIfAny {α : Type} {f : Expr → Engine σ α} (hf : ∀ x, P _ (f x)) (x : Option Expr) : P _ (evalIfAny f x) := by
  cases x with
  | none => exact hP.pure _
  | some x =>
    rw [Engine.evalIfAny]
    exact hP.bind (hf x) fun _ => hP.pure _

theorem evalCount : P _ (evalCount [i] x) :=
  hP.bind (hP.eval i x) fun s => hP.orFail (countOf_syntaxOnly s)

theorem evalNumber : P _ (evalNumber [i] x) :=
  hP.bind (hP.eval i x) fun s => hP.orFail (numberOf_syntaxOnly s)

theorem loopStart (hvars : ∀ {α : Type} (g : Variables → α), P α (do return g (← interp).vars)) (control : Control)
    (guard : Option Guard) : P _ (loopStart control guard) := by
  cases control with
  | conditional => exact hP.pure _
  | forever => exact hP.pure _
  | times count => exact hP.bind (hP.evalCount 0 count) fun _ => hP.pure _
  | counted var first limit by_ count =>
    refine hP.bind (hP.evalNumber 0 first) fun _ => hP.bind (hP.evalIfAny (hP.evalNumber 1) limit) fun _ => ?_
    refine hP.bind (hP.evalIfAny (hP.evalNumber 2) by_) fun _ => ?_
    exact hP.bind (hP.evalIfAny (hP.evalCount 3) count) fun _ => hP.pure _
  | tails var stem => exact hvars fun v => (LoopState.mk (.tails var stem) guard .test none 1.0 none (v.tailsOf stem), none)

theorem guardAdmits : P _ (guardAdmits g) := by
  unfold Engine.guardAdmits
  split
  · exact hP.evalTruth 0 _
  · exact hP.pure _

theorem guardEnds : P _ (guardEnds g) := by
  unfold Engine.guardEnds
  split
  · exact hP.evalTruth 0 _
  · exact hP.pure _

theorem commandText (b : Option (Binding σ)) (x : Expr) : P _ (commandText [i] b x) := by
  unfold Engine.commandText
  split
  · split
    · exact hP.eval i x
    · exact hP.pure _
  · exact hP.eval i x

end Evaluative

/-! ## Rounds of loops -/

structure Looping (P : (α : Type) → Engine σ α → Prop) : Prop extends Pervasive P, Evaluative P where
  leaveBlock : P _ Engine.leaveBlock
  setLoop : ∀ l, P _ (Engine.setLoop l)
  beginRound : ∀ l, P _ (Engine.beginRound l)

namespace Looping

variable (hP : Looping P)
include hP

theorem testLoop (l : LoopState) : P _ (testLoop l) := by
  refine hP.bind (hP.controlAdmits l) fun b => ?_
  split
  · exact hP.leaveBlock
  · refine hP.bind (hP.guardAdmits l.guard) fun b => ?_
    split
    · exact hP.leaveBlock
    · exact hP.beginRound l

theorem stepLoop (l : LoopState) : P _ (stepLoop l) := by
  unfold Engine.stepLoop
  split
  · refine hP.bind (hP.guardEnds l.guard) fun b => ?_
    split
    · exact hP.leaveBlock
    · exact hP.bind (hP.bind (hP.countOn l) fun _ => hP.setLoop _) fun _ => hP.testLoop _
  · exact hP.testLoop l

end Looping

end Engine

end Rexx
