import Rexx.Proofs.Engine.Outcome

/-!
# `Structured.Semantics` — what structured programs mean

A structured program is made of NOP, assignments, SAY, IF, DO, SELECT, LEAVE and ITERATE, and its expressions call
nothing.
-/

namespace Rexx

/-! ## Structured programs -/

def Expr.isPlain : Expr → Bool
  | .literal _ _ | .symbol _ => true
  | .binary _ left right => left.isPlain && right.isPlain
  | .unary _ operand => operand.isPlain
  | .call _ _ _ | .pipe _ _ | .pipeCall _ _ _ => false

def Clause.isStructured : Clause → Bool
  | .nop | .leave _ | .iterate _ => true
  | .assign _ x => x.isPlain
  | .say x => x.all Expr.isPlain
  | _ => false

def Control.isPlain : Control → Bool
  | .conditional | .forever | .tails _ _ => true
  | .times count => count.isPlain
  | .counted _ first limit by_ count =>
    first.isPlain && limit.all Expr.isPlain && by_.all Expr.isPlain && count.all Expr.isPlain

def Guard.isPlain : Guard → Bool
  | .whilst x | .untilTrue x => x.isPlain

mutual

def Stmt.isStructured : Stmt → Bool
  | .clause _ c => c.isStructured
  | .ifThen _ cond thens elses => cond.isPlain && Stmt.areStructured thens && Stmt.areStructured elses
  | .group _ body => Stmt.areStructured body
  | .loop _ control guard body => control.isPlain && guard.all Guard.isPlain && Stmt.areStructured body
  | .select _ whens otherwise => Stmt.whensStructured whens && Stmt.otherwiseStructured otherwise

/-- Whether all statements of a block are. -/
def Stmt.areStructured : List Stmt → Bool
  | [] => true
  | s :: rest => s.isStructured && Stmt.areStructured rest

def Stmt.whensStructured : List (Expr × List Stmt) → Bool
  | [] => true
  | (cond, block) :: whens => cond.isPlain && Stmt.areStructured block && Stmt.whensStructured whens

def Stmt.otherwiseStructured : Option (List Stmt) → Bool
  | none => true
  | some block => Stmt.areStructured block

end

/-! ## Computations on variables -/

abbrev Plain := EStateM Fault Variables

namespace Plain

variable {α : Type} (o : Options)

def ofExcept : Except Fault α → Plain α
  | .ok v => return v
  | .error f => throw f

def fetch (name : Text) : Plain Text := do
  let v ← get
  match v.peek? name with
  | some value => return value
  | none =>
    if Engine.isConstant name then return name
    else if o.noValueFatal then throw (.uninitialized (v.derivedName name))
    else return v.derivedName name

def assign (name value : Text) : Plain Unit := do
  match (← get).assign? name value with
  | some v => set v
  | none => throw (.badName name)

def value : Expr → Plain Text
  | .literal text quote => do
    if Expr.isMarked text quote then
      return Interpolation.expand (MarkerPattern.ofName o.markers) (← get).peek? text
    else return text
  | .symbol name => fetch o name
  | .binary op left right => do
    let a ← value left
    let b ← value right
    ofExcept (op.apply o.numeric a b)
  | .unary op operand => do
    let a ← value operand
    ofExcept (op.apply o.numeric a)
  | .call name _ _ | .pipe _ name | .pipeCall _ name _ => throw (.routineNotFound name)

def valueOpt : Option Expr → Plain Text
  | some x => value o x
  | none => return []

def truth (x : Expr) : Plain Bool := do ofExcept (Rexx.truth (← value o x))

def number (x : Expr) : Plain Float := do ofExcept (numberOf (← value o x))

def count (x : Expr) : Plain Nat := do ofExcept (Engine.countOf (← value o x))

def ifAny (f : Expr → Plain α) : Option Expr → Plain (Option α)
  | some x => some <$> f x
  | none => return none

/-! ## The control of loops -/

/-- What the head of a loop says: the initial value, the limit, the step and the count are evaluated and checked in this
order. -/
def head (control : Control) (guard : Option Guard) : Plain (LoopState × Option Float) := do
  let start : LoopState := ⟨control, guard, .test, none, 1.0, none, []⟩
  match control with
  | .conditional | .forever => return (start, none)
  | .times n => return ({ start with left := some (← count o n) }, none)
  | .counted _ first limit by_ n =>
    let x ← number o first
    let limit ← ifAny (number o) limit
    let step ← ifAny (number o) by_
    let left ← ifAny (count o) n
    return ({ start with limit, step := step.getD 1.0, left }, some x)
  | .tails _ stem => return ({ start with tails := (← get).tailsOf stem }, none)

def initialise (control : Control) (first : Option Float) : Plain Unit :=
  match control.var?, first with
  | some var, some x => assign var (o.numeric.format x)
  | _, _ => pure ()

def controlValue (var : Text) : Plain Float := do
  match Number.ofText? (← fetch o var) with
  | some x => return x
  | none => throw (.controlNotNumber var)

def advance (l : LoopState) : Plain LoopState := do
  match l.control with
  | .counted var _ _ _ _ => assign var (o.numeric.format ((← controlValue o var) + l.step))
  | _ => pure ()
  return l.next

def controlAdmits (l : LoopState) : Plain Bool := do
  if l.left == some 0 then return false
  match l.control with
  | .tails var _ =>
    match l.tails with
    | [] => return false
    | t :: _ =>
      assign var t
      return true
  | .counted var _ _ _ _ =>
    match l.limit with
    | none => return true
    | some limit =>
      let x ← controlValue o var
      return !(if l.step >= 0.0 then x > limit else x < limit)
  | _ => return true

def guardAdmits : Option Guard → Plain Bool
  | some (.whilst x) => truth o x
  | _ => return true

def guardEnds : Option Guard → Plain Bool
  | some (.untilTrue x) => truth o x
  | _ => return false

def testRound (l : LoopState) : Plain (Option LoopState) := do
  if !(← controlAdmits o l) then return none
  else if !(← guardAdmits o l.guard) then return none
  else return some l

def round (l : LoopState) : Plain (Option LoopState) := do
  if l.phase = .after then
    if ← guardEnds o l.guard then return none
    else
      let l ← advance o l
      testRound o l
  else testRound o l

def choose (otherwise : Option (List Stmt)) : List (Expr × List Stmt) → Plain (List Stmt)
  | [] =>
    match otherwise with
    | none => throw .noWhen
    | some block => return block
  | (cond, block) :: whens => do
    if ← truth o cond then return block
    else choose otherwise whens

/-! ## What loops keep -/

variable {l l' : LoopState} {v v' : Variables}

theorem bind_eq_ok {β : Type} {a : Plain α} {f : α → Plain β} {b : β} (h : (a >>= f) v = .ok b v') :
    ∃ x v1, a v = .ok x v1 ∧ f x v1 = .ok b v' := by
  rw [bind_apply] at h
  cases ha : a v with
  | ok x v1 =>
    rw [ha] at h
    exact ⟨x, v1, rfl, h⟩
  | error e v1 =>
    rw [ha] at h
    cases h

theorem advance_guard (h : advance o l v = .ok l' v') : l'.guard = l.guard := by
  unfold advance at h
  cases hc : l.control with
  | counted var first limit by_ n =>
    simp only [hc] at h
    obtain ⟨x, v1, -, h⟩ := bind_eq_ok h
    obtain ⟨_, v2, -, h⟩ := bind_eq_ok h
    cases h
    rfl
  | _ =>
    simp only [hc] at h
    cases h
    rfl

theorem admit_same (h : testRound o l v = .ok (some l') v') : l' = l := by
  obtain ⟨b, v1, -, h⟩ := bind_eq_ok h
  split at h
  · cases h
  · obtain ⟨b', v2, -, h⟩ := bind_eq_ok h
    split at h
    · cases h
    · cases h
      rfl

theorem round_guard (h : round o l v = .ok (some l') v') : l'.guard = l.guard := by
  unfold round at h
  split at h
  · obtain ⟨b, v1, -, h⟩ := bind_eq_ok h
    split at h
    · cases h
    · obtain ⟨l1, v2, hadv, h⟩ := bind_eq_ok h
      rw [admit_same o h, advance_guard o hadv]
  · rw [admit_same o h]

theorem head_start {control : Control} {guard : Option Guard} {p : LoopState × Option Float}
    (h : head o control guard v = .ok p v') : p.1.guard = guard ∧ p.1.phase = .test := by
  cases control with
  | counted var first limit by_ n =>
    obtain ⟨x, v1, -, h⟩ := bind_eq_ok h
    obtain ⟨limit, v2, -, h⟩ := bind_eq_ok h
    obtain ⟨step, v3, -, h⟩ := bind_eq_ok h
    obtain ⟨left, v4, -, h⟩ := bind_eq_ok h
    cases h
    exact ⟨rfl, rfl⟩
  | times n =>
    obtain ⟨left, v1, -, h⟩ := bind_eq_ok h
    cases h
    exact ⟨rfl, rfl⟩
  | _ =>
    cases h
    exact ⟨rfl, rfl⟩

end Plain

/-! ## Statements -/

namespace Structured

structure Scene where
  vars : Variables
  said : Array Text

inductive Flow where
  | normal
  | leave (var : Option Text)
  | iterate (var : Option Text)
  | fails (f : Fault)

def answers (l : LoopState) : Option Text → Bool
  | none => true
  | some v => l.control.var? == some v

def Flow.goesOn (l : LoopState) : Flow → Bool
  | .normal => true
  | .iterate var => answers l var
  | _ => false

def Flow.leaves (l : LoopState) : Flow → Bool
  | .leave var => answers l var
  | _ => false

inductive Task where
  | stmt (s : Stmt)
  | block (body : List Stmt)
  | loop (l : LoopState) (body : List Stmt)

def Scene.compute {α : Type} (s : Scene) (c : Plain α) (next : α → Scene → Option (Scene × Flow)) :
    Option (Scene × Flow) :=
  match c s.vars with
  | .ok a v => next a { s with vars := v }
  | .error f v => some ({ s with vars := v }, .fails f)

/-- **What a task does**, if the recursion does not go deeper than the bound. -/
def perform (o : Options) : Nat → Task → Scene → Option (Scene × Flow)
  | 0, _, _ => none
  | _ + 1, .block [], s => some (s, .normal)
  | n + 1, .block (first :: rest), s =>
    match perform o n (.stmt first) s with
    | some (s, .normal) => perform o n (.block rest) s
    | r => r
  | n + 1, .stmt stmt, s =>
    match stmt with
    | .clause _ .nop => some (s, .normal)
    | .clause _ (.assign name x) =>
      s.compute (do Plain.assign name (← Plain.value o x)) fun _ s => some (s, .normal)
    | .clause _ (.say x) =>
      s.compute (Plain.valueOpt o x) fun line s => some ({ s with said := s.said.push line }, .normal)
    | .clause _ (.leave var) => some (s, .leave var)
    | .clause _ (.iterate var) => some (s, .iterate var)
    | .ifThen _ cond thens elses =>
      s.compute (Plain.truth o cond) fun b s => perform o n (.block (if b then thens else elses)) s
    | .group _ body => perform o n (.block body) s
    | .loop _ control guard body =>
      s.compute (do let (l, first) ← Plain.head o control guard; Plain.initialise o control first; return l)
        fun l s => perform o n (.loop l body) s
    | .select _ whens otherwise =>
      s.compute (Plain.choose o otherwise whens) fun block s => perform o n (.block block) s
    | _ => none
  | n + 1, .loop l body, s =>
    s.compute (Plain.round o l) fun l? s =>
      match l? with
      | none => some (s, .normal)
      | some l =>
        match perform o n (.block body) s with
        | none => none
        | some (s, fl) =>
          if fl.goesOn l then perform o n (.loop { l with phase := .after } body) s
          else if fl.leaves l then some (s, .normal)
          else some (s, fl)

def Flow.outcome : Flow → Option (Event × Int)
  | .normal => none
  | .leave var | .iterate var => some ((Fault.noLoop var).condition.event, (Fault.noLoop var).condition.code)
  | .fails f => some (f.condition.event, f.condition.code)

/-- **The meaning of a structured program**: it ends, with the lines said, the variables and the outcome given. -/
def Performs (o : Options) (body : List Stmt) (s s' : Scene) (r : Option (Event × Int)) : Prop :=
  ∃ n fl, perform o n (.block body) s = some (s', fl) ∧ fl.outcome = r

end Structured

end Rexx
