import Rexx.Proofs.Place.Steps

/-!
# `Tandem.Evaluation` — evaluation on two machines in step

A computation that is made on two machines in step ends in the same way on both, and leaves them in step
(`Engine.Tandem`).
-/

namespace Rexx

open Engine Rexx.Frame Interpreter List Place

/-! ## Places -/

namespace Place

def onTop (π : Place) (f : List Cursor → List Cursor) : Place := { π with top := f π.top }

def advance (π : Place) : Place := π.onTop (List.modifyHead Cursor.next)

def leave (π : Place) (n : Nat) : Place := π.onTop (List.drop n)

def loop (π : Place) (l : LoopState) : Place := π.onTop (List.modifyHead fun c => { c with loop := some l })

def again (π : Place) (l : LoopState) : Place := π.onTop (List.modifyHead fun c => { c with pc := 0, loop := some l })

def enter (π : Place) (block : List Stmt) (loop : Option LoopState) : Place :=
  π.onTop fun cs => ⟨block, 0, cs.head?.bind Cursor.unit, loop⟩ :: cs

def goto (π : Place) (k : Nat) : Place := π.onTop fun _ => [.at π.program.body (k + 1) none]

def call (π : Place) (k : Nat) : Place :=
  { π with top := [.at π.program.body (k + 1) none], callers := π.top :: π.callers }

def pop (π : Place) : Place :=
  match π.callers with
  | [] => π
  | t :: ts => { π with top := t, callers := ts }

def clear (π : Place) : Place := { π with top := [], callers := [] }

def interpret (π : Place) (line : Nat) (p : Program) : Place :=
  { π.advance with
    fragments := π.live ++ [⟨π.nextFragment, line, p.lines⟩]
    nextFragment := π.nextFragment + 1
    top := (if p.body.isEmpty then [] else [.at p.body 0 (some π.nextFragment)]) ++ π.advance.top }

structure Lawful (P : Place → Place → Prop) : Prop where
  loops : ∀ {π π'}, P π π' → List.Forall₂ (fun c c' : Cursor => c'.loop = c.loop) π.top π'.top
  status : ∀ {π π'} (st : Status), P π π' → P { π with status := st } { π' with status := st }
  advance : ∀ {π π'}, P π π' → P π.advance π'.advance
  leave : ∀ {π π'} (n : Nat), P π π' → P (π.leave n) (π'.leave n)
  loop : ∀ {π π'} (l : LoopState), P π π' → P (π.loop l) (π'.loop l)
  again : ∀ {π π'} (l : LoopState), P π π' → P (π.again l) (π'.again l)
  goto : ∀ {π π'} (k : Nat), P π π' → P (π.goto k) (π'.goto k)
  call : ∀ {π π'} (k : Nat), P π π' → P (π.call k) (π'.call k)
  pop : ∀ {π π'}, P π π' → P π.pop π'.pop
  clear : ∀ {π π'}, P π π' → P π.clear π'.clear
  interpret : ∀ {π π'} (line : Nat) (p : Program), P π π' → P (π.interpret line p) (π'.interpret line p)

end Place

/-! ## Data -/

structure Frame.SameData (f f' : Frame) : Prop where
  same : f' = { f with cursors := f'.cursors, steps := f'.steps }
  first : f'.steps = 0 ↔ f.steps = 0

theorem Frame.SameData.trap? {f f' : Frame} (h : f.SameData f') (e : Event) : f'.trap? e = f.trap? e := by
  rw [h.same]
  rfl

structure Caller.SameData (c c' : Caller) : Prop where
  frame : c.frame.SameData c'.frame
  site : c'.site = c.site
  needsValue : c'.needsValue = c.needsValue

structure Stack.SameData (s t : Stack) : Prop where
  top : s.top.SameData t.top
  callers : List.Forall₂ Caller.SameData s.callers t.callers

def Interpreter.onCourseOf {σ : Type} (i j : Interpreter σ) : Interpreter σ :=
  { i with
    status := j.status, program := j.program, fragments := j.fragments, nextFragment := j.nextFragment
    diagnostics := j.diagnostics, stack := j.stack }

def Machine.onCourse {σ : Type} (m : Machine σ) (j : Interpreter σ) : Machine σ :=
  { m with interp := m.interp.onCourseOf j }

structure Machine.SameData {σ : Type} (m w : Machine σ) : Prop where
  same : w = m.onCourse w.interp
  status : w.interp.status = m.interp.status
  labels : w.interp.program.labels = m.interp.program.labels
  name : w.interp.program.name = m.interp.program.name
  stack : m.stack.SameData w.stack

structure Machine.InStep {σ : Type} (P : Place → Place → Prop) (m w : Machine σ) : Prop extends Machine.SameData m w where
  place : P m.place w.place

namespace Machine.SameData

variable {σ : Type} {m w : Machine σ} (h : m.SameData w)

include h

/-! ### What the machines have in common -/

theorem options : w.interp.options = m.interp.options := by rw [h.same]; rfl

theorem queue : w.interp.queue = m.interp.queue := by rw [h.same]; rfl

theorem input : w.interp.input = m.interp.input := by rw [h.same]; rfl

theorem functions : w.interp.functions = m.interp.functions := by rw [h.same]; rfl

theorem operations : w.interp.operations = m.interp.operations := by rw [h.same]; rfl

theorem loader : w.interp.loader = m.interp.loader := by rw [h.same]; rfl

theorem trapped : w.interp.trapped = m.interp.trapped := by rw [h.same]; rfl

theorem line : w.interp.line = m.interp.line := by rw [h.same]; rfl

theorem store : w.interp.store = m.interp.store := by rw [h.same]; rfl

theorem halted : w.interp.halted = m.interp.halted := by rw [h.same]; rfl

theorem interpretBlocked : w.interp.interpretBlocked = m.interp.interpretBlocked := by rw [h.same]; rfl

theorem id : w.interp.id = m.interp.id := by rw [h.same]; rfl

theorem targets : w.targets = m.targets := by rw [h.same]; rfl

theorem channel : w.channel = m.channel := by rw [h.same]; rfl

theorem around : w.around = m.around := by rw [h.same]; rfl

theorem host : w.host = m.host := by rw [h.same]; rfl

theorem title : w.interp.program.title = m.interp.program.title := by unfold Program.title; rw [h.name]

theorem top_eq : w.top = { m.top with cursors := w.top.cursors, steps := w.top.steps } := h.stack.top.same

theorem pool : w.top.pool = m.top.pool := by rw [h.top_eq]

theorem target : w.top.target = m.top.target := by rw [h.top_eq]

theorem args : w.top.args = m.top.args := by rw [h.top_eq]

theorem memo : w.top.memo = m.top.memo := by rw [h.top_eq]

theorem replies : w.top.replies = m.top.replies := by rw [h.top_eq]

theorem vars : w.interp.vars = m.interp.vars := by unfold Interpreter.vars; rw [h.store, h.pool]

theorem depth : w.stack.depth = m.stack.depth := by unfold Stack.depth; rw [h.stack.callers.length_eq]

theorem isMain : w.stack.callers.isEmpty = m.stack.callers.isEmpty := by
  rw [Bool.eq_iff_iff, isEmpty_iff_length_eq_zero, isEmpty_iff_length_eq_zero, h.stack.callers.length_eq]

theorem binding? : w.binding? w.top = m.binding? m.top := by
  unfold Machine.binding?
  rw [h.target, h.targets]

theorem traps (e : Event) : w.stack.traps e = m.stack.traps e := by
  have hcallers : ∀ {cs cs' : List Caller}, List.Forall₂ Caller.SameData cs cs' →
      ((cs'.map Caller.frame).any fun f => (f.trap? e).isSome) = (cs.map Caller.frame).any fun f => (f.trap? e).isSome := by
    intro cs cs' hcs
    induction hcs with
    | nil => rfl
    | cons hc _ ih => rw [List.map_cons, List.map_cons, List.any_cons, List.any_cons, hc.frame.trap?, ih]
  unfold Stack.traps Stack.frames
  rw [List.any_cons, List.any_cons, h.stack.top.trap?, hcallers h.stack.callers]

theorem main : m.stack.main.SameData w.stack.main := by
  have hlast : ∀ {cs cs' : List Caller}, List.Forall₂ Caller.SameData cs cs' →
      Option.Rel Caller.SameData cs.getLast? cs'.getLast? := by
    intro cs cs' hcs
    induction hcs with
    | nil => exact .none
    | @cons c c' cs cs' hc hcs ih =>
      cases hcs with
      | nil => exact .some hc
      | cons => simpa only [List.getLast?_cons_cons] using ih
  unfold Stack.main
  have hrel := hlast h.stack.callers
  generalize m.stack.callers.getLast? = r at hrel ⊢
  generalize w.stack.callers.getLast? = r' at hrel ⊢
  cases hrel with
  | none => exact h.stack.top
  | some hc => exact hc.frame

theorem hostView : w.hostView = m.hostView := by
  have hmain : w.interp.mainVariables = m.interp.mainVariables := by
    unfold mainVariables
    rw [h.store, h.main.same]
  unfold Machine.hostView
  rw [hmain, h.halted, h.line, h.options, h.host]

end Machine.SameData

/-! ## Changes of data -/

def Interpreter.DataOnly {σ : Type} (f : Interpreter σ → Interpreter σ) : Prop :=
  ∀ i j, f (i.onCourseOf j) = (f i).onCourseOf j

def Frame.DataOnly (g : Frame → Frame) : Prop :=
  ∀ f cursors steps, g { f with cursors, steps } = { g f with cursors, steps }

theorem Frame.DataOnly.cursors {g : Frame → Frame} (hg : DataOnly g) (f : Frame) : (g f).cursors = f.cursors :=
  (congrArg Frame.cursors (hg f f.cursors f.steps) :)

theorem Frame.DataOnly.sameData {g : Frame → Frame} (hg : DataOnly g) {f f' : Frame} (h : f.SameData f') :
    (g f).SameData (g f') := by
  have hf' : g f' = { g f with cursors := f'.cursors, steps := f'.steps } := by
    rw [← hg, ← h.same]
  have hf : (g f).steps = f.steps := (congrArg steps (hg f f.cursors f.steps) :)
  constructor
  · rw [hf']
  · rw [hf', hf]
    exact h.first

theorem forall₂_getElem? {α β : Type} {R : α → β → Prop} {as : List α} {bs : List β} (h : Forall₂ R as bs) (n : Nat) :
    Option.Rel R as[n]? bs[n]? := by
  induction h generalizing n with
  | nil => exact .none
  | cons hab _ ih =>
    cases n with
    | zero => exact .some hab
    | succ n => exact ih n

theorem forall₂_modify {α β : Type} {R : α → β → Prop} {as : List α} {bs : List β} (h : Forall₂ R as bs) (n : Nat)
    {f : α → α} {g : β → β} (hfg : ∀ {a b}, R a b → R (f a) (g b)) : Forall₂ R (as.modify n f) (bs.modify n g) := by
  induction h generalizing n with
  | nil => simp
  | cons hab htail ih =>
    cases n with
    | zero => exact .cons (hfg hab) htail
    | succ n => exact .cons hab (ih n)

def Place.withStack (π : Place) (s : Stack) : Place :=
  { π with top := s.top.cursors, callers := s.callers.map fun c => c.frame.cursors }

namespace Machine

variable {σ : Type} {P : Place → Place → Prop} {m w : Machine σ} {f : Interpreter σ → Interpreter σ} {g : Frame → Frame}

theorem place_modifyInterp (hf : DataOnly f) (m : Machine σ) : (m.modifyInterp f).place = m.place :=
  (congrArg Interpreter.place (hf m.interp m.interp) :)

theorem SameData.onCourse (h : m.SameData w) {i j : Interpreter σ} (hstatus : j.status = i.status)
    (hlabels : j.program.labels = i.program.labels) (hname : j.program.name = i.program.name)
    (hstack : i.stack.SameData j.stack) : (m.onCourse i).SameData (w.onCourse j) :=
  ⟨(congrArg (Machine.onCourse · j) h.same :), hstatus, hlabels, hname, hstack⟩

theorem SameData.modifyInterp (h : m.SameData w) (hf : DataOnly f) :
    (m.modifyInterp f).SameData (w.modifyInterp f) := by
  have hself : ∀ m : Machine σ, m.modifyInterp f = (m.modifyInterp f).onCourse m.interp := fun m =>
    congrArg (fun i => { m with interp := i }) (hf m.interp m.interp)
  have hsame : w.modifyInterp f = (m.modifyInterp f).onCourse w.interp := by
    conv_lhs => rw [h.same]
    exact congrArg (fun i => { m with interp := i }) (hf m.interp w.interp)
  rw [hself m, hself w]
  exact ⟨(congrArg (Machine.onCourse · w.interp) hsame :), h.status, h.labels, h.name, h.stack⟩

theorem SameData.modifyTop (h : m.SameData w) {e : Frame → Frame}
    (hg : (g m.top).SameData (e w.top)) :
    (m.modifyTop g).SameData (w.modifyTop e) :=
  h.onCourse (i := m.interp.modifyTop g) (j := w.interp.modifyTop e) h.status h.labels h.name ⟨hg, h.stack.callers⟩

theorem modifyLast_sameData (hg : Frame.DataOnly g) {cs cs' : List Caller} (h : List.Forall₂ Caller.SameData cs cs') :
    List.Forall₂ Caller.SameData (Stack.modifyLast g cs) (Stack.modifyLast g cs') := by
  induction h with
  | nil => exact .nil
  | @cons c c' cs cs' hc hcs ih =>
    cases hcs with
    | nil => exact .cons ⟨hg.sameData hc.frame, hc.site, hc.needsValue⟩ .nil
    | cons => exact .cons hc ih

theorem modifyLast_cursors (hg : DataOnly g) (cs : List Caller) :
    ((Stack.modifyLast g cs).map fun c => c.frame.cursors) = cs.map fun c => c.frame.cursors := by
  fun_induction Stack.modifyLast with
  | case1 => rfl
  | case2 c => exact congrArg (· :: []) (hg.cursors c.frame)
  | case3 c cs _ ih => exact congrArg (c.frame.cursors :: ·) ih

variable (h : m.InStep P w)

include h

theorem InStep.modifyInterp (hf : DataOnly f) : (m.modifyInterp f).InStep P (w.modifyInterp f) where
  toSameData := h.toSameData.modifyInterp hf
  place := by
    rw [place_modifyInterp hf, place_modifyInterp hf]
    exact h.place

theorem InStep.modifyTop (hg : DataOnly g) : (m.modifyTop g).InStep P (w.modifyTop g) where
  toSameData := h.toSameData.modifyTop (hg.sameData h.stack.top)
  place := by
    have hplace : ∀ m : Machine σ, (m.modifyTop g).place = m.place := fun m =>
      congrArg (Place.mk _ _ _ _ · _) (hg.cursors m.top)
    rw [hplace, hplace]
    exact h.place

theorem InStep.onTop {k l : List Cursor → List Cursor} (hP : P (m.place.onTop k) (w.place.onTop l)) :
    (m.modifyTop fun f => { f with cursors := k f.cursors }).InStep P
      (w.modifyTop fun f => { f with cursors := l f.cursors }) where
  toSameData := h.toSameData.modifyTop ⟨by rw [h.top_eq], h.stack.top.first⟩
  place := hP

theorem InStep.setVariables {v u : Variables} (hv : u = v) :
    (m.modifyInterp fun i => i.setVariables v).InStep P (w.modifyInterp fun i => i.setVariables u) := by
  subst hv
  exact (h.modifyTop (g := fun f => { f with pool := u.pool }) fun _ _ _ => rfl).modifyInterp
    (f := fun i => { i with store := u.store }) fun _ _ => rfl

theorem InStep.setStatus (hP : Lawful P) (status : Status) {channel channel' : Channel} (hc : channel' = channel) :
    InStep P { m with channel, interp := { m.interp with status } }
      { w with channel := channel', interp := { w.interp with status } } := by
  subst hc
  exact ⟨⟨(congrArg (fun v : Machine σ => { v.onCourse { w.interp with status } with channel := channel' }) h.same :), rfl,
    h.labels, h.name, h.stack⟩, hP.status status h.place⟩

theorem InStep.setAround {targets targets' : Registry σ} {around around' : Surroundings σ} {host host' : σ}
    (ht : targets' = targets) (ha : around' = around) (hh : host' = host) :
    InStep P { m with targets, around, host } { w with targets := targets', around := around', host := host' } := by
  subst ht ha hh
  exact ⟨⟨(congrArg (fun v : Machine σ => { v with targets := targets', around := around', host := host' }) h.same :), h.status,
    h.labels, h.name, h.stack⟩, h.place⟩

theorem InStep.setReports (d d' : Array Text) :
    (m.modifyInterp fun i => { i with diagnostics := d }).InStep P (w.modifyInterp fun i => { i with diagnostics := d' }) :=
  ⟨h.onCourse (i := { m.interp with diagnostics := d }) (j := { w.interp with diagnostics := d' }) h.status h.labels h.name
    h.stack, h.place⟩

/-! ### The frame of the main program, and the frame at a depth -/

theorem InStep.setMemory {s t : Stack} {v v' : Store} (hst : s.SameData t) (hv : v' = v)
    (hP : P (m.place.withStack s) (w.place.withStack t)) : (m.modifyInterp fun i => { i with store := v, stack := s }).InStep P
      (w.modifyInterp fun i => { i with store := v', stack := t }) := by
  subst hv
  have hstore := h.modifyInterp (f := fun i => { i with store := v' }) fun _ _ => rfl
  exact ⟨hstore.onCourse (i := { m.interp with stack := s }) (j := { w.interp with stack := t }) h.status h.labels h.name hst, hP⟩

theorem InStep.replaceStack {s t : Stack} (hst : s.SameData t) (hP : P (m.place.withStack s) (w.place.withStack t)) :
    (m.modifyInterp fun i => { i with stack := s }).InStep P (w.modifyInterp fun i => { i with stack := t }) :=
  h.setMemory hst h.store hP

theorem InStep.setFrames {s t : Stack} {v v' : Store} (hst : s.SameData t) (hv : v' = v)
    (hs : m.place.withStack s = m.place) (ht : w.place.withStack t = w.place) :
    (m.modifyInterp fun i => { i with store := v, stack := s }).InStep P
      (w.modifyInterp fun i => { i with store := v', stack := t }) := by
  refine h.setMemory hst hv ?_
  rw [hs, ht]
  exact h.place

theorem InStep.modifyMain (hg : DataOnly g) : (m.modifyInterp fun i => { i with stack := i.stack.modifyMain g }).InStep P
      (w.modifyInterp fun i => { i with stack := i.stack.modifyMain g }) := by
  have hplace : ∀ m : Machine σ, m.place.withStack (m.stack.modifyMain g) = m.place := by
    intro m
    unfold Stack.modifyMain Place.withStack
    split
    · exact congrArg (Place.mk _ _ _ _ · _) (hg.cursors m.top)
    · exact congrArg (Place.mk _ _ _ _ _) (modifyLast_cursors hg m.stack.callers)
  have hstacks : (m.stack.modifyMain g).SameData (w.stack.modifyMain g) := by
    unfold Stack.modifyMain
    rw [h.isMain]
    split
    · exact ⟨hg.sameData h.stack.top, h.stack.callers⟩
    · exact ⟨h.stack.top, modifyLast_sameData hg h.stack.callers⟩
  exact h.setFrames hstacks h.store (hplace m) (hplace w)

theorem InStep.afterHost (v : HostView σ) : (m.afterHost v).InStep P (w.afterHost v) := by
  have hmain := (h.modifyMain (g := fun f => { f with pool := v.main.pool }) fun _ _ _ => rfl).modifyInterp
    (f := fun i => { i with store := v.main.store, halted := i.halted || v.halted }) fun _ _ => rfl
  exact hmain.setAround h.targets h.around rfl

theorem InStep.complete (depth : Nat) (site : Site) (r : Outcome) :
    (m.modifyInterp fun i => i.complete depth site r).InStep P (w.modifyInterp fun i => i.complete depth site r) := by
  have hframes : List.Forall₂ Frame.SameData m.stack.frames w.stack.frames :=
    .cons h.stack.top (List.forall₂_map_left_iff.2 (List.forall₂_map_right_iff.2 (h.stack.callers.imp fun _ _ hc => hc.frame)))
  have hpool : (w.stack.frames.getD (w.stack.depth - depth) w.top).pool =
      (m.stack.frames.getD (m.stack.depth - depth) m.top).pool := by
    rw [h.depth, List.getD_eq_getElem?_getD, List.getD_eq_getElem?_getD]
    have hrel := forall₂_getElem? hframes (m.stack.depth - depth)
    generalize m.stack.frames[m.stack.depth - depth]? = o at hrel ⊢
    generalize w.stack.frames[m.stack.depth - depth]? = o' at hrel ⊢
    cases hrel with
    | none => exact h.pool
    | some hf => exact (congrArg Frame.pool hf.same :)
  unfold Machine.modifyInterp Interpreter.complete
  dsimp only
  rw [hpool, h.store]
  generalize Variables.publish _ r.settled = v
  let g (f : Frame) : Frame := { f with pool := v.pool, replies := (site, r.settled) :: f.replies }
  have hg : Frame.DataOnly g := fun _ _ _ => rfl
  have hplace : ∀ m : Machine σ, m.place.withStack (m.stack.modifyAt depth g) = m.place := by
    intro m
    obtain ⟨htop, hcallers⟩ := Engine.cursors_modifyAt m.stack depth hg.cursors
    exact congrArg₂ (Place.mk _ _ _ _) htop hcallers
  have hstacks : (m.stack.modifyAt depth g).SameData (w.stack.modifyAt depth g) := by
    unfold Stack.modifyAt
    rw [h.depth]
    split
    · exact ⟨hg.sameData h.stack.top, h.stack.callers⟩
    · exact ⟨h.stack.top,
        forall₂_modify h.stack.callers _ fun hc => ⟨hg.sameData hc.frame, hc.site, hc.needsValue⟩⟩
  exact h.setFrames hstacks rfl (hplace m) (hplace w)

theorem InStep.settle (site : Site) (r : Outcome) : (m.settle site r).InStep P (w.settle site r) := by
  unfold Machine.settle Machine.modifyInterp
  dsimp only
  rw [h.depth]
  exact h.complete m.stack.depth site r

theorem InStep.enter (hP : Lawful P) (site : Site) (k : Nat) (a : Args) (needsValue : Bool) :
    (m.enter site k a needsValue).InStep P (w.enter site k a needsValue) := by
  let entered (i : Interpreter σ) : Stack :=
    ⟨{ Frame.fresh with target := i.stack.top.target, args := a, cursors := [.at i.program.body (k + 1) none] },
      ⟨i.stack.top, site, needsValue⟩ :: i.stack.callers⟩
  have hstacks : (entered m.interp).SameData (entered w.interp) :=
    ⟨⟨by simp only [entered, h.target], Iff.rfl⟩, .cons ⟨h.stack.top, rfl, rfl⟩ h.stack.callers⟩
  exact (h.replaceStack hstacks (hP.call k h.place)).setVariables
    (v := Variables.set ⟨m.interp.store, Pool.empty⟩ "SIGL" (Text.ofNat m.interp.line))
    (u := Variables.set ⟨w.interp.store, Pool.empty⟩ "SIGL" (Text.ofNat w.interp.line)) (by rw [h.store, h.line])

theorem InStep.hold? (hP : Lawful P) (site : Site) (c : Checkpoint) :
    Option.Rel (InStep P) (m.hold? site c) (w.hold? site c) := by
  unfold Machine.hold?
  rw [h.channel, h.id, h.around, h.options, h.depth]
  cases m.channel.post? m.interp.id (m.around.clock / 1000) m.interp.options.timeout c with
  | none => exact .none
  | some q =>
    have hheld := h.setStatus hP (.held ⟨q.1, site, m.stack.depth⟩) (Eq.refl q.2)
    rw [h.around] at hheld
    exact .some hheld

end Machine

end Rexx

namespace Rexx.Engine

variable {σ α β : Type} {P : Place → Place → Prop} {m w : Machine σ} {site : Site}

/-! ## Results -/

inductive SameResult (P : Place → Place → Prop) : Result σ α → Result σ α → Prop where
  | value {v : α} {m w : Machine σ} (h : m.InStep P w) : SameResult P (.ok v m) (.ok v w)
  | error {e : Interrupt} {m w : Machine σ} (h : m.InStep P w) : SameResult P (.error e m) (.error e w)

def Matched (P : Place → Place → Prop) (c c' : Engine σ α) (m w : Machine σ) : Prop := SameResult P (c m) (c' w)

/-- **The computation has the same result on both machines**, and leaves them in step. -/
abbrev Tandem (P : Place → Place → Prop) (c : Engine σ α) (m w : Machine σ) : Prop := Matched P c c m w

theorem Matched.bind {a a' : Engine σ α} {f f' : α → Engine σ β} (ha : Matched P a a' m w)
    (hf : ∀ v m' w', a m = .ok v m' → a' w = .ok v w' → m'.InStep P w' → Matched P (f v) (f' v) m' w') :
    Matched P (a >>= f) (a' >>= f') m w := by
  unfold Matched at ha ⊢
  rw [bind_apply, bind_apply]
  generalize hm : a m = r at ha ⊢
  generalize hw : a' w = r' at ha ⊢
  cases ha with
  | value h => exact hf _ _ _ hm hw h
  | error h => exact .error h

theorem Matched.interp {f f' : Interpreter σ → Engine σ α} (h : Matched P (f m.interp) (f' w.interp) m w) :
    Matched P (interp >>= f) (interp >>= f') m w := h

theorem Matched.get {f f' : Machine σ → Engine σ α} (h : Matched P (f m) (f' w) m w) :
    Matched P (MonadState.get >>= f) (MonadState.get >>= f') m w := h

theorem Matched.top {f f' : Frame → Engine σ α} (h : Matched P (f m.top) (f' w.top) m w) :
    Matched P (top >>= f) (top >>= f') m w := h

theorem Matched.seq {a b : Engine σ α} {f f' : α → Engine σ β} (ha : Matched P a b m w)
    (hf : ∀ v m' w', m'.InStep P w' → Matched P (f v) (f' v) m' w') : Matched P (a >>= f) (b >>= f') m w :=
  ha.bind fun v m' w' _ _ => hf v m' w'

theorem Matched.ite {p : Prop} [Decidable p] {a a' b b' : Engine σ α} (ha : p → Matched P a a' m w)
    (hb : ¬ p → Matched P b b' m w) : Matched P (if p then a else b) (if p then a' else b') m w := by
  split
  · exact ha ‹_›
  · exact hb ‹_›

variable (hP : Place.Lawful P) (h : m.InStep P w)

include h

theorem Matched.pure (v : α) : Tandem P (Pure.pure v) m w := .value h

theorem Matched.raise (e : Condition) : Tandem P (throw (.raised e) : Engine σ α) m w := .error h

theorem Matched.fail (f : Fault) : Matched P (fail f : Engine σ α) (fail f) m w :=
  .error h

theorem Matched.orFail (r : Except Fault α) : Tandem P (orFail r) m w := by
  cases r with
  | ok v => exact .pure h v
  | error f => exact .fail h f

/-! ## Variables -/

theorem modifyVariables_tandem (f : Variables → Variables) : Tandem P (modifyVariables f) m w :=
  .value (h.setVariables (congrArg f h.vars))

theorem assign_tandem (name value : Text) : Tandem P (assign name value) m w := by
  refine Matched.interp ?_
  rw [h.vars]
  cases m.interp.vars.assign? name value with
  | some v => exact .value (h.setVariables rfl)
  | none => exact .fail h _

theorem fetch_tandem (name : Text) : Tandem P (fetch name) m w := by
  refine Matched.interp ?_
  rw [h.vars, h.traps, h.options]
  cases m.interp.vars.peek? name with
  | some value => exact .pure h value
  | none => exact .ite (fun _ => .pure h _) fun _ => .ite (fun _ => .fail h _) fun _ => .ite (fun _ => .fail h _) fun _ => .pure h _

theorem remember_tandem (site : Site) {compute : Engine σ Text} (hc : Tandem P compute m w) :
    Tandem P (remember site compute) m w := by
  refine Matched.top ?_
  rw [h.memo]
  cases m.top.memo.lookup site with
  | some value => exact .pure h value
  | none =>
    refine .seq hc fun value m' w' h' => .seq (.value (h'.modifyTop fun _ _ _ => rfl)) fun _ m'' w'' h'' => ?_
    exact .pure h'' value

/-! ## Code of the host -/

theorem callHost_tandem (code : HostCode σ α) : Tandem P (callHost code) m w := by
  unfold Tandem Matched
  rw [callHost_apply, callHost_apply, h.hostView]
  cases code m.hostView with
  | ok a v => exact .value (h.afterHost v)
  | error e v => exact .value (h.afterHost v)

theorem callFunction_tandem (name : Text) (f : HostFunction σ) (a : Args) : Tandem P (callFunction name f a) m w := by
  refine .seq (callHost_tandem h _) fun r m' w' h' => ?_
  cases r with
  | ok value => exact .pure h' value
  | error fault =>
    cases fault with
    | condition c => exact .raise h' c
    | exception message => exact .fail h' _

theorem numeric_tandem : Tandem P (numeric : Engine σ Number.Settings) m w := by
  unfold Tandem Matched
  rw [numeric_apply, numeric_apply, h.options]
  exact .value h

omit h in
theorem tandem_computing : Computing fun _ (c : Engine σ _) => ∀ m w, m.InStep P w → Tandem P c m w where
  pure v _ _ h := .pure h v
  bind ha hf m w h := .seq (ha m w h) fun v m1 w1 h1 => hf v m1 w1 h1
  fail _ _ _ h := .fail h _
  numeric _ _ := numeric_tandem
  fetch name _ _ h := fetch_tandem h name
  assign name value _ _ h := assign_tandem h name value
  reads hg hP m w h := by
    have hvisible : w.visible = m.visible := by
      unfold Machine.visible Frame.targetName
      rw [h.around, h.options, h.target, h.args, h.trapped, h.queue, h.vars]
    refine Matched.get ?_
    rw [hg w m hvisible]
    exact hP m m w h
  draws random m w h := by
    unfold Tandem Matched
    rw [modify_apply, modify_apply, h.around]
    exact .value (h.setAround h.targets rfl h.host)
  marks _ _ _ h := .value (h.modifyInterp fun _ _ => rfl)

/-! ## Targets -/

theorem ask_tandem (name : Text) (b : Binding σ) (cmd : Text) (params : Params) (method : Bool) :
    Tandem P (ask name b cmd params method) m w := by
  unfold ask
  split
  · exact .pure h _
  · refine .seq (callHost_tandem h _) fun r m' w' h' => ?_
    cases r with
    | ok reply => exact .pure h' reply
    | error fault => exact .pure h' _

theorem check_tandem (r : Outcome) : Tandem P (check r) m w := by
  unfold Tandem Matched
  rw [check_apply, check_apply, h.traps]
  split
  · exact .error h
  · exact .value h

theorem targetWith?_tandem (method : Text) : Tandem P (targetWith? method : Engine σ (Option Text)) m w := by
  unfold Tandem Matched
  rw [targetWith?_apply, targetWith?_apply, Machine.method?, Machine.method?, h.binding?, h.target]
  exact .value h

include hP

theorem await_tandem (c : Checkpoint) : Tandem P (await site c : Engine σ α) m w := by
  unfold Tandem Matched
  rw [await_apply, await_apply]
  have hrel := h.hold? hP site c
  generalize m.hold? site c = q at hrel ⊢
  generalize w.hold? site c = q' at hrel ⊢
  cases hrel with
  | none => exact .error h
  | some hheld => exact .error hheld

theorem receive_tandem (reply : Reply) : Tandem P (receive site reply) m w := by
  cases reply with
  | wait c => exact await_tandem hP h c
  | now r => exact .value (h.settle site r)

theorem dispatch_tandem (name cmd : Text) (params : Params) (method : Bool) :
    Tandem P (dispatch site name cmd params method) m w := by
  unfold Tandem Matched
  rw [dispatch_apply, dispatch_apply, h.replies, h.targets]
  cases m.top.replies.lookup site with
  | some r => exact .value h
  | none =>
    cases m.targets[name]? with
    | none => exact .error h
    | some b => exact Matched.seq (ask_tandem h name b cmd params method) fun reply _ _ h' => receive_tandem hP h' reply

theorem enterRoutine_tandem (k : Nat) (a : Args) (needsValue : Bool) :
    Tandem P (enterRoutine site k a needsValue : Engine σ α) m w := by
  unfold Tandem Matched
  rw [enterRoutine_apply, enterRoutine_apply, h.depth]
  split
  · exact .error h
  · exact .error (h.enter hP site k a needsValue)

theorem call_tandem (name : Text) (a : Args) (needsValue quoted : Bool) :
    Tandem P (call site name a needsValue quoted) m w := by
  unfold call
  split
  · exact tandem_computing.callBuiltin _ a m w h
  · refine Matched.interp ?_
    rw [h.functions, h.labels]
    split
    · exact callFunction_tandem h name _ a
    · split
      · exact enterRoutine_tandem hP h _ a needsValue
      · refine .seq (targetWith?_tandem h name) fun t m1 w1 h1 => ?_
        split
        · refine .seq (dispatch_tandem hP h1 _ _ _ true) fun r m2 w2 h2 => ?_
          exact .seq (check_tandem h2 r) fun _ m3 w3 h3 => .pure h3 _
        · exact .fail h1 _

omit h in
theorem tandem_expressive {names : List (Text × Bool)} :
    Expressive Set.univ names fun _ (c : Engine σ _) => ∀ m w, m.InStep P w → Tandem P c m w where
  below _ _ := trivial
  pure := tandem_computing.pure
  bind := tandem_computing.bind
  expand {site} _ text m w h := by
    refine remember_tandem h site (Matched.interp ?_)
    unfold Interpreter.expand
    rw [h.options, h.vars]
    exact .pure h _
  fetch {site} _ name _ _ h := remember_tandem h site (fetch_tandem h name)
  operator _ _ _ h := .seq (numeric_tandem h) fun _ _ _ h1 => .orFail h1 _
  call {site} _ _ _ args name quoted _ ha _ m w h :=
    remember_tandem h site (.seq (ha m w h) fun v _ _ h1 => call_tandem hP h1 name (args v) true quoted)

omit h in
theorem tandem_evaluative : Evaluative fun _ (c : Engine σ _) => ∀ m w, m.InStep P w → Tandem P c m w where
  toSequential := tandem_computing.toSequential
  eval i x := (tandem_expressive hP).eval (Set.mem_univ [i]) x (List.Subset.refl _)

end Rexx.Engine
