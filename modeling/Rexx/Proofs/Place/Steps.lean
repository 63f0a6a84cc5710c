import Rexx.Proofs.Isolation.Ticks
import Rexx.Proofs.Place.Evaluation

/-!
# `Place.Steps` — where steps lead

A step moves the run in one of a few ways: on, into a block or out of one, round a loop, to a label, into a text, back
to a caller, or to the end.
-/

namespace Rexx

open Engine LingersAt List Machine Place

/-! ## The ways in which a run moves -/

namespace Place

/-- The fragments that cursors run in, of all frames. -/
def units (π : Place) : List Nat := (π.top :: π.callers).flatMap fun cs => cs.filterMap Cursor.unit

def live (π : Place) : List Fragment := π.fragments.filter fun f => π.units.contains f.id

structure At (π : Place) (c : Cursor) (cs : List Cursor) (s : Stmt) : Prop where
  top : π.top = c :: cs
  stmt : c.block[c.pc]? = some s

/-- **The move of INTERPRET**: the fragments that no cursor runs in are given up, the text that was read becomes a new one,
and a cursor is at its start, unless there is nothing in it. -/
inductive Interprets (π : Place) : Place → Prop where
  | read {c : Cursor} {cs : List Cursor} {s : Stmt} {source name : Text} {p : Program} (at' : π.At c cs s)
      (parsed : Program.parse source name = .ok p) (line : Nat) :
      Interprets π { π with
        fragments := π.live ++ [⟨π.nextFragment, line, p.lines⟩]
        nextFragment := π.nextFragment + 1
        top := (if p.body.isEmpty then [] else [.at p.body 0 (some π.nextFragment)]) ++ c.next :: cs }

inductive Step (π : Place) : Place → Prop where
  | onward {c : Cursor} {cs : List Cursor} {s : Stmt} (at' : π.At c cs s) : Step π { π with top := c.next :: cs }
  | inward {c : Cursor} {cs : List Cursor} {s : Stmt} {b : List Stmt} (at' : π.At c cs s) (block : b ∈ s.blocks)
      (loop : Option LoopState) : Step π { π with top := ⟨b, 0, c.unit, loop⟩ :: c.next :: cs }
  | outward {c c' : Cursor} {cs : List Cursor} (top : π.top = c :: c' :: cs) : Step π { π with top := c' :: cs }
  | leaves (above : List Cursor) {below : List Cursor} {c : Cursor} {l : LoopState} (top : π.top = above ++ c :: below)
      (loop : c.loop = some l) : Step π { π with top := below }
  | iterates (above : List Cursor) {below : List Cursor} {c : Cursor} {l : LoopState} (top : π.top = above ++ c :: below)
      (loop : c.loop = some l) (l' : LoopState) : Step π { π with top := { c with loop := some l' } :: below }
  | again {below : List Cursor} {c : Cursor} {l : LoopState} (top : π.top = c :: below) (loop : c.loop = some l)
      (l' : LoopState) : Step π { π with top := { c with pc := 0, loop := some l' } :: below }
  | jumps {label : Text} {k : Nat} (label? : π.program.labels[label]? = some k) :
      Step π { π with top := [.at π.program.body (k + 1) none] }
  | interprets {π' : Place} (interprets : π.Interprets π') : Step π π'
  | returns {t : List Cursor} {ts : List (List Cursor)} (callers : π.callers = t :: ts) :
      Step π { π with top := t, callers := ts }
  | stops : Step π { π with status := .stopped, top := [], callers := [] }
  | stuck (top : π.top = []) : Step π { π with status := .stopped }

theorem Step.ends {π : Place} (h : π.callers = []) : π.Step { π with status := .stopped, top := [] } := by
  have hstop : π.Step { π with status := .stopped, top := [], callers := [] } := .stops
  rw [← h] at hstop
  exact hstop

inductive Rounds (c : Cursor) (cs : List Cursor) (π : Place) : Place → Prop where
  | ends : Rounds c cs π { π with top := cs }
  | goes (l : LoopState) : Rounds c cs π { π with top := { c with pc := 0, loop := some l } :: cs }

variable {π π' : Place}

theorem Rounds.step {c : Cursor} {cs : List Cursor} {l : LoopState} (h : π.Rounds c cs π')
    (top : π.top = c :: cs) (loop : c.loop = some l) : π.Step π' := by
  cases h with
  | ends => exact .leaves [] top loop
  | goes l' => exact .again top loop l'

theorem Rounds.of_loop {c : Cursor} {cs top : List Cursor} {loop : Option LoopState}
    (h : Rounds { c with loop := loop } cs { π with top := top } π') : Rounds c cs π π' := by
  cases h with
  | ends => exact .ends
  | goes l => exact .goes l

def Pauses (π π' : Place) : Prop := ∃ π1, (π1 = π ∨ π.Step π1 ∧ π1.status = π.status) ∧ π1.Waits π'

theorem Waits.pauses (h : π.Waits π') : π.Pauses π' := ⟨π, .inl rfl, h⟩

theorem Breaks.of_top {top : List Cursor} (h : Breaks { π with top := top } π') : π.Breaks π' := h

end Place

namespace Engine

variable {σ α β : Type} {m m' : Machine σ} {P : Place → Prop} {G : Place → Place → Prop} {s : Stmt}
  {c : Cursor} {cs : List Cursor} {pos : Position}

/-! ## Parts of clauses that leave the place as it is -/

theorem setVar_lingers (name value : Text) : Lingers (setVar name value : Engine σ Unit) := .modifyVariables _

/-! ## Computations that move -/

theorem Ensures.of_bind {G X S : Machine σ → Machine σ → Prop} {a : Engine σ α} {f : α → Engine σ β} {v : α}
    (ha : a m = .ok v m')
    (hf : Ensures (fun _ m'' => G m m'') (fun _ m'' => X m m'') (fun _ m'' => S m m'') (f v) m') :
    Ensures G X S (a >>= f) m := by
  unfold Ensures at hf ⊢
  rw [bind_of_ok ha]
  exact hf

def TravelsAt (G : Place → Place → Prop) (c : Engine σ α) (m : Machine σ) : Prop :=
  Ensures (fun m m' => G m.place m'.place) (fun m m' => m.place.Breaks m'.place) (fun m m' => m.place.Waits m'.place) c m

/-- **The computation moves the run** as `G` says, from wherever `P` holds, unless it fails or is suspended; then it is
still there. -/
def Travels (P : Place → Prop) (G : Place → Place → Prop) (c : Engine σ α) : Prop := ∀ m, P m.place → TravelsAt G c m

def Meets (s : Stmt) (π : Place) : Prop := ∃ c cs, π.At c cs s

theorem LingersAt.travels {a : Engine σ α} {f : α → Engine σ β} (ha : LingersAt a m) (hm : P m.place)
    (hf : ∀ v, Travels P G (f v)) : TravelsAt G (a >>= f) m :=
  Ensures.bind ⟨fun h h' => h ▸ h', fun h h' => h ▸ h', fun h h' => h ▸ h'⟩ ha fun v m' hv => hf v m' (ha.ok hv ▸ hm)

namespace Travels

theorem after {a : Engine σ α} {f : α → Engine σ β} (ha : Lingers a) (hf : ∀ v, Travels P G (f v)) :
    Travels P G (a >>= f) := fun m hm => (ha m).travels hm hf

theorem fail (f : Fault) : Travels P G (fail f : Engine σ α) := fun m _ => .of_raised rfl (.refl m.place)

theorem ite {p : Prop} [Decidable p] {a b : Engine σ α} (ha : Travels P G a) (hb : Travels P G b) :
    Travels P G (if p then a else b) := by
  split
  · exact ha
  · exact hb

theorem advance_place {c : Cursor} {cs : List Cursor} (h : m.place.top = c :: cs) :
    (m.modifyTop Frame.advance).place = { m.place with top := c.next :: cs } := by
  have htop : m.top.cursors = c :: cs := h
  show mk _ _ _ _ m.top.advance.cursors _ = _
  rw [Frame.advance, htop]
  rfl

variable {c : Engine σ α}

theorem advance_then (hc : Immediate c) (h : ∀ (m : Machine σ) c0 cs, m.place.At c0 cs s →
      Ensures (fun _ m' => m.place.Step m'.place) (fun _ m' => m.place.Breaks m'.place) (fun _ _ => True) c
        (m.modifyTop Frame.advance)) :
    Travels (Meets s) Step (advance >>= fun _ => c) := by
  rintro m ⟨c0, cs, hat⟩
  have hc' := h m c0 cs hat
  have hrun : (Engine.advance >>= fun _ => c) m = c (m.modifyTop Frame.advance) := rfl
  cases hm : c (m.modifyTop Frame.advance) with
  | ok v m' => exact .of_ok (hrun.trans hm) (hc'.ok hm)
  | error e m' =>
    cases e with
    | suspended => exact absurd hm (hc _ m')
    | raised e => exact .of_raised (hrun.trans hm) (hc'.raised hm)

theorem onward (hc : Immediate c) (h : Lingers c) : Travels (Meets s) Step (advance >>= fun _ => c) := by
  refine advance_then hc fun m c0 cs hat => ?_
  have hplace := advance_place hat.top
  refine (h _).imp (fun {m'} hm' => ?_) (fun {m'} hm' => ?_) fun _ => trivial
  · rw [hm', hplace]
    exact .onward hat
  · rw [hplace] at hm'
    exact hm'.of_top

theorem advance : Travels (Meets s) Step (advance : Engine σ Unit) := by
  rintro m ⟨c, cs, hat⟩
  refine .of_ok (modifyTop_apply _ m) ?_
  rw [advance_place hat.top]
  exact .onward hat

theorem enter_place {c : Cursor} {cs : List Cursor} (h : m.place.top = c :: cs) (block : List Stmt)
    (loop : Option LoopState) :
    (m.modifyTop fun f => f.enter ⟨block, 0, f.unit, loop⟩).place =
      { m.place with top := ⟨block, 0, c.unit, loop⟩ :: c :: cs } := by
  have htop : m.top.cursors = c :: cs := h
  have hunit : m.top.unit = c.unit := by
    unfold Frame.unit
    rw [htop]
    rfl
  show mk _ _ _ _ (⟨block, 0, m.top.unit, loop⟩ :: m.top.cursors) _ = _
  rw [hunit, htop]
  rfl

theorem inward (hc : Immediate c) (h : Lingers c) {block : List Stmt} (hb : block ∈ s.blocks)
    (loop : Option LoopState) :
    Travels (Meets s) Place.Step (Engine.advance >>= fun _ => c >>= fun _ =>
      modifyTop fun f => f.enter ⟨block, 0, f.unit, loop⟩) := by
  refine advance_then (hc.bind fun _ => .modifyTop _) fun m c0 cs hat => ?_
  have hplace := advance_place hat.top
  refine Ensures.bind (A := fun m m' => m'.place = m.place) ⟨fun _ h => h, fun _ h => h, fun _ h => h⟩ ?_
    fun v m1 h1 => ?_
  · refine (h _).imp id (fun {m'} hm' => ?_) fun _ => trivial
    exact hm'.of_top
  · have hm1 := ((h _).ok h1).trans hplace
    refine .of_ok (modifyTop_apply _ m1) ?_
    have htop : m1.place.top = c0.next :: cs := by rw [hm1]
    rw [enter_place htop, hm1]
    exact .inward hat hb loop

end Travels

/-! ## Labels, routines and ends -/

theorem jump_travels (label : Text) : Travels P Step (jump label : Engine σ Unit) := by
  intro m _
  refine .of_bind (interp_apply m) ?_
  dsimp only
  split
  · rename_i k hk
    exact .of_ok (modifyTop_apply _ m) (.jumps hk)
  · exact .of_raised (fail_apply _ m) (.refl m.place)

variable {π : Place} (as spec : Text) (value : Option Text) (name : Text) (args : List Expr)

theorem exitWith_travels : Travels P Step (exitWith value : Engine σ Unit) :=
  fun m _ => .of_ok (modifyInterp_apply _ m) .stops

theorem callers_of_nil (h : m.stack.callers = []) : m.place.callers = [] := by
  show m.stack.callers.map _ = []
  rw [h]
  rfl

theorem returnWith_travels : Travels P Step (returnWith value : Engine σ Unit) := by
  intro m _
  cases hc : m.stack.callers with
  | nil =>
    exact .of_ok (returnWith_of_nil hc value) (.ends (callers_of_nil hc))
  | cons c cs =>
    have hcallers : m.place.callers = c.frame.cursors :: cs.map fun c => c.frame.cursors := by
      show m.stack.callers.map _ = _
      rw [hc]
      rfl
    cases hv : c.needsValue && value.isNone with
    | true =>
      refine .of_raised ((returnWith_of_cons hc value).trans (handBack_of_noData hv _)) ⟨_, _, ?_, rfl⟩
      rw [hcallers]
      exact suffix_cons _ _
    | false =>
      obtain ⟨store, pool, hb⟩ := handBack_of_data hv (popped m c cs)
      exact .of_ok ((returnWith_of_cons hc value).trans hb) (.returns hcallers)

/-! ## Loops -/

theorem loop_of_isLoopOf {var : Option Text} (h : c.isLoopOf var = true) : ∃ l, c.loop = some l := by
  unfold Cursor.isLoopOf at h
  split at h
  · cases h
  · exact ⟨_, ‹_›⟩
  · exact ⟨_, ‹_›⟩

theorem leaveLoop_travels (var : Option Text) (again : Bool) : Travels P Step (leaveLoop var again : Engine σ Unit) := by
  intro m _
  refine .of_bind (top_apply m) ?_
  split
  · exact .of_raised (fail_apply _ m) (.refl m.place)
  · rename_i c cs hd
    have hfirst := head?_dropWhile_not (fun c : Cursor => !c.isLoopOf var) m.top.cursors
    rw [hd] at hfirst
    obtain ⟨l, hl⟩ := loop_of_isLoopOf (by simpa using hfirst)
    have htop : m.place.top = (m.top.cursors.takeWhile fun c => !c.isLoopOf var) ++ c :: cs := by
      rw [← hd]
      exact takeWhile_append_dropWhile.symm
    refine .of_ok (modifyTop_apply _ m) ?_
    cases again with
    | false => exact .leaves _ htop hl
    | true =>
      have hmap : (c.loop.map fun l => { l with phase := .after }) = some { l with phase := .after } := by rw [hl]; rfl
      have hstep := Step.iterates _ htop hl { l with phase := .after }
      rw [← hmap] at hstep
      exact hstep

theorem leaveBlock_place (h : m.place.top = c :: cs) :
    ∃ m', leaveBlock m = .ok () m' ∧ m'.place = { m.place with top := cs } := by
  have htop : m.top.cursors = c :: cs := h
  refine ⟨_, modifyTop_apply _ m, ?_⟩
  show mk _ _ _ _ m.top.cursors.tail _ = _
  rw [htop]
  rfl

theorem modifyCursor_place (h : m.place.top = c :: cs) (g : Cursor → Cursor) :
    ∃ m', (modifyCursor g) m = .ok () m' ∧ m'.place = { m.place with top := g c :: cs } := by
  have htop : m.top.cursors = c :: cs := h
  refine ⟨_, modifyTop_apply _ m, ?_⟩
  simp only [Machine.place, Interpreter.place, Machine.modifyInterp, Interpreter.modifyTop, Stack.modifyTop, htop,
    modifyHead_cons]

theorem testLoop_rounds (c : Cursor) (cs : List Cursor) (l : LoopState) :
    Travels (fun π => π.top = c :: cs) (Rounds c cs) (testLoop l : Engine σ Unit) := by
  have hleave : Travels (fun π => π.top = c :: cs) (Rounds c cs) (leaveBlock : Engine σ Unit) := by
    intro m hm
    obtain ⟨m', hrun, hplace⟩ := leaveBlock_place hm
    exact .of_ok hrun (hplace ▸ .ends)
  refine .after (lingers_pervasive.controlAdmits l) fun b => .ite hleave ?_
  refine .after (lingers_evaluative.guardAdmits l.guard) fun b' => .ite hleave ?_
  intro m hm
  obtain ⟨m', hrun, hplace⟩ := modifyCursor_place hm fun c => { c with pc := 0, loop := some { l with phase := .body } }
  exact .of_ok hrun (hplace ▸ .goes _)

def Journeys (c : Engine σ α) (m : Machine σ) : Prop :=
  Ensures (fun m m' => m.place.Step m'.place) (fun m m' => m.place.Breaks m'.place) (fun m m' => m.place.Pauses m'.place) c m

theorem Travels.journeys {c : Engine σ α} (h : Travels P Step c) (hm : P m.place) : Journeys c m :=
  (h m hm).imp id id fun hw => hw.pauses

theorem Journeys.after {a : Engine σ α} {f : α → Engine σ β} (ha : Lingers a)
    (hf : ∀ v m', m'.place = m.place → Journeys (f v) m') : Journeys (a >>= f) m := by
  have ha' : Ensures (fun m m' => m'.place = m.place) (fun m m' => m.place.Breaks m'.place)
      (fun m m' => m.place.Pauses m'.place) a m := (ha m).imp id id fun hw => hw.pauses
  refine Ensures.bind ⟨fun h h' => h ▸ h', fun h h' => h ▸ h', fun h h' => h ▸ h'⟩ ha' fun v m' hv => ?_
  exact hf v m' (ha'.ok hv)

theorem stepLoop_journeys {l0 : LoopState} (l : LoopState) (h : m.place.top = c :: cs)
    (hl : c.loop = some l0) : Journeys (stepLoop l) m := by
  unfold stepLoop
  split
  · refine .after (lingers_evaluative.guardEnds l.guard) fun b m1 h1 => ?_
    have hm1 : m1.place.top = c :: cs := h1 ▸ h
    split
    · obtain ⟨m2, h2, hp2⟩ := leaveBlock_place hm1
      refine .of_ok h2 ?_
      rw [hp2]
      exact .leaves [] hm1 hl
    · rw [reachRound, bind_assoc]
      refine .after (lingers_pervasive.countOn l) fun _ m2 h2 => ?_
      have hm2 : m2.place.top = c :: cs := h2 ▸ hm1
      obtain ⟨m3, h3, hp3⟩ := modifyCursor_place hm2 fun c => { c with loop := some l.next }
      have hm3 : m3.place.top = { c with loop := some l.next } :: cs := by rw [hp3]
      refine .of_bind h3 ((testLoop_rounds _ cs l.next m3 hm3).imp (fun {m'} hr => ?_) (fun {m'} hb => ?_) fun {m'} hw => ?_)
      · rw [hp3] at hr
        exact hr.of_loop.step hm2 hl
      · rw [hp3] at hb
        exact hb.of_top
      · rw [hp3] at hw
        exact ⟨_, .inr ⟨.iterates [] hm2 hl l.next, rfl⟩, hw⟩
  · exact (testLoop_rounds c cs l m h).imp (fun hr => hr.step h hl) id fun hw => hw.pauses

/-! ## Clauses -/

theorem execProcedure_travels (names : List Text) : Travels (Meets s) Step (execProcedure names : Engine σ Unit) := by
  rintro m ⟨c, cs, hat⟩
  cases hc : m.stack.callers with
  | nil => exact .of_raised (execProcedure_of_nil hc) (.refl m.place)
  | cons k ks =>
    by_cases hsteps : m.top.steps = 0
    · have hplace : (m.sharingWith names k ks).place = m.place := by
        unfold Machine.place Interpreter.place
        rw [hc]
        rfl
      refine .of_ok (execProcedure_of_first hc hsteps) ?_
      rw [Travels.advance_place (by rw [hplace, hat.top]), hplace]
      exact .onward hat
    · exact .of_raised (execProcedure_of_late hc hsteps) (.refl m.place)

theorem send_travels (name cmd : Text) (params : Params) (method : Bool) :
    Travels (Meets s) Step (send name cmd params method : Engine σ Unit) :=
  .after (.of_evaluates (dispatch_evaluates (Set.mem_univ []) name cmd params method)) fun r =>
    .onward (check_immediate r) (.of_evaluates (S := ∅) (check_evaluates r))

theorem switchTo_lingers (name asName auth : Text) : Lingers (switchTo name asName auth : Engine σ Unit) := by
  refine .bind .get fun m0 => .bind (.orFail _) fun p => ?_
  exact .bind (.of_ok fun m => ⟨⟨⟩, _, rfl, rfl⟩) fun _ => .modifyTop fun _ => rfl

theorem execHostOperation_travels {op : Entry (HostOperation σ)} (params : Params) (m : Machine σ)
    (hop : m.interp.operations[name]? = some op) (hm : Meets s m.place) :
    TravelsAt Step (execHostOperation name op.code params) m := by
  have hcall := callHost_evaluates (S := ∅) (op.code params) m fun H hm => hm.provisions.operations name op hop params
  refine (of_evaluates hcall).travels hm fun r => ?_
  cases r with
  | ok value => exact .onward (.modifyVariables _) (setVar_lingers _ value)
  | error fault =>
    cases fault with
    | condition c => exact fun m _ => .of_raised rfl (.refl m.place)
    | exception message => exact .fail _

theorem unlessReturned_travels {c : Engine σ Unit}
    (hc : ∀ m, m.top.memo.lookup [] = none → Meets s m.place → TravelsAt Step c m) :
    Travels (Meets s) Step (unlessReturned c) := by
  intro m hm
  cases hn : m.top.memo.lookup [] with
  | some v => exact .congr (Travels.advance m hm) (orNoted_of_some hn)
  | none => exact .congr (hc m hn hm) (orNoted_of_none hn)

theorem execCall_travels (hn : m.top.memo.lookup [] = none) (hm : Meets s m.place) :
    TravelsAt Step (execCall name args) m := by
  rw [execCall_eq]
  refine (of_evaluates (callArgs_evaluates name args m hn)).travels hm fun v => ?_
  exact .after (setVar_lingers _ v) fun _ => .advance

theorem execRoutine_travels : Travels (Meets s) Step (execRoutine name args : Engine σ Unit) := by
  refine unlessReturned_travels fun m hn hm => .congr ?_ (bind_of_ok (interp_apply m))
  cases ho : if args.isEmpty then m.interp.operations[name]? else none with
  | some op => exact execHostOperation_travels name [] m (Option.ite_none_right_eq_some.1 ho).2 hm
  | none => exact execCall_travels name args hn hm

theorem execOperation_travels (params : List (Text × Expr)) :
    Travels (Meets s) Step (execOperation name params : Engine σ Unit) := by
  refine unlessReturned_travels fun m _ hm => ?_
  refine (of_evaluates (evalArgs_evaluates [] 0 _ m)).travels hm fun values m1 hm1 => ?_
  refine .congr ?_ (bind_of_ok (interp_apply m1))
  split
  · exact execHostOperation_travels name _ m1 ‹_› hm1
  · refine .congr ?_ (bind_of_ok (targetWith?_apply name m1))
    split
    · exact Travels.fail _ m1 hm1
    · exact send_travels _ name _ true m1 hm1

theorem loadModule_lingers : Lingers (loadModule as spec : Engine σ Unit) := by
  intro m
  refine (Lingers.get m).bind fun m0 m1 h1 => ?_
  cases h1
  refine bind (.of_ok (set_apply _ m) rfl) fun _ m2 _ => ?_
  split
  · exact Lingers.pure _ m2
  · exact Lingers.fail _ m2

theorem liveFragments_place (i : Interpreter σ) : i.liveFragments = i.place.live := by
  unfold Interpreter.liveFragments Place.live Place.units Interpreter.place Stack.frames
  simp only [flatMap_cons, flatMap_map]

theorem live_next (h : π.top = c :: cs) : live { π with top := c.next :: cs } = π.live := by
  have hunits : units { π with top := c.next :: cs } = π.units := by
    unfold units
    rw [h]
    rfl
  unfold live
  rw [hunits]

theorem adopted_place (h : π.top = c :: cs)
    (hm : m.place = { π with top := c.next :: cs }) (id : Nat) (lines : List Text) :
    (m.modifyInterp (adopted id lines)).place = { π with
      fragments := π.live ++ [⟨id, m.interp.line, lines⟩]
      nextFragment := id + 1
      top := c.next :: cs } := by
  have hlive : m.interp.liveFragments = π.live := by
    rw [liveFragments_place, show m.interp.place = _ from hm, live_next h]
  have hplace : (m.modifyInterp (adopted id lines)).place =
      { m.place with fragments := m.interp.liveFragments ++ [⟨id, m.interp.line, lines⟩], nextFragment := id + 1 } := rfl
  rw [hplace, hlive, hm]

theorem enterCursor_place (m : Machine σ) (c : Cursor) :
    (m.modifyTop fun f => f.enter c).place = { m.place with top := c :: m.place.top } := rfl

theorem execInterpret_travels (x : Expr) : Travels (Meets s) Interprets (execInterpret x : Engine σ Unit) := by
  have hpermit : Lingers (permit : Engine σ Unit) := .bind .interp fun i => by
    split
    · exact .fail _
    · exact .pure _
  refine .after hpermit fun _ => .after (lingers_evaluative.eval 0 x) fun source => ?_
  rintro m ⟨c, cs, hat⟩
  refine .of_bind (interp_apply m) ?_
  split
  · exact .of_raised rfl (.refl m.place)
  · rename_i p hp
    split
    · exact .of_raised rfl (.refl m.place)
    · -- The cursor goes on, the fragments are swept, and the text is entered if there is anything in it.
      refine .of_bind (interp_apply m) ?_
      refine .of_bind (modifyTop_apply _ m) (.of_bind (modifyInterp_apply (adopted m.interp.nextFragment p.lines) _) ?_)
      have hplace := adopted_place hat.top (Travels.advance_place hat.top) m.interp.nextFragment p.lines
      have hread := Place.Interprets.read hat hp (m.modifyTop Frame.advance).interp.line
      cases hb : p.body.isEmpty with
      | true =>
        rw [hb] at hread
        refine .of_ok (pure_apply _ _) ?_
        rw [hplace]
        exact hread
      | false =>
        rw [hb] at hread
        refine .of_ok (modifyTop_apply _ _) ?_
        rw [enterCursor_place, hplace]
        exact hread

theorem exec_travels (s : Stmt) : Travels (Meets s) Place.Step (exec s : Engine σ Unit) := by
  have hdata : ∀ {f : Interpreter σ → Interpreter σ}, (∀ i, (f i).place = i.place) →
      Immediate (modifyInterp f) ∧ Lingers (modifyInterp f) := fun hf => ⟨.modifyInterp _, .modifyInterp hf⟩
  have htop : ∀ {f : Frame → Frame}, (∀ fr, (f fr).cursors = fr.cursors) →
      Immediate (modifyTop f : Engine σ Unit) ∧ Lingers (modifyTop f : Engine σ Unit) := fun hf =>
    ⟨.modifyTop _, .modifyTop hf⟩
  have hX : Executive s.clause? s.blocks (fun _ c => Lingers c) (fun _ c => Immediate c ∧ Lingers c)
      fun _ c => Travels (Meets s) Place.Step c := {
    evaluative := lingers_evaluative
    pervasive := immediate_computing.toPervasive.and lingers_pervasive
    seq := .after
    onward hc := .onward hc.1 hc.2
    acted hc := .after hc.2 fun _ => .advance
    inward hc hb loop := .inward hc.1 hc.2 hb loop
    look := .bind .get fun _ => .pure _
    vars _ := .bind .interp fun _ => .pure _
    fetch := lingers_pervasive.fetch
    take _ := .modifyInterp fun _ => rfl
    speak _ := hdata fun _ => rfl
    change _ := ⟨.modifyVariables _, .modifyVariables _⟩
    send := send_travels
    forbid _ := hdata fun _ => rfl
    arm _ := htop fun _ => rfl
    disarm _ := htop fun _ => rfl
    trace _ _ := hdata fun _ => rfl
    count _ _ := ⟨.bind (.orFail _) fun _ => .bind .numeric fun _ => .bind (.orFail _) fun _ => .modifyInterp _,
      .bind (.orFail _) fun _ => .bind .numeric fun _ => .bind (.orFail _) fun _ => .modifyInterp fun _ => rfl⟩
    form _ _ := hdata fun _ => rfl
    aim _ _ := htop fun _ => rfl
    switch _ := switchTo_lingers _ _
    load _ spec := ⟨loadModule_immediate _ spec, loadModule_lingers _ spec⟩
    report _ _ := .modifyInterp fun _ => rfl
    exit _ := exitWith_travels
    ret _ := returnWith_travels
    jump := jump_travels
    leave := leaveLoop_travels
    interpret _ m hm := (execInterpret_travels _ m hm).imp (fun h => .interprets h) id id
    procedure _ := execProcedure_travels _
    call name args := unlessReturned_travels fun _ => execCall_travels name args
    routine := execRoutine_travels
    operation := execOperation_travels }
  exact hX.exec

/-! ## Steps -/

theorem endBlock_journeys (h : m.place.top = c :: cs) : Journeys (endBlock c) m := by
  have htop : m.top.cursors = c :: cs := h
  unfold endBlock
  split
  · rename_i l hl
    refine .of_ok (modifyTop_apply _ m) ?_
    have hplace : (m.modifyTop fun f =>
        { f with cursors := { c with loop := some { l with phase := .after } } :: f.cursors.tail }).place =
        { m.place with top := { c with loop := some { l with phase := .after } } :: cs } := by
      show mk _ _ _ _ (_ :: m.top.cursors.tail) _ = _
      rw [htop]
      rfl
    rw [hplace]
    exact .iterates [] h hl _
  · refine .of_bind (interp_apply m) ?_
    obtain ⟨m1, h1, hp1⟩ := leaveBlock_place h
    dsimp only
    rw [htop]
    split
    · rename_i hlen
      obtain ⟨c', cs', rfl⟩ := exists_cons_of_length_pos (Nat.lt_of_succ_lt_succ hlen)
      refine .of_ok h1 ?_
      rw [hp1]
      exact .outward h
    · rename_i hlen
      split
      · exact (returnWith_travels none).journeys (P := fun _ => True) trivial
      · rename_i hcallers
        refine .of_bind h1 (.of_ok (modifyInterp_apply _ m1) ?_)
        have hcs : cs = [] := length_eq_zero_iff.1 (by simpa using hlen)
        show m.place.Step { m1.place with status := .stopped }
        rw [hp1, hcs]
        exact .ends (callers_of_nil (by simpa using hcallers))

theorem stepBlock_journeys (h : m.place.top = c :: cs) : Journeys (stepBlock c) m := by
  unfold stepBlock
  split
  · rename_i s hs
    have hexec := (exec_travels s).journeys (m := m.announced c s) ⟨c, cs, h, hs⟩
    unfold Journeys Ensures at hexec ⊢
    rw [execAt_apply]
    exact hexec
  · exact endBlock_journeys h

theorem step_journeys (m : Machine σ) : Journeys step m := by
  refine .of_bind (top_apply m) ?_
  split
  · rename_i htop
    exact .of_ok (modifyInterp_apply _ m) (.stuck htop)
  · rename_i c cs htop
    split
    · exact stepBlock_journeys htop
    · rename_i l hl
      split
      · exact stepBlock_journeys htop
      · exact stepLoop_journeys l htop hl

theorem step_interprets {x : Expr} (h : m.AboutTo c (.clause pos (.interpret x)))
    (hstep : step m = .ok () m') : m.place.Interprets m'.place := by
  obtain ⟨cs, hcs⟩ := head?_eq_some_iff.1 h.cursor
  have hat : Meets (.clause pos (.interpret x)) m.place := ⟨c, cs, hcs, h.stmt⟩
  have hrun := (step_of_aboutTo h).symm.trans hstep
  exact (execInterpret_travels x (m.announced c (.clause pos (.interpret x))) hat).ok hrun

end Engine

end Rexx
