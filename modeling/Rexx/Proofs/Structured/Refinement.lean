import Rexx.Proofs.Structured.Ticks

/-!
# `Structured.Refinement` — the engine runs structured programs as they are meant

The engine keeps a list of cursors, one for each block that it is in, and makes one step at a time.
-/

namespace Rexx

open Cursor Engine List Machine Plain Stmt

namespace Structured

variable {σ α : Type} {o : Options} {S T : Set Site} {m m' : Machine σ} {cs cs' K : List Cursor} {c : Cursor} {s s' : Scene}
  {d : Cursor} {var : Option Text} {l : LoopState}

/-! ## Where a task ends -/

/-- The cursors after LEAVE, or ITERATE if `again` is true, executed at the cursors `E`: the blocks inside the loop are
given up. -/
def Escaped (again : Bool) (var : Option Text) (E cs : List Cursor) : Prop :=
  ∃ d rest, E.dropWhile (fun c => !c.isLoopOf var) = d :: rest ∧
    if again then ∃ pc, cs = { d with pc, loop := d.loop.map fun l => { l with phase := .after } } :: rest else cs = rest

/-- The cursors at which a task that ends in a way leaves the machine: `N` holds of those after a normal end, and `E` are
those from which loops are left. -/
def Flow.Arrives (N : List Cursor → Prop) (E : List Cursor) (cs : List Cursor) : Flow → Prop
  | .normal => N cs
  | .leave var => Escaped false var E cs
  | .iterate var => Escaped true var E cs
  | .fails _ => False

def Flow.Uncaught (E : List Cursor) : Flow → Prop
  | .normal => False
  | .leave var | .iterate var => E.dropWhile (fun c => !c.isLoopOf var) = []
  | .fails _ => True

def Settles (o : Options) (i : Nat) (m : Machine σ) (N : List Cursor → Prop) (E : List Cursor) (s : Scene) (fl : Flow) :
    Prop :=
  (∃ j cs, i ≤ j ∧ fl.Arrives N E cs ∧ Stands o (Machine.run j m) cs s) ∨ (fl.Uncaught E ∧ m.EndsWith s fl.outcome)

def Simulates (o : Options) (i k : Nat) (m : Machine σ) (N : List Cursor → Prop) (E : List Cursor) :
    Option (Scene × Flow) → Prop
  | none => (Machine.run k m).Running
  | some (s, fl) => Settles o i m N E s fl

section

variable {i k j : Nat} {N N' : List Cursor → Prop} {E E' : List Cursor} {fl : Flow} {r : Option (Scene × Flow)}

theorem Settles.imp (h : Settles o i m N E s fl) (harr : ∀ cs, fl.Arrives N E cs → fl.Arrives N' E' cs)
    (hunc : fl.Uncaught E → fl.Uncaught E') : Settles o i m N' E' s fl := by
  obtain ⟨j, cs, hj, ha, hs⟩ | ⟨hu, he⟩ := h
  · exact .inl ⟨j, cs, hj, harr cs ha, hs⟩
  · exact .inr ⟨hunc hu, he⟩

theorem Settles.before (h : Settles o i (run j m) N E s fl) : Settles o (j + i) m N E s fl := by
  obtain ⟨n, cs, hn, ha, hs⟩ | ⟨hu, he⟩ := h
  · refine .inl ⟨j + n, cs, by omega, ha, ?_⟩
    rw [run_add]
    exact hs
  · exact .inr ⟨hu, he.before j⟩

theorem Settles.mono (h : Settles o i m N E s fl) (hj : j ≤ i) : Settles o j m N E s fl := by
  obtain ⟨n, cs, hn, ha, hs⟩ | hu := h
  · exact .inl ⟨n, cs, by omega, ha, hs⟩
  · exact .inr hu

theorem Simulates.before (h : Simulates o i k (run j m) N E r) : Simulates o (j + i) (j + k) m N E r := by
  cases r with
  | none =>
    show (run (j + k) m).Running
    rw [run_add]
    exact h
  | some p => exact Settles.before h

theorem Simulates.mono {i' k' : Nat} (h : Simulates o i k m N E r) (hi : i' ≤ i) (hk : k' ≤ k) :
    Simulates o i' k' m N E r := by
  cases r with
  | none => exact running_of_le h hk
  | some p => exact Settles.mono h hi

theorem Simulates.imp (h : Simulates o i k m N E r) (harr : ∀ fl cs, Flow.Arrives N E cs fl → Flow.Arrives N' E' cs fl)
    (hunc : ∀ fl, Flow.Uncaught E fl → Flow.Uncaught E' fl) : Simulates o i k m N' E' r := by
  cases r with
  | none => exact h
  | some p => exact Settles.imp h (harr p.2) (hunc p.2)

theorem Simulates.compute {e : Engine σ Unit} {goal : α → List Cursor} {p : Plain α}
    {next : α → Scene → Option (Scene × Flow)} (hm : Stands o m cs s) (hstep : step m = e m')
    (ha : Acts o e m' s goal (p s.vars))
    (hnext : ∀ a v, p s.vars = .ok a v → Stands o (run 1 m) (goal a) { s with vars := v } →
      Simulates o i k (run 1 m) N E (next a { s with vars := v })) :
    Simulates o (1 + i) (1 + k) m N E (s.compute p next) := by
  unfold Scene.compute
  cases hp : p s.vars with
  | error f v =>
    rw [hp] at ha
    obtain ⟨w, cs', hw, hl⟩ := ha
    exact .inr ⟨trivial, hm.tick_raised (hstep.trans hw) hl⟩
  | ok a v =>
    rw [hp] at ha
    obtain ⟨w, hw, hl⟩ := ha
    exact (hnext a v hp (hm.tick_ok (hstep.trans hw) hl)).before

end

theorem dropWhile_cons (h : d.isLoopOf var = false) :
    (d :: K).dropWhile (fun c => !c.isLoopOf var) = K.dropWhile (fun c => !c.isLoopOf var) := by
  rw [List.dropWhile_cons, h]
  rfl

theorem isLoopOf_of_none (h : d.loop = none) (var : Option Text) : d.isLoopOf var = false := by
  unfold isLoopOf
  rw [h]

/-! ## Tasks and runs -/

def InBody (c : Cursor) : Prop := ∀ l, c.loop = some l → l.phase = .body

theorem inBody_of_none (h : c.loop = none) : InBody c := fun l hl => by rw [h] at hl; cases hl

def Task.Placed (c : Cursor) : Task → Prop
  | .stmt st => c.block[c.pc]? = some st ∧ st.isStructured = true ∧ InBody c
  | .block rest => c.block.drop c.pc = rest ∧ Stmt.areStructured rest = true ∧ InBody c
  | .loop l body => c.block = body ∧ Stmt.areStructured body = true ∧ c.loop = some l ∧ l.phase ≠ .body ∧
      l.guard.all Guard.isPlain = true

def Task.After (c : Cursor) (K : List Cursor) (cs : List Cursor) : Task → Prop
  | .stmt _ => cs = next c :: K
  | .block _ => ∃ pc, c.block[pc]? = none ∧ cs = { c with pc } :: K
  | .loop _ _ => cs = K

def Task.within (c : Cursor) (K : List Cursor) : Task → List Cursor
  | .stmt _ | .block _ => c :: K
  | .loop _ _ => K

def Task.least : Task → Nat
  | .block _ => 0
  | _ => 1

def Task.span (n : Nat) : Task → Nat
  | .block _ => n / 2
  | _ => (n + 1) / 2

theorem Escaped.of_pc {again : Bool} {pc : Nat} (h : Escaped again var ({ c with pc } :: K) cs) :
    Escaped again var (c :: K) cs := by
  obtain ⟨d, rest, hd, hcs⟩ := h
  by_cases hloop : c.isLoopOf var = true
  · rw [List.dropWhile_cons, show Cursor.isLoopOf { c with pc } var = true from hloop] at hd
    obtain ⟨rfl, rfl⟩ : { c with pc } = d ∧ K = rest := by simpa using hd
    refine ⟨c, K, by rw [List.dropWhile_cons, hloop]; rfl, ?_⟩
    cases again <;> exact hcs
  · have hno := Bool.eq_false_iff.2 hloop
    rw [dropWhile_cons (show isLoopOf { c with pc } var = false from hno)] at hd
    exact ⟨d, rest, by rw [dropWhile_cons hno, hd], hcs⟩

theorem Flow.Uncaught.of_pc {fl : Flow} {pc : Nat} (h : fl.Uncaught ({ c with pc } :: K)) : fl.Uncaught (c :: K) := by
  have hsame : ∀ var, (c :: K).dropWhile (fun c => !c.isLoopOf var) = [] ↔
      ({ c with pc } :: K).dropWhile (fun c => !c.isLoopOf var) = [] := by
    intro var
    simp only [dropWhile_eq_nil_iff, mem_cons, forall_eq_or_imp]
    rfl
  cases fl with
  | normal => exact h
  | leave var => exact (hsame var).2 h
  | iterate var => exact (hsame var).2 h
  | fails f => trivial

theorem Settles.outward {i : Nat} {N N' : List Cursor → Prop} {fl : Flow}
    (h : Settles o i m N (d :: K) s fl) (hnormal : ∀ cs, fl = .normal → N cs → N' cs)
    (hd : ∀ var, fl = .leave var ∨ fl = .iterate var → d.isLoopOf var = false) : Settles o i m N' K s fl := by
  refine h.imp (fun cs ha => ?_) fun hu => ?_
  · cases fl with
    | normal => exact hnormal cs rfl ha
    | leave var =>
      obtain ⟨e, rest, he, hcs⟩ := ha
      exact ⟨e, rest, (dropWhile_cons (hd var (.inl rfl))).symm.trans he, hcs⟩
    | iterate var =>
      obtain ⟨e, rest, he, hcs⟩ := ha
      exact ⟨e, rest, (dropWhile_cons (hd var (.inr rfl))).symm.trans he, hcs⟩
    | fails f => exact ha
  · cases fl with
    | normal => exact hu
    | leave var => exact (dropWhile_cons (hd var (.inl rfl))).symm.trans hu
    | iterate var => exact (dropWhile_cons (hd var (.inr rfl))).symm.trans hu
    | fails f => trivial

/-! ### The ends of blocks -/

theorem step_of_end (hcs : m.top.cursors = c :: K) (hbody : InBody c) (hend : c.block[c.pc]? = none) :
    step m = endBlock c m := by
  have hblock : stepBlock c m = endBlock c m := by
    rw [stepBlock, hend]
  rw [step, bind_of_ok (top_apply m), hcs]
  dsimp only
  cases hl : c.loop with
  | none => exact hblock
  | some l =>
    dsimp only
    rw [if_pos (hbody l hl)]
    exact hblock

theorem Lands.end_inner (h : Stands o m (d :: c :: K) s) (hd : d.loop = none)
    (hend : d.block[d.pc]? = none) : Stands o (run 1 m) (c :: K) s := by
  have hleave : endBlock d m = leaveBlock m := by
    rw [endBlock, hd]
    dsimp only
    rw [bind_of_ok (interp_apply m), h.cursors, if_pos (by simp)]
  obtain ⟨m', hm', h'⟩ := h.modifyTop (f := fun f => { f with cursors := f.cursors.tail })
    fun fr hfr => show _ = { fr with cursors := c :: K } by rw [hfr]; rfl
  exact h.tick_ok ((step_of_end h.cursors (inBody_of_none hd) hend).trans (hleave.trans hm')) h'

theorem Lands.end_body (h : Stands o m (c :: K) s) (hl : c.loop = some l) (hbody : l.phase = .body)
    (hend : c.block[c.pc]? = none) :
    Stands o (run 1 m) ({ c with loop := some { l with phase := .after } } :: K) s := by
  have hin : InBody c := fun l' hl' => by
    rw [hl] at hl'
    cases hl'
    exact hbody
  obtain ⟨m', hm', h'⟩ := h.modifyTop
    (f := fun f => { f with cursors := { c with loop := some { l with phase := .after } } :: f.cursors.tail })
    fun fr hfr => show _ = { fr with cursors := { c with loop := some { l with phase := .after } } :: K } by rw [hfr]; rfl
  have hmove : endBlock c m = .ok ⟨⟩ m' := by
    rw [endBlock, hl]
    exact hm'
  exact h.tick_ok ((step_of_end h.cursors hin hend).trans hmove) h'

/-! ### The induction -/

def Simulated (σ : Type) (o : Options) (n : Nat) : Prop :=
  ∀ (t : Task) (s : Scene) (m : Machine σ) (c : Cursor) (K : List Cursor), t.Placed c → Stands o m (c :: K) s →
    Simulates o t.least (t.span n) m (fun cs => t.After c K cs) (t.within c K) (perform o n t s)

variable {n : Nat}

theorem Simulated.inside (ih : Simulated σ o n) {block : List Stmt} (hb : areStructured block = true)
    (hm : Stands o m (inside c K block) s) :
    Simulates o 0 (n / 2) m (fun cs => cs = next c :: K) (next c :: K) (perform o n (.block block) s) := by
  have hsim := ih (.block block) s m (.at block 0 c.unit) (next c :: K)
    ⟨rfl, hb, fun l hl => by cases hl⟩ hm
  cases hr : perform o n (.block block) s with
  | none =>
    rw [hr] at hsim
    exact hsim
  | some p =>
    obtain ⟨s', fl⟩ := p
    rw [hr] at hsim
    cases fl with
    | normal =>
      obtain ⟨j, cs, -, ⟨pc, hend, rfl⟩, hs⟩ | ⟨hu, -⟩ := hsim
      · refine .inl ⟨j + 1, next c :: K, by omega, rfl, ?_⟩
        rw [run_add]
        exact hs.end_inner rfl hend
      · exact hu.elim
    | _ => exact Settles.outward hsim (fun cs h => by cases h) fun var _ => isLoopOf_of_none rfl var

theorem Simulated.insideUnlessEmpty (ih : Simulated σ o n) {block : List Stmt} (hb : areStructured block = true)
    (hm : Stands o m (insideUnlessEmpty c K block) s) :
    Simulates o 0 (n / 2) m (fun cs => cs = next c :: K) (next c :: K) (perform o n (.block block) s) := by
  cases block with
  | cons first rest => exact ih.inside hb hm
  | nil =>
    have hs : Stands o m (next c :: K) s := hm
    cases n with
    | zero => exact hs.running
    | succ n => exact .inl ⟨0, next c :: K, le_refl 0, rfl, hs⟩

theorem Simulated.block (ih : Simulated σ o n) {rest : List Stmt} (hp : (Task.block rest).Placed c)
    (hm : Stands o m (c :: K) s) :
    Simulates o 0 ((n + 1) / 2) m (fun cs => (Task.block rest).After c K cs) (c :: K)
      (perform o (n + 1) (.block rest) s) := by
  obtain ⟨hdrop, hst, hbody⟩ := hp
  cases rest with
  | nil =>
    have hend : c.block[c.pc]? = none := by simpa using hdrop
    exact .inl ⟨0, c :: K, le_refl 0, ⟨c.pc, hend, rfl⟩, hm⟩
  | cons first rest =>
    obtain ⟨hfirst, hrest⟩ : first.isStructured = true ∧ areStructured rest = true := by
      simpa [areStructured] using hst
    have hat : c.block[c.pc]? = some first := by
      rw [← head?_drop, hdrop]
      rfl
    have hdrop' : c.block.drop (c.pc + 1) = rest := by
      rw [← tail_drop, hdrop]
      rfl
    have hsim := ih (.stmt first) s m c K ⟨hat, hfirst, hbody⟩ hm
    rw [perform]
    cases hr : perform o n (.stmt first) s with
    | none =>
      rw [hr] at hsim
      exact hsim
    | some p =>
      obtain ⟨s', fl⟩ := p
      rw [hr] at hsim
      cases fl with
      | normal =>
        obtain ⟨j, cs, hj, rfl, hs⟩ | ⟨hu, -⟩ := hsim
        · have hnext := (ih (.block rest) s' _ (next c) K ⟨hdrop', hrest, hbody⟩ hs).before
          have hj : 1 ≤ j := hj
          refine (hnext.mono (Nat.zero_le _) (show (n + 1) / 2 ≤ j + n / 2 by omega)).imp ?_ ?_
          · intro fl cs ha
            cases fl with
            | normal => exact ha
            | leave var => exact Escaped.of_pc ha
            | iterate var => exact Escaped.of_pc ha
            | fails f => exact ha
          · intro fl hu
            exact hu.of_pc
        · exact hu.elim
      | _ => exact (Settles.mono hsim (Nat.zero_le _)).imp (fun _ ha => ha) fun hu => hu

theorem Simulated.loop (ih : Simulated σ o n) {body : List Stmt} (hp : (Task.loop l body).Placed c)
    (hm : Stands o m (c :: K) s) :
    Simulates o 1 (1 + n / 2) m (fun cs => cs = K) K (perform o (n + 1) (.loop l body) s) := by
  obtain ⟨rfl, hst, hl, hphase, hguard⟩ := hp
  have hstep : step m = stepLoop l m := by
    rw [step, bind_of_ok (top_apply m), hm.cursors]
    dsimp only
    rw [hl]
    dsimp only
    rw [if_neg hphase]
  refine (Simulates.compute (i := 0) hm hstep (stepLoop_acts hguard hm) fun l? v hround hs => ?_).mono
    (le_refl 1) (le_refl _)
  cases l? with
  | none => exact .inl ⟨0, K, le_refl 0, rfl, hs⟩
  | some l' =>
    -- the body is a block of its own, in the loop as it is in this round
    have hin : InBody { c with pc := 0, loop := some { l' with phase := .body } } := fun l1 h1 => by
      cases h1
      rfl
    have hbody := ih (.block c.block) _ _ _ K ⟨rfl, hst, hin⟩ hs
    cases hr : perform o n (.block c.block) { s with vars := v } with
    | none =>
      rw [hr] at hbody
      exact hbody
    | some p =>
      obtain ⟨s', fl⟩ := p
      rw [hr] at hbody
      -- the loop goes on from the cursor after the round, wherever the body was left
      have hagain : ∀ j pc, Stands o (run j (run 1 m))
          ({ c with pc, loop := some { l' with phase := .after } } :: K) s' →
          Simulates o 0 (n / 2) (run 1 m) (fun cs => cs = K) K
            (perform o n (.loop { l' with phase := .after } c.block) s') := by
        intro j pc hs'
        have hguard' : l'.guard.all Guard.isPlain = true := by
          rw [round_guard o hround]
          exact hguard
        have hplaced : (Task.loop { l' with phase := .after } c.block).Placed
            { c with pc, loop := some { l' with phase := .after } } := ⟨rfl, hst, rfl, by simp, hguard'⟩
        have hloop := (ih _ _ _ _ K hplaced hs').before
        exact hloop.mono (Nat.zero_le _) (show n / 2 ≤ j + (n + 1) / 2 by omega)
      have hd : ∀ var, isLoopOf { c with pc := 0, loop := some { l' with phase := .body } } var = answers l' var := by
        intro var
        cases var <;> rfl
      have hhere : ∀ var, answers l' var = true →
          (({ c with pc := 0, loop := some { l' with phase := .body } } : Cursor) :: K).dropWhile
            (fun c => !c.isLoopOf var) = { c with pc := 0, loop := some { l' with phase := .body } } :: K := by
        intro var ha
        rw [List.dropWhile_cons, hd var, ha]
        rfl
      dsimp only
      by_cases hgo : fl.goesOn l' = true
      · rw [if_pos hgo]
        obtain ⟨j, cs, -, ha, hs'⟩ | ⟨hu, -⟩ := hbody
        · cases fl with
          | normal =>
            obtain ⟨pc, hend, rfl⟩ := ha
            refine hagain (j + 1) pc ?_
            rw [run_add]
            exact hs'.end_body (l := { l' with phase := .body }) rfl rfl hend
          | iterate var =>
            obtain ⟨d, rest, hdrop, pc, rfl⟩ := ha
            cases (hhere var hgo).symm.trans hdrop
            exact hagain j pc hs'
          | leave var => cases hgo
          | fails f => cases hgo
        · cases fl with
          | normal => exact hu.elim
          | iterate var => cases (hhere var hgo).symm.trans hu
          | leave var => cases hgo
          | fails f => cases hgo
      · rw [if_neg hgo]
        by_cases hle : fl.leaves l' = true
        · rw [if_pos hle]
          cases fl with
          | leave var =>
            obtain ⟨j, cs, -, ⟨d, rest, hdrop, rfl⟩, hs'⟩ | ⟨hu, -⟩ := hbody
            · cases (hhere var hle).symm.trans hdrop
              exact .inl ⟨j, K, Nat.zero_le j, rfl, hs'⟩
            · cases (hhere var hle).symm.trans hu
          | normal => cases hle
          | iterate var => cases hle
          | fails f => cases hle
        · rw [if_neg hle]
          refine Settles.outward hbody (fun cs h => ?_) fun var hvar => (hd var).trans ?_
          · rw [h] at hgo
            exact absurd rfl hgo
          · obtain rfl | rfl := hvar
            · exact Bool.eq_false_iff.2 hle
            · exact Bool.eq_false_iff.2 hgo

theorem leaveLoop_settles {again : Bool} {stmt : Stmt} (hm : Stands o m (c :: K) s)
    (hstep : step m = leaveLoop var again (m.announced c stmt)) :
    Settles o 1 m (fun cs => cs = next c :: K) (c :: K) s (if again then .iterate var else .leave var) := by
  have hm1 := hm.announced c stmt
  rw [leaveLoop, bind_of_ok (top_apply _), hm1.cursors] at hstep
  cases hdrop : (c :: K).dropWhile fun c => !c.isLoopOf var with
  | nil =>
    rw [hdrop] at hstep
    have hend := hm.tick_raised (hstep.trans (fail_apply _ _)) hm1
    cases again with
    | false => exact .inr ⟨hdrop, hend⟩
    | true => exact .inr ⟨hdrop, hend⟩
  | cons d rest =>
    rw [hdrop] at hstep
    obtain ⟨m', hm', h'⟩ := hm1.modifyTop
      fun fr _ => rfl
    have hs := hm.tick_ok (hstep.trans hm') h'
    cases again with
    | false => exact .inl ⟨1, rest, le_refl 1, ⟨d, rest, hdrop, rfl⟩, hs⟩
    | true => exact .inl ⟨1, _, le_refl 1, ⟨d, rest, hdrop, d.pc, rfl⟩, hs⟩

theorem say_simulates {x : Option Expr} {stmt : Stmt} (hx : x.all Expr.isPlain = true) (hm : Stands o m (c :: K) s)
    (hstep : step m = execClause (.say x) (m.announced c stmt)) :
    Simulates o 1 n m (fun cs => cs = next c :: K) (c :: K)
      (s.compute (valueOpt o x) fun line s => some ({ s with said := s.said.push line }, .normal)) := by
  have hval := (hm.announced c stmt).mirrored (evalOpt_mirrors x [0] hx) (Set.subset_univ _)
  unfold Scene.compute
  rw [execClause] at hstep
  cases hp : valueOpt o x s.vars with
  | error f v =>
    rw [hp] at hval
    obtain ⟨w, hw, hl⟩ := hval
    exact .inr ⟨trivial, hm.tick_raised (hstep.trans (bind_of_error hw)) hl⟩
  | ok line v =>
    rw [hp] at hval
    obtain ⟨w, hw, hl⟩ := hval
    obtain ⟨w', hw', hl'⟩ := hl.advance
    rw [bind_of_ok hw, bind_of_ok hw'] at hstep
    have hsaid : Lands o ∅ (w'.modifyInterp fun i => { i with said := i.said.push line }) (next c :: K)
        { vars := v, said := s.said.push line } := by
      refine ⟨⟨hl'.calm.options, hl'.calm.callers, hl'.calm.traps⟩, hl'.running, hl'.halted, hl'.error, hl'.cursors,
        by simp, hl'.vars, ?_⟩
      show w'.interp.said.push line = _
      rw [hl'.said]
    exact .inl ⟨1, _, le_refl 1, rfl, hm.tick_ok hstep hsaid⟩

theorem Simulates.from_next {i k : Nat} {r : Option (Scene × Flow)}
    (h : Simulates o i k m (fun cs => cs = next c :: K) (next c :: K) r) :
    Simulates o i k m (fun cs => cs = next c :: K) (c :: K) r := by
  refine h.imp (fun fl cs ha => ?_) fun fl hu => hu.of_pc
  cases fl with
  | normal => exact ha
  | leave var => exact Escaped.of_pc ha
  | iterate var => exact Escaped.of_pc ha
  | fails f => exact ha

theorem Simulated.stmt (ih : Simulated σ o n) {stmt : Stmt} (hp : (Task.stmt stmt).Placed c)
    (hm : Stands o m (c :: K) s) :
    Simulates o 1 (1 + n / 2) m (fun cs => cs = next c :: K) (c :: K) (perform o (n + 1) (.stmt stmt) s) := by
  obtain ⟨hat, hst, hbody⟩ := hp
  have habout : m.AboutTo c stmt := ⟨by rw [hm.cursors]; rfl, hbody, hat⟩
  have hstep := Engine.step_of_aboutTo habout
  have hm1 := hm.announced c stmt
  cases stmt with
  | ifThen pos cond thens elses =>
    obtain ⟨⟨hcond, hthens⟩, helses⟩ : (cond.isPlain = true ∧ Stmt.areStructured thens = true) ∧
        Stmt.areStructured elses = true := by simpa [Stmt.isStructured] using hst
    rw [perform]
    refine Simulates.compute (i := 0) hm hstep (ifThen_acts thens elses pos hcond hm1) fun b v _ hs => .from_next ?_
    refine ih.insideUnlessEmpty ?_ hs
    cases b with
    | true => exact hthens
    | false => exact helses
  | group pos block =>
    have hblock : Stmt.areStructured block = true := by simpa [Stmt.isStructured] using hst
    obtain ⟨w, hw, hl⟩ := hm1.advance
    obtain ⟨w', hw', hl'⟩ := hl.modifyTop (f := fun f => f.enter (.at block 0 f.unit))
      fun fr hfr => show _ = { fr with cursors := Structured.inside c K block } by
        simp [Frame.enter, Frame.unit, hfr, Structured.inside]
    have hexec : Engine.exec (.group pos block) (m.announced c (.group pos block)) =
        .ok ⟨⟩ w' := (bind_of_ok hw).trans hw'
    rw [perform]
    exact ((ih.inside hblock (hm.tick_ok (hstep.trans hexec) hl')).from_next).before
  | loop pos control guard body =>
    obtain ⟨⟨hcontrol, hguard⟩, hblock⟩ : (control.isPlain = true ∧ guard.all Guard.isPlain = true) ∧
        Stmt.areStructured body = true := by simpa [Stmt.isStructured] using hst
    rw [perform]
    refine Simulates.compute (i := 0) hm hstep (execLoop_acts body hcontrol hm1) fun l v hl hs => ?_
    obtain ⟨p, v1, hhead, hrest⟩ := Plain.bind_eq_ok hl
    obtain ⟨_, v2, _, hret⟩ := Plain.bind_eq_ok hrest
    cases hret
    obtain ⟨hg, hphase⟩ := Plain.head_start o hhead
    have hplaced : (Task.loop p.1 body).Placed ⟨body, 0, c.unit, some p.1⟩ :=
      ⟨rfl, hblock, rfl, by rw [hphase]; decide, by rw [hg]; exact hguard⟩
    have hloop := ih _ _ _ _ (next c :: K) hplaced hs
    exact Simulates.from_next (hloop.mono (Nat.zero_le _) (show n / 2 ≤ (n + 1) / 2 by omega))
  | select pos whens otherwise =>
    obtain ⟨hwhens, hother⟩ : Stmt.whensStructured whens = true ∧ Stmt.otherwiseStructured otherwise = true := by
      simpa [Stmt.isStructured] using hst
    rw [perform]
    refine Simulates.compute (i := 0) hm hstep (execWhens_acts whens hwhens (hm1.mono (Set.subset_univ _)))
      fun block v hchosen hs => .from_next ?_
    exact ih.insideUnlessEmpty (choose_structured hwhens hother hchosen) hs
  | clause pos clause =>
    cases clause with
    | nop =>
      obtain ⟨w, hw, hl⟩ := hm1.advance
      rw [perform]
      exact .inl ⟨1, _, le_refl 1, rfl, hm.tick_ok (hstep.trans hw) hl⟩
    | assign name x =>
      have hx : x.isPlain = true := hst
      rw [perform]
      refine Simulates.compute (i := 0) hm hstep (assign_acts name hx hm1) fun _ v _ hs => ?_
      exact .inl ⟨0, _, le_refl 0, rfl, hs⟩
    | say x =>
      rw [perform]
      exact say_simulates hst hm hstep
    | leave var =>
      rw [perform]
      exact leaveLoop_settles hm hstep
    | iterate var =>
      rw [perform]
      exact leaveLoop_settles hm hstep
    | _ => cases hst

end Structured

end Rexx
