import Rexx.Proofs.Clause.Suspension

/-!
# `Clause.OwnLines` — the lines that a clause writes itself

SAY, a command under the default target, and EXIT with UNLESS write a line of their own.
-/

namespace Rexx

open List Machine

/-! ## Lines -/

namespace Machine

variable {σ : Type} {S : Set Site} {m m' m'' : Machine σ} {a b : List Text}

def linesTo (m m' : Machine σ) : List Text :=
  m'.interp.said.toList.drop m.interp.said.size ++ m'.interp.diagnostics.toList.drop m.interp.diagnostics.size

structure Adds (a b : List Text) (m m' : Machine σ) : Prop where
  said : m'.interp.said = m.interp.said ++ a.toArray
  reported : m'.interp.diagnostics = m.interp.diagnostics ++ b.toArray

theorem Adds.linesTo (h : m.Adds a b m') : m.linesTo m' = a ++ b := by
  unfold Machine.linesTo
  rw [h.said, h.reported]
  simp

abbrev Silent (m m' : Machine σ) : Prop := m.Adds [] [] m'

theorem Silent.of_eq (hs : m'.interp.said = m.interp.said) (hd : m'.interp.diagnostics = m.interp.diagnostics) :
    m.Silent m' := ⟨by simp [hs], by simp [hd]⟩

theorem Adds.trans {a' b' : List Text} (h : m.Adds a b m') (h' : m'.Adds a' b' m'') : m.Adds (a ++ a') (b ++ b') m'' := by
  refine ⟨?_, ?_⟩
  · rw [h'.said, h.said]
    simp
  · rw [h'.reported, h.reported]
    simp

theorem Evolves.silent (h : m.Evolves S m') : m.Silent m' :=
  .of_eq (by rw [h.interp]) (by rw [h.interp])

theorem Suspends.silent {R : Machine σ → Machine σ → Prop} (h : m.Suspends R S m')
    (hR : ∀ m0, R m m0 → m.Silent m0) : m.Silent m' := by
  cases h with
  | held hp _ _ hold =>
    obtain ⟨p, _, rfl⟩ := Option.map_eq_some_iff.1 hold
    exact (hR _ hp).trans (Silent.of_eq rfl rfl)
  | entered hp _ _ he =>
    subst he
    exact (hR _ hp).trans (Silent.of_eq rfl rfl)
  | refused hp => exact hR _ hp

end Machine

namespace Engine

variable {σ α β : Type} {S : Set Site} {m m' u : Machine σ} {c : Engine σ Unit} {a b : List Text}

abbrev Writes (a b : List Text) (c : Engine σ α) (m : Machine σ) : Prop :=
  Ensures (Machine.Adds a b) (Machine.Adds a b) (Machine.Adds a b) c m

theorem Evaluates.silent {c : Engine σ α} (h : Evaluates S c m) : Writes [] [] c m :=
  h.imp (fun h => h.silent) (fun h => h.silent) fun h => h.silent fun _ h => h.silent

theorem Writes.bind {c : Engine σ α} {f : α → Engine σ β} (hc : Writes [] [] c m)
    (hf : ∀ v m', c m = .ok v m' → Writes [] [] (f v) m') : Writes [] [] (c >>= f) m :=
  Ensures.bind ⟨.trans, .trans, .trans⟩ hc hf

theorem Writes.of_error {c : Engine σ α} {f : α → Engine σ β} {e : Interrupt} (hc : Writes [] [] c m)
    (h : c m = .error e m') : Writes [] [] (c >>= f) m :=
  hc.bind fun v m1 hv => by cases h.symm.trans hv

theorem Writes.after {a' b' : List Text} {d : Engine σ Unit} (hs : u.Adds a b m') (hd : d u = c m')
    (h : Writes a' b' c m') : Writes (a ++ a') (b ++ b') d u := by
  unfold Writes Ensures at h ⊢
  rw [hd]
  cases hr : c m' with
  | ok w m2 => rw [hr] at h; exact hs.trans h
  | error e m2 => cases e <;> (rw [hr] at h; exact hs.trans h)

theorem Writes.modifyTop (f : Frame → Frame) (m : Machine σ) : Writes [] [] (modifyTop f) m :=
  .of_ok rfl (Silent.of_eq rfl rfl)

/-- **One execution of a clause**, made in passes from `m` on: for each pass the machine with which it starts and the lines
that it writes, and the result of the last one. -/
inductive Execution (ρ : Machine σ → Machine σ → Prop) (c : Engine σ Unit) :
    Machine σ → List (Machine σ × List Text) → Result σ Unit → Prop where
  | value {m m' : Machine σ} (h : c m = .ok () m') : Execution ρ c m [(m, m.linesTo m')] (.ok () m')
  | raises {m m' : Machine σ} {e : Condition} (h : c m = .error (.raised e) m') :
      Execution ρ c m [(m, m.linesTo m')] (.error (.raised e) m')
  | again {m m1 u : Machine σ} {ps : List (Machine σ × List Text)} {r : Result σ Unit}
      (h : c m = .error .suspended m1) (resume : ρ m1 u) (rest : Execution ρ c u ps r) :
      Execution ρ c m ((m, m.linesTo m1) :: ps) r

/-- The lines that all passes write. -/
def written (ps : List (Machine σ × List Text)) : List Text := ps.flatMap Prod.snd

/-! ## The line of a pass -/

def printed? (site : Site) (x : Expr) (u : Machine σ) : Option Text :=
  match commandee? u, commandText site (u.binding? u.top) x u with
  | none, .ok cmd _ => some cmd
  | _, _ => none

def unlessMessage (cond message : Expr) : Engine σ (Option Text) := do
  if ← evalTruth [0] cond then return none else some <$> eval [1] message

/-- **The line that a pass writes** that starts with the machine `u`. -/
def ownLine? (clause : Clause) (u : Machine σ) : Option Text :=
  match clause with
  | .say x =>
    match evalOpt [0] x u with
    | .ok v _ => some v
    | .error _ _ => none
  | .command x => printed? [0] x u
  | .address name auth asName (some x) =>
    if (name.getD []).isEmpty then none
    else match (evalOpt [0] auth >>= switchTo (name.getD []) (asName.getD [])) u with
      | .ok _ u' => printed? [auth.toList.length] x u'
      | .error _ _ => none
  | .exitUnless _ cond message =>
    match unlessMessage cond message u with
    | .ok (some v) _ => some (Text.untilNul v)
    | _ => none
  | _ => none

/-- The clauses that write a line of their own when they are completed. -/
inductive Speaks : Clause → Prop where
  | say (x : Option Expr) : Speaks (.say x)
  | command (x : Expr) : Speaks (.command x)
  | address (name : Option Text) (auth : Option Expr) (asName : Option Text) (x : Expr) :
      Speaks (.address name auth asName (some x))

structure Voices (line? : Option Text) (c : Engine σ Unit) (u : Machine σ) : Prop where
  writes : ∃ a b, a ++ b = line?.toList ∧ Writes a b c u
  completes : line?.isSome → ∃ m', c u = .ok () m'

theorem Voices.silent (h : Writes [] [] c u) : Voices none c u := ⟨⟨[], [], rfl, h⟩, nofun⟩

theorem Voices.after {a : Engine σ α} {f : α → Engine σ Unit} {v : α} {line? : Option Text} (ha : a u = .ok v m')
    (hs : u.Silent m') (h : Voices line? (f v) m') : Voices line? (a >>= f) u := by
  have hb : (a >>= f) u = f v m' := bind_of_ok ha
  obtain ⟨x, y, hxy, hw⟩ := h.writes
  exact ⟨⟨x, y, hxy, .after hs hb hw⟩, fun hl => hb ▸ h.completes hl⟩

theorem say_voices (v : Text) (u : Machine σ) : Voices (some v) (do advance; say v) u :=
  ⟨⟨[v], [], rfl, .of_ok rfl ⟨by simp [Machine.modifyInterp, Interpreter.modifyTop],
    by simp [Machine.modifyInterp, Interpreter.modifyTop]⟩⟩,
    fun _ => ⟨_, rfl⟩⟩

theorem sayCommand_voices (cmd : Text) (u : Machine σ) : Voices (some cmd) (sayCommand cmd) u :=
  ⟨⟨[cmd], [], rfl, .of_ok rfl ⟨by simp [Machine.modifyInterp, Interpreter.modifyTop, Interpreter.setVariables],
    by simp [Machine.modifyInterp, Interpreter.modifyTop, Interpreter.setVariables]⟩⟩, fun _ => ⟨_, rfl⟩⟩

theorem execCommand_voices (i : Nat) (x : Expr) (u : Machine σ) : Voices (printed? [i] x u) (execCommand [i] x) u := by
  have heval := evaluates_evaluative.commandText i (u.binding? u.top) x u
  suffices h : Voices (printed? [i] x u)
      (commandText [i] (u.binding? u.top) x >>= carryOut (commandee? u)) u by
    obtain ⟨⟨a, b, hab, hw⟩, hc⟩ := h
    exact ⟨⟨a, b, hab, Ensures.congr hw (execCommand_apply [i] x u)⟩, fun hl => execCommand_apply [i] x u ▸ hc hl⟩
  unfold printed?
  cases htarget : commandee? u with
  | some name =>
    refine .silent (.bind heval.silent fun cmd m1 _ => ?_)
    refine .bind (dispatch_evaluates (Set.mem_univ []) name cmd [] false m1).silent fun r m2 _ => ?_
    exact .bind (.modifyTop _ m2) fun _ m3 _ => (check_evaluates (S := ∅) r m3).silent
  | none =>
    cases hc : commandText [i] (u.binding? u.top) x u with
    | ok cmd m1 => exact .after hc (heval.ok hc).silent (sayCommand_voices cmd m1)
    | error e m1 => exact .silent (heval.silent.of_error hc)

theorem switchTo_writes (name asName auth : Text) (u : Machine σ) : Writes [] [] (switchTo name asName auth) u := by
  have happly := switchTo_apply name asName auth u
  cases hsw : u.targets.switch name auth asName with
  | error f =>
    rw [hsw] at happly
    exact .of_raised happly (Silent.of_eq rfl rfl)
  | ok p =>
    rw [hsw] at happly
    exact .of_ok happly (Silent.of_eq rfl rfl)

theorem ownLine?_completes {clause : Clause} (hs : Speaks clause) (u : Machine σ) :
    Voices (ownLine? clause u) (execClause clause) u := by
  cases hs with
  | say x =>
    have heval := evaluates_evaluative.evalOpt 0 x u
    rw [ownLine?]
    cases hc : evalOpt [0] x u with
    | ok v m1 => exact .after hc (heval.ok hc).silent (say_voices v m1)
    | error e m1 => exact .silent (heval.silent.of_error hc)
  | command x => exact execCommand_voices 0 x u
  | address name auth asName x =>
    rw [ownLine?, execClause]
    cases hname : (name.getD []).isEmpty with
    | true =>
      rw [execAddress, if_pos hname]
      exact .silent (.bind (.modifyTop _ u) fun _ m1 _ => .modifyTop _ m1)
    | false =>
      have hsilent : Writes [] [] (evalOpt [0] auth >>= switchTo (name.getD []) (asName.getD [])) u :=
        .bind (evaluates_evaluative.evalOpt 0 auth u).silent fun a m1 _ => switchTo_writes _ _ a m1
      rw [execAddress_eq hname, ← bind_assoc]
      cases hc : (evalOpt [0] auth >>= switchTo (name.getD []) (asName.getD [])) u with
      | ok v m1 => exact .after hc (hsilent.ok hc) (execCommand_voices _ x m1)
      | error e m1 => exact .silent (hsilent.of_error hc)

/-! ## EXIT with UNLESS -/

theorem unlessMessage_evaluates (cond message : Expr) (u : Machine σ) :
    Evaluates Set.univ (unlessMessage cond message) u := by
  refine .bind (evaluates_evaluative.evalTruth 0 cond u) fun b m1 _ => ?_
  cases b with
  | true => exact .pure none m1
  | false =>
    exact .bind (eval_evaluates [1] message m1).weaken fun v m2 _ => .pure (some v) m2

theorem exitUnless_eq (code : Option Expr) (cond message : Expr) :
    (execClause (.exitUnless code cond message) : Engine σ Unit) = unlessMessage cond message >>= fun
      | none => advance
      | some v => report v >>= fun _ => evalIfAny (eval [2]) code >>= exitWith := by
  rw [unlessMessage, bind_assoc]
  refine congrArg (evalTruth [0] cond >>= ·) (funext fun b => ?_)
  cases b with
  | true => rfl
  | false =>
    show _ = (some <$> eval [1] message) >>= _
    rw [map_eq_pure_bind, bind_assoc]
    rfl

theorem exitUnless_writes (code : Option Expr) (cond message : Expr) (u : Machine σ) :
    Writes [] (ownLine? (.exitUnless code cond message) u).toList (execClause (.exitUnless code cond message)) u := by
  have heval := unlessMessage_evaluates cond message u
  rw [ownLine?, exitUnless_eq]
  cases hc : unlessMessage cond message u with
  | error e m1 => exact heval.silent.of_error hc
  | ok o m1 =>
    cases o with
    | none => exact .after (heval.ok hc).silent (bind_of_ok hc) (.modifyTop _ m1)
    | some v =>
      -- The line is there before the code is looked at, and what follows writes nothing.
      have hrest : ∀ w : Machine σ, Writes [] [] (evalIfAny (eval [2]) code >>= exitWith) w := fun w =>
        .bind (evaluates_evaluative.evalIfAny (evaluates_evaluative.eval 2) code w).silent fun _ w1 _ =>
          .of_ok rfl (Machine.Silent.of_eq rfl rfl)
      let w : Machine σ := m1.modifyInterp fun i => { i with diagnostics := i.diagnostics.push (Text.untilNul v) }
      have hline : u.Adds [] [Text.untilNul v] w :=
        (heval.ok hc).silent.trans ⟨by simp [w, Machine.modifyInterp], by simp [w, Machine.modifyInterp]⟩
      refine .after hline ?_ (hrest w)
      exact bind_of_ok hc

/-! ## All passes together -/

variable {ρ : Machine σ → Machine σ → Prop} {ps : List (Machine σ × List Text)} {r : Result σ Unit}
  {line? : Machine σ → Option Text}

theorem Execution.ne_nil (h : Execution ρ c m ps r) : ps ≠ [] := by
  cases h <;> simp

theorem filterMap_pass (line? : Machine σ → Option Text) (u : Machine σ) (lines : List Text)
    (ps : List (Machine σ × List Text)) :
    (((u, lines) :: ps).filterMap fun p => line? p.1) = (line? u).toList ++ ps.filterMap fun p => line? p.1 := by
  rw [filterMap_cons]
  cases line? u <;> rfl

theorem Execution.written_eq (hw : ∀ u, ∃ a b, a ++ b = (line? u).toList ∧ Writes a b c u) (h : Execution ρ c m ps r) :
    written ps = ps.filterMap fun p => line? p.1 := by
  -- One pass, whatever its end.
  have hpass : ∀ (u u' : Machine σ) (ps : List (Machine σ × List Text)),
      (∀ a b, Writes a b c u → u.Adds a b u') → (written ps = ps.filterMap fun p => line? p.1) →
      written ((u, u.linesTo u') :: ps) = ((u, u.linesTo u') :: ps).filterMap fun p => line? p.1 := by
    intro u u' ps hadds hps
    obtain ⟨a, b, hab, hwrites⟩ := hw u
    have hlines : u.linesTo u' = (line? u).toList := (hadds a b hwrites).linesTo.trans hab
    rw [written, flatMap_cons, hlines, ← written, hps, filterMap_pass]
  induction h with
  | value hc => exact hpass _ _ [] (fun _ _ h => h.ok hc) rfl
  | raises hc => exact hpass _ _ [] (fun _ _ h => h.raised hc) rfl
  | again hc _ _ ih => exact hpass _ _ _ (fun _ _ h => h.suspended hc) ih

theorem Execution.written_last (hv : ∀ u, Voices (line? u) c u) (h : Execution ρ c m ps r) :
    (∀ m', r = .ok () m' → ∃ p, ps.getLast? = some p ∧ written ps = (line? p.1).toList) ∧
      (∀ e m', r = .error (.raised e) m' → written ps = []) := by
  have hnone : ∀ {u u' : Machine σ} {e : Interrupt}, c u = .error e u' → line? u = none := by
    intro u u' e hc
    rw [← Option.not_isSome_iff_eq_none]
    intro hl
    obtain ⟨m', hm'⟩ := (hv u).completes hl
    rw [hm'] at hc
    cases hc
  rw [h.written_eq fun u => (hv u).writes]
  induction h with
  | @value u u' hc =>
    refine ⟨fun _ _ => ⟨(u, u.linesTo u'), getLast?_singleton, ?_⟩, fun _ _ h => (by cases h)⟩
    rw [filterMap_pass, filterMap_nil, append_nil]
  | @raises u u' e hc =>
    refine ⟨fun _ h => (by cases h), fun _ _ _ => ?_⟩
    rw [filterMap_pass, hnone hc]
    rfl
  | @again u _ _ ps _ hc _ hrest ih =>
    obtain ⟨p, qs, rfl⟩ := exists_cons_of_ne_nil hrest.ne_nil
    rw [filterMap_pass, hnone hc]
    exact ih

theorem printed?_isSome_iff {site : Site} {x : Expr} (h : execCommand site x u = .ok () m') :
    (printed? site x u).isSome ↔ commandee? u = none := by
  rw [execCommand_apply] at h
  unfold printed?
  cases htarget : commandee? u with
  | some name => simp
  | none =>
    cases hc : commandText site (u.binding? u.top) x u with
    | ok cmd m1 => simp
    | error e m1 =>
      rw [bind_of_error hc] at h
      cases h

/-- **The line of its own that a clause writes.** Whatever happens between the passes of one execution:

SAY and commands write in the pass that completes the clause and in no other, and write nothing if the clause raises a
condition. A completed SAY has written its line, and a completed command, also one given with ADDRESS, has been printed
exactly if it went to the default target.

EXIT with UNLESS writes its message in each pass that comes to its code. So if the clause is completed, it has written
what its last pass writes, and no more, exactly if no earlier pass had come to the code. -/
theorem clause_writes_own_line (ρ : Machine σ → Machine σ → Prop) :
    (∀ clause m ps r, Speaks clause → Execution ρ (execClause clause) m ps r →
      (∀ m', r = .ok () m' → ∃ p, ps.getLast? = some p ∧ written ps = (ownLine? clause p.1).toList) ∧
        (∀ e m', r = .error (.raised e) m' → written ps = [])) ∧
    (∀ x (u m' : Machine σ), execClause (.say x) u = .ok () m' → (ownLine? (.say x) u).isSome) ∧
    (∀ x (u m' : Machine σ), execClause (.command x) u = .ok () m' →
      ((ownLine? (.command x) u).isSome ↔ commandee? u = none)) ∧
    (∀ name auth asName x (u u' m' : Machine σ), (name.getD []).isEmpty = false →
      (evalOpt [0] auth >>= switchTo (name.getD []) (asName.getD [])) u = .ok () u' →
      execClause (.address name auth asName (some x)) u = .ok () m' →
      ((ownLine? (.address name auth asName (some x)) u).isSome ↔ commandee? u' = none)) ∧
    (∀ code cond message m ps r, Execution ρ (execClause (.exitUnless code cond message)) m ps r →
      (written ps = ps.filterMap fun p => ownLine? (.exitUnless code cond message) p.1) ∧
        ∀ m', r = .ok () m' → ∃ p, ps.getLast? = some p ∧
          (written ps = (ownLine? (.exitUnless code cond message) p.1).toList ↔
            ∀ q ∈ ps.dropLast, ownLine? (.exitUnless code cond message) q.1 = none)) := by
  refine ⟨fun clause m ps r hs h => h.written_last (ownLine?_completes hs), fun x u m' h => ?_,
    fun x u m' h => printed?_isSome_iff h, fun name auth asName x u u' m' hname hsw h => ?_,
    fun code cond message m ps r h => ?_⟩
  · rw [ownLine?]
    cases hc : evalOpt [0] x u with
    | ok v m1 => rfl
    | error e m1 =>
      rw [execClause, bind_of_error hc] at h
      cases h
  · rw [execClause, execAddress_eq hname, ← bind_assoc, bind_of_ok hsw] at h
    rw [ownLine?, hname, hsw]
    exact printed?_isSome_iff h
  · have hw := h.written_eq fun u => ⟨[], _, rfl, exitUnless_writes code cond message u⟩
    refine ⟨hw, fun m' _ => ⟨ps.getLast h.ne_nil, List.getLast?_eq_some_getLast h.ne_nil, ?_⟩⟩
    -- What the last pass writes comes after what the others have written.
    rw [hw]
    conv_lhs => lhs; rw [← List.dropLast_append_getLast h.ne_nil, List.filterMap_append]
    rw [filterMap_pass, List.filterMap_nil, List.append_nil, List.append_left_eq_self, List.filterMap_eq_nil_iff]

def bare : Machine Unit := ⟨.fresh 0, ∅, .empty, ⟨0, ⟨#[], 0⟩, [], []⟩, ()⟩

/-- A machine with a routine `F`, which returns `x`, for SAY to call. -/
def speaking : Machine Unit := (bare.start "exit\nf:\nreturn 'x'" [] []).toOption.getD bare

def speakingMidway : Machine Unit := (suspended? (execClause (.say (some (.call "F" false []))) speaking)).getD speaking

theorem clause_writes_own_line_speaking :
    ∃ ps m', Execution (fun m u => u = m.tick) (execClause (.say (some (.call "F" false [])))) speaking ps (.ok () m') ∧
      ps.map Prod.fst = [speaking, speakingMidway.tick] ∧ written ps = [("x" : Text)] := by
  have hfirst : execClause (.say (some (.call "F" false []))) speaking = .error .suspended speakingMidway :=
    suspended_of_isSome (by decide +kernel)
  obtain ⟨m', hm'⟩ := ok_of_run' (show (execClause (.say (some (.call "F" false [])))).run' speakingMidway.tick = some () by
    decide +kernel)
  have hpasses := Execution.again hfirst (ρ := fun m u => u = m.tick) rfl (.value hm')
  obtain ⟨p, hp, hwritten⟩ := ((clause_writes_own_line _).1 _ _ _ _ (.say _) hpasses).1 m' rfl
  have hline : ownLine? (.say (some (.call "F" false []))) speakingMidway.tick = some ("x" : Text) := by decide +kernel
  refine ⟨_, m', hpasses, by simp only [List.map_cons, List.map_nil], ?_⟩
  have hp' : p.1 = speakingMidway.tick := by
    rw [List.getLast?_cons_cons, List.getLast?_singleton, Option.some.injEq] at hp
    rw [← hp]
  rw [hwritten, hp', hline, Option.toList_some]

theorem exitUnless_writes_twice :
    ((bare.start "exit f() unless 0, 'msg'\nf:\nreturn 3" [] []).toOption.map fun m =>
      ((m.run 20).interp.status, (m.run 20).interp.exitCode, (m.run 20).interp.diagnostics)) =
      some (.stopped, 3, #[("msg" : Text), "msg"]) := by
  decide +kernel

end Engine

end Rexx
