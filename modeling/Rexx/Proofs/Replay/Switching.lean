import Rexx.Proofs.Replay.Routines
import Rexx.Proofs.Target.Ownership

/-!
# `Replay.Switching` — ADDRESS with a command is a switch and then the command

ADDRESS with a command switches the target and then does what a command by itself does.
-/

namespace Rexx

open Registry

variable {σ : Type} {d : Nat}

/-! ## Names stay bound -/

namespace Registry

variable {r r' r'' : Registry σ}

def KeepsNames (r r' : Registry σ) : Prop := ∀ (name : Text) b, r[name]? = some b → ∃ b', r'[name]? = some b'

theorem KeepsNames.refl (r : Registry σ) : r.KeepsNames r := fun _ b hb => ⟨b, hb⟩

theorem KeepsNames.trans (h : r.KeepsNames r') (h' : r'.KeepsNames r'') : r.KeepsNames r'' := fun name b hb =>
  (h name b hb).elim (h' name)

theorem KeepsNames.insert (r : Registry σ) (k : Text) (b : Binding σ) : r.KeepsNames (r.insert k b) := by
  intro name e he
  rw [Table.getElem?_insert]
  split
  · exact ⟨b, rfl⟩
  · exact ⟨e, he⟩

theorem KeepsNames.switch {name : Text} {target : Option Text} (h : r.KeepsNames r')
    (hs : r.switch name [] [] = .ok (r, target)) : r'.switch name [] [] = .ok (r', target) := by
  unfold Registry.switch at hs ⊢
  dsimp only at hs ⊢
  split at hs
  · rename_i hk
    rw [if_pos hk, ← (Prod.mk.inj (Except.ok.inj hs)).2]
  · rename_i hk
    rw [if_neg hk]
    cases hb : r[Text.upper name]? with
    | none =>
      rw [hb] at hs
      cases hs
    | some b =>
      obtain ⟨b', hb'⟩ := h _ b hb
      rw [hb] at hs
      rw [hb', ← (Prod.mk.inj (Except.ok.inj hs)).2]
      rfl

end Registry

namespace Machine

variable {m m' u : Machine σ} {name : Text}

theorem tick_keepsNames (m : Machine σ) : m.targets.KeepsNames m.tick.targets := by
  refine tick_keeps (R := fun m m' => m.targets.KeepsNames m'.targets) .trans (fun h => ?_) fun _ h => ?_
  · rw [h.targets]
    exact .refl _
  · obtain heq | ⟨_, _, _, _, _, _, _, hs⟩ | ⟨_, _, spec, _, rfl⟩ := h.targets
    · rw [heq]
      exact .refl _
    · obtain heq | ⟨b, _, heq, _⟩ := switch_spec hs
      · rw [heq]
        exact .refl _
      · rw [heq]
        exact .insert _ _ _
    · exact fun name b hb => (load_keepsOwners _ spec _ name b hb).imp fun _ h => h.1

theorem Rejoins.keepsNames (h : m.Rejoins d u) : m.targets.KeepsNames u.targets := by
  induction h with
  | here => exact .refl _
  | answered ha _ ih => exact (answer?_turns ha).targets ▸ ih
  | tick _ _ _ _ ih => exact (tick_keepsNames _).trans ih
  | returned => exact tick_keepsNames _

def Aims (name : Text) (m : Machine σ) : Prop :=
  m.targets.switch name [] [] = .ok (m.targets, m.top.target)

theorem Aims.later (h : m.Aims name) (ht : u.top.target = m.top.target)
    (hn : m.targets.KeepsNames u.targets) : u.Aims name := by
  unfold Aims at h ⊢
  rw [ht]
  exact hn.switch h

theorem Suspends.same {S : Set Site} (h : m.Suspends (Evolves S) S m') : m'.targets = m.targets ∧
    m'.top.target = m.top.target ∧ m'.interp.interpretBlocked = m.interp.interpretBlocked := by
  cases h with
  | held hev _ _ hold =>
    obtain ⟨p, _, rfl⟩ := Option.map_eq_some_iff.1 hold
    exact ⟨hev.targets, hev.target, congrArg (·.interpretBlocked) hev.interp⟩
  | entered hev _ _ henter =>
    subst henter
    exact ⟨hev.targets, hev.target, congrArg (·.interpretBlocked) hev.interp⟩
  | refused hev => exact ⟨hev.targets, hev.target, congrArg (·.interpretBlocked) hev.interp⟩

end Machine

/-! ## ADDRESS with a command -/

namespace Engine

variable {m m' u : Machine σ} {name : Text} {x : Expr}

theorem aims_of_switchTo (hm : m.Evaluating d) (h : (switchTo name [] [] : Engine σ Unit) m = .ok () m') :
    m'.Aims name ∧ m'.Evaluating d := by
  rw [switchTo_apply] at h
  cases hs : m.targets.switch name [] [] with
  | error f =>
    rw [hs] at h
    cases h
  | ok p =>
    rw [hs] at h
    cases h
    exact ⟨switch_again hs, hm⟩

theorem address_eq (hname : name ≠ []) :
    (execClause (.address (some name) none none none) : Engine σ Unit) = switchTo name [] [] >>= fun _ => advance := by
  have hempty : name.isEmpty = false := List.isEmpty_eq_false_iff.2 hname
  rw [execClause, execAddress, Option.getD, hempty]
  rfl

theorem replays_address_iff (hname : name ≠ []) (hm : m.Evaluating d) (r : Result σ Unit) :
    Replays (Machine.Rejoins d) (execClause (.address (some name) none none (some x))) m r ↔
      Sequel (Once (switchTo name [] [])) (fun _ => Replays (Machine.Rejoins d) (execClause (.command x))) m r := by
  have heq : (execClause (.address (some name) none none (some x)) : Engine σ Unit) =
      switchTo name [] [] >>= fun _ => execCommand [0] x :=
    execAddress_eq (List.isEmpty_eq_false_iff.2 hname) none [] x
  rw [heq]
  -- Every pass after the first starts with the name switched to.
  refine Replays.bind_standing_iff (Q := fun _ u => u.Aims name ∧ u.Evaluating d) (switchTo_immediate name [] [])
    (fun _ u hu => by rw [switchTo_apply, hu.1]; rfl) fun _ u m1 u' hu hs hr => ?_
  obtain ⟨haims, hu⟩ : u.Aims name ∧ u.Evaluating d := hu.elim (aims_of_switchTo hm) id
  have hsuspends := (execCommand_defers 0 x u).suspended hs
  have hback := hr.back hu hsuspends
  exact ⟨haims.later (by rw [hback.same]) (hsuspends.same.1 ▸ hr.keepsNames), hr.evaluating⟩

/-- **ADDRESS with a command is a switch and then the command**, for every name but the empty one. -/
theorem address_commands_after_switching (name : Text) (x : Expr) (hrun : m.Running) (hd : m.stack.depth = d) :
    (name ≠ [] →
      (∀ e m1, execClause (.address (some name) none none none) m = .error e m1 → ∀ r,
        (Replays (Machine.Rejoins d) (execClause (.address (some name) none none (some x))) m r ↔ r = .error e m1)) ∧
      (∀ m1, execClause (.address (some name) none none none) m = .ok () m1 →
        ∃ m2, execClause .nop m = .ok () m2 ∧ ∀ r,
          (Replays (Machine.Rejoins d) (execClause (.address (some name) none none (some x))) m2 r ↔
            Replays (Machine.Rejoins d) (execClause (.command x)) m1 r))) ∧
    (name = [] → execClause (.address (some name) none none (some x)) m = execClause (.address (some name) none none none) m) := by
  refine ⟨fun hname => ?_, fun hname => by rw [hname]; rfl⟩
  have hm : m.Evaluating d := ⟨hrun, hd⟩
  have hswitch := switchTo_apply name [] [] m
  rw [address_eq hname]
  cases hs : m.targets.switch name [] [] with
  | error f =>
    rw [hs] at hswitch
    rw [bind_of_error hswitch]
    refine ⟨fun e m1 h r => ?_, fun m1 h => (by cases h)⟩
    cases h
    exact (replays_address_iff hname hm r).trans (sequel_once_of_raised hswitch)
  | ok p =>
    rw [hs] at hswitch
    rw [bind_of_ok hswitch]
    refine ⟨fun e m1 h => (by cases h), fun m1 h => ⟨_, rfl, fun r => ?_⟩⟩
    set m2 := m.modifyTop Frame.advance with hm2
    -- Going on to the next statement and switching can be exchanged.
    have hframe : ∀ f : Frame, ({ f with target := p.2 } : Frame).advance = { f.advance with target := p.2 } := by
      intro f
      obtain ⟨pool, target, args, cursors, traps, steps, memo, replies⟩ := f
      cases cursors <;> rfl
    have hm1 : m1 = m2.retarget p.1 p.2 := by
      cases h
      simp only [hm2, Machine.retarget, Machine.modifyInterp, Interpreter.modifyTop, Stack.modifyTop, hframe]
    have hswitch2 : (switchTo name [] [] : Engine σ Unit) m2 = .ok () m1 := by
      rw [switchTo_apply, hm1, show m2.targets = m.targets from rfl, hs]
    exact (replays_address_iff hname (show m2.Evaluating d from hm) r).trans (sequel_once_of_ok hswitch2)

/-- A machine that knows the target `T`, which leaves its commands to the host. -/
def commanding : Machine Unit := { poised with targets := withDeferring, channel := Machine.idle.channel }

def switched : Machine Unit :=
  (commanding.retarget withDeferring (some "T")).modifyTop Frame.advance

def switchedHeld : Machine Unit := (suspended? (execClause (.command (.literal "work" none)) switched)).getD switched

def switchedAnswered : Machine Unit := (switchedHeld.answer? ⟨1, true, "ok", [], 0⟩).getD switchedHeld

theorem address_commands_after_switching_commanding :
    commanding.Running ∧ commanding.stack.depth = 1 ∧
    execClause (.address (some "T") none none none) commanding = .ok () switched ∧
    execClause (.command (.literal "work" none)) switched = .error .suspended switchedHeld ∧
    switchedHeld.Rejoins 1 switchedAnswered ∧
    ∃ m2 m', execClause .nop commanding = .ok () m2 ∧
      execClause (.command (.literal "work" none)) switchedAnswered = .ok () m' ∧
      Replays (Machine.Rejoins 1) (execClause (.address (some "T") none none (some (.literal "work" none)))) m2 (.ok () m') := by
  have hswitch : execClause (.address (some "T") none none none) commanding = .ok () switched := rfl
  have hheld : execClause (.command (.literal "work" none)) switched = .error .suspended switchedHeld :=
    suspended_of_isSome (by decide +kernel)
  obtain ⟨u, hu⟩ := Option.isSome_iff_exists.1
    (show (switchedHeld.answer? ⟨1, true, "ok", [], 0⟩).isSome = true by decide +kernel)
  have hanswer : switchedHeld.answer? ⟨1, true, "ok", [], 0⟩ = some switchedAnswered :=
    hu.trans (congrArg some (congrArg (Option.getD · switchedHeld) hu).symm)
  have hback : switchedHeld.Rejoins 1 switchedAnswered := by
    refine .answered hanswer (.here ?_ ?_) <;> decide +kernel
  obtain ⟨m', hm'⟩ := ok_of_run' (show (execClause (.command (.literal "work" none))).run' switchedAnswered = some () by
    decide +kernel)
  obtain ⟨m2, hm2, hiff⟩ :=
    ((address_commands_after_switching "T" (.literal "work" none) (m := commanding) rfl rfl).1 (by decide)).2 _ hswitch
  exact ⟨rfl, rfl, hswitch, hheld, hback, m2, m', hm2, hm', (hiff _).2 (.again hheld hback (.value hm'))⟩

theorem empty_name_drops_command :
    (((poised.start "address '' 'hello'" [] []).toOption.map fun m => (m.run 20).interp.said) = some #[]) ∧
    (((poised.start "address ''\n'hello'" [] []).toOption.map fun m => (m.run 20).interp.said) = some #[("hello" : Text)]) := by
  constructor <;> decide +kernel

end Engine

end Rexx
