import Rexx.Proofs.Place.Soundness

/-!
# `Machine.Ban` — NO-INTERPRET

A program that has executed NO-INTERPRET interprets nothing from then on.
-/

namespace Rexx.Machine

open Fault

variable {σ : Type} {m m' m'' u : Machine σ} {c : Cursor} {pos : Position} {x : Expr}

def KeepsBan (m u : Machine σ) : Prop :=
  m.interp.interpretBlocked = true →
    u.interp.interpretBlocked = true ∧ u.interp.fragments = m.interp.fragments ∧
      u.interp.nextFragment = m.interp.nextFragment

theorem KeepsBan.refl (m : Machine σ) : m.KeepsBan m := fun h => ⟨h, rfl, rfl⟩

theorem KeepsBan.trans (h : m.KeepsBan m') (h' : m'.KeepsBan m'') : m.KeepsBan m'' := fun hm =>
  have ⟨hb, hf, hn⟩ := h hm
  have ⟨hb', hf', hn'⟩ := h' hb
  ⟨hb', hf'.trans hf, hn'.trans hn⟩

theorem Turns.keepsBan (h : m.Turns m') : m.KeepsBan m' := by
  intro hm
  rw [h]
  exact ⟨hm, rfl, rfl⟩

theorem Act.keepsBan {k : Option Clause} (h : m.Act k m') : m.KeepsBan m' := by
  intro hm
  cases h with
  | evaluates h =>
    rw [h.interp]
    exact ⟨hm, rfl, rfl⟩
  | interprets _ allowed _ _ =>
    rw [hm] at allowed
    cases allowed
  | forbids _ => exact ⟨rfl, rfl, rfl⟩
  | _ => exact ⟨hm, rfl, rfl⟩

theorem Onward.keepsBan (h : m.Onward u) : m.KeepsBan u := by
  cases h with
  | tick _ hu =>
    rw [hu]
    exact tick_keeps .trans Turns.keepsBan fun _ => Act.keepsBan
  | answered ha => exact (answer?_turns ha).keepsBan
  | attended h => exact fun hm => ⟨h.interpretBlocked.trans hm, h.fragments, h.nextFragment⟩

theorem KeepsBan.of_run (h : Relation.ReflTransGen Onward m u) : m.KeepsBan u := by
  induction h with
  | refl => exact .refl m
  | tail _ h ih => exact ih.trans h.keepsBan

theorem tick_of_noInterpret (hhalted : m.interp.halted = false) (h : m.AboutTo c (.clause pos .noInterpret)) :
    m.tick.interp.interpretBlocked = true ∧ m.tick.interp.fragments = m.interp.fragments ∧
      m.tick.interp.nextFragment = m.interp.nextFragment := by
  have hstep : Engine.step m = .ok () ((m.modifyInterp fun i =>
      { i.announced c (.clause pos .noInterpret) with interpretBlocked := true }).modifyInterp fun i =>
        i.modifyTop Frame.advance) := by
    rw [Engine.step_of_aboutTo h]
    rfl
  unfold tick
  rw [hhalted, hstep]
  have hturns := completeStep_turns ((m.modifyInterp fun i =>
      { i.announced c (.clause pos .noInterpret) with interpretBlocked := true }).modifyInterp fun i =>
        i.modifyTop Frame.advance) m.stack.depth
  exact hturns.keepsBan rfl

theorem tick_of_forbidden (hblocked : m.interp.interpretBlocked = true) (hhalted : m.interp.halted = false)
    (h : m.AboutTo c (.clause pos (.interpret x))) :
    m.tick = m.modifyInterp fun i => (i.announced c (.clause pos (.interpret x))).fatal
      { interpretBlocked.condition with line := some (i.lineOf c (.clause pos (.interpret x))) } := by
  have hstep : Engine.step m = .error (.raised interpretBlocked.condition)
      (m.announced c (.clause pos (.interpret x))) := by
    rw [Engine.step_of_aboutTo h]
    exact bind_of_error ((Engine.permit_apply _).trans (if_pos hblocked))
  unfold tick
  rw [hhalted, hstep]
  rfl

theorem reportOf_interpretBlocked (i : Interpreter σ) (line : Nat) :
    i.reportOf { interpretBlocked.condition with line := some line } line =
      "SYNTAX 35 running ".toList ++ i.program.title ++ ", line ".toList ++ Text.ofNat line ++ ": ".toList ++
        "INTERPRET is blocked by NO-INTERPRET".toList := by
  have hhead : interpretBlocked.condition.event.name ++ " " ++ Text.ofInt interpretBlocked.condition.code ++
      " running " = "SYNTAX 35 running ".toList := by decide +kernel
  have htext : interpretBlocked.condition.text = "INTERPRET is blocked by NO-INTERPRET".toList := by decide +kernel
  unfold Interpreter.reportOf
  rw [hhead, htext]

/-- **NO-INTERPRET is final.** Once a NO-INTERPRET clause has been executed, in whatever frame, and as long as no other
program is begun, the ban stays and there are the fragments that there were; the first INTERPRET clause that is reached
ends the script with exit code 35, whatever traps are set, and evaluates nothing. -/
theorem noInterpret_final (hhalted : m.interp.halted = false) (h : m.AboutTo c (.clause pos .noInterpret))
    (hrun : Relation.ReflTransGen Onward m.tick u) :
    u.interp.interpretBlocked = true ∧ u.interp.fragments = m.interp.fragments ∧
    u.interp.nextFragment = m.interp.nextFragment ∧
    ∀ c pos x, u.interp.halted = false → u.AboutTo c (.clause pos (.interpret x)) →
      u.tick = (u.modifyInterp fun i => (i.announced c (.clause pos (.interpret x))).fatal
        { Fault.interpretBlocked.condition with line := some (i.lineOf c (.clause pos (.interpret x))) }) ∧
      u.tick.interp.status = .stopped ∧ u.tick.interp.exitCode = 35 ∧
      u.tick.interp.error = "SYNTAX 35 running ".toList ++ u.interp.program.title ++ ", line ".toList ++
        Text.ofNat (u.interp.lineOf c (.clause pos (.interpret x))) ++ ": ".toList ++
        "INTERPRET is blocked by NO-INTERPRET".toList := by
  obtain ⟨hb, hf, hn⟩ := tick_of_noInterpret hhalted h
  obtain ⟨hb', hf', hn'⟩ := KeepsBan.of_run hrun hb
  refine ⟨hb', hf'.trans hf, hn'.trans hn, fun c pos x hh hu => ?_⟩
  have htick := tick_of_forbidden hb' hh hu
  refine ⟨htick, ?_⟩
  rw [htick]
  exact ⟨rfl, rfl, reportOf_interpretBlocked _ _⟩

def banningBody : List Stmt :=
  [.clause ⟨1, 1⟩ (.interpret (.call "F" false [])), .clause ⟨2, 1⟩ (.label "F"), .clause ⟨3, 1⟩ .noInterpret,
    .clause ⟨4, 1⟩ (.ret (some (.literal "7" none)))]

def banning : Machine Unit :=
  let caller : Frame := { Frame.fresh with traps := [(.syntaxError, "F")], cursors := [.at banningBody 0 none] }
  idle.modifyInterp fun i =>
    { i with
      status := .running
      program := .ofBody [] [] banningBody
      stack := ⟨{ Frame.fresh with cursors := [.at banningBody 2 none] }, [⟨caller, [0], true⟩]⟩ }

theorem noInterpret_final_banning :
    banning.interp.halted = false ∧ banning.AboutTo (.at banningBody 2 none) (.clause ⟨3, 1⟩ .noInterpret) ∧
    banning.tick.tick.AboutTo (.at banningBody 0 none) (.clause ⟨1, 1⟩ (.interpret (.call "F" false []))) ∧
    banning.tick.tick.top.memo = [([0], "7".toList)] ∧
    banning.tick.tick.stack.traps .syntaxError = true ∧ banning.tick.tick.interp.fragments = [] ∧
    banning.tick.tick.tick.interp.status = .stopped ∧ banning.tick.tick.tick.interp.exitCode = 35 := by
  have hforbids : banning.AboutTo (.at banningBody 2 none) (.clause ⟨3, 1⟩ .noInterpret) := ⟨rfl, nofun, rfl⟩
  have hinterprets : banning.tick.tick.AboutTo (.at banningBody 0 none)
      (.clause ⟨1, 1⟩ (.interpret (.call "F" false []))) := ⟨rfl, nofun, rfl⟩
  have hrun : Relation.ReflTransGen Onward banning.tick banning.tick.tick := .single (.tick rfl rfl)
  obtain ⟨_, hfragments, _, hnext⟩ := noInterpret_final rfl hforbids hrun
  obtain ⟨_, hstatus, hcode, _⟩ := hnext _ _ _ rfl hinterprets
  exact ⟨rfl, hforbids, hinterprets, rfl, rfl, hfragments, hstatus, hcode⟩

end Rexx.Machine
