import Rexx.Proofs.Deferral.Transparency
import Rexx.Proofs.Grammar.Equality
import Rexx.Proofs.Target.Ownership
import Rexx.Proofs.Trap.Discipline

/-!
# `Trap.Description` — what a trap finds out about its condition

When control comes to the label of a trap, `SIGL` and `ERRORTEXT` of its frame describe the condition, however many
frames were given up.
-/

namespace Rexx

open Interpreter Text Variables

/-! ## Reading back -/

namespace Variables

variable {v : Variables} {x y : Text}

theorem get?_set (v : Variables) (x value : Text) : (v.set x value).get? x = some value := by
  unfold set Store.varCell get?
  cases hx : v.pool.vars[x]? <;> simp [hx]

theorem get?_set_of_tidy (h : v.pool.Tidy v.store) (value : Text) (hne : y ≠ x) : (v.set y value).get? x = v.get? x := by
  refine get?_set_of_ne value hne (fun i hi => (h.vars.below hi).ne) fun i hx hy => ?_
  exact hne (h.vars.inj hy hx)

theorem get?_publish (h : v.pool.Tidy v.store) {r : Outcome} (hr : r.success = false) :
    (v.publish r).get? "RC" = some (ofInt (Engine.failureOf r).code) := by
  have h1 := (Grows.set v "RC" (ofInt (if r.status = 0 then 1 else r.status))).tidy h
  have h2 := (Grows.set _ "RESULT" r.output).tidy h1
  unfold publish
  simp only [hr, Bool.false_eq_true, if_false]
  rw [get?_set_of_tidy h2 _ (by decide), get?_set_of_tidy h1 _ (by decide), get?_set]
  rfl

theorem get?_describe (h : v.pool.Tidy v.store) (c : Condition) (line : Nat) :
    (describe v c line).get? "SIGL" = some (ofNat line) ∧
    (describe v c line).get? "ERRORTEXT" = some c.text ∧
    (describe v c line).get? "RC" =
      if c.event = .syntaxError then some (ofInt c.code) else v.get? "RC" := by
  have h1 := (Grows.set v "SIGL" (ofNat line)).tidy h
  have h2 := (Grows.set _ "ERRORTEXT" c.text).tidy h1
  unfold describe
  dsimp only
  by_cases hc : c.event = .syntaxError
  · simp only [if_pos hc]
    refine ⟨?_, ?_, get?_set _ _ _⟩
    · rw [get?_set_of_tidy h2 _ (by decide), get?_set_of_tidy h1 _ (by decide), get?_set]
    · rw [get?_set_of_tidy h2 _ (by decide), get?_set]
  · simp only [if_neg hc]
    refine ⟨?_, get?_set _ _ _, ?_⟩
    · rw [get?_set_of_tidy h1 _ (by decide), get?_set]
    · rw [get?_set_of_tidy h1 _ (by decide), get?_set_of_tidy h _ (by decide)]

end Variables

theorem Interpreter.raise_of_trap {σ : Type} {i : Interpreter σ} {c : Condition} {t : Event} {label : Text} {s : Stack}
    {k : Nat} (hc : c.trappable = true) (hs : i.stack.unwindTo c.event = some ((t, label), s))
    (hk : i.program.labels[label]? = some k) :
    (i.raise c).vars =
      describe ⟨i.store, s.top.pool⟩ { c with line := some (c.line.getD i.line) } (c.line.getD i.line) ∧
    (i.raise c).stack.callers = s.callers ∧
    (i.raise c).stack.top.cursors = [.at i.program.body (k + 1) none] := by
  have hk' : (i.sprung s t { c with line := some (c.line.getD i.line) } (c.line.getD i.line)).program.labels[label]? =
      some k := hk
  rw [i.raise_eq c rfl, if_pos hc, hs]
  dsimp only [Option.elim]
  unfold landed
  rw [hk']
  exact ⟨rfl, rfl, rfl⟩

/-! ## Conditions of clauses -/

namespace Machine

variable {σ : Type} {m m' : Machine σ} {e : Condition}

def Told (m : Machine σ) (r : Outcome) : Prop :=
  r.success = false → m.interp.vars.get? "RC" = some (Text.ofInt (Engine.failureOf r).code)

theorem told_settle (hm : m.interp.memory.Tidy) (site : Site) (r : Outcome) : (m.settle site r).Told r.settled := by
  intro hr
  rw [settle_eq]
  exact get?_publish (hm.pool (List.mem_cons_self ..)) hr

theorem publishes_told : Publishes (Told (σ := σ)) where
  congr hvars h hr := by
    rw [hvars]
    exact h hr
  settle site r hm := told_settle hm.tidy site r

/-- An answer is told: of the replies that are then kept, only the new one is yet to be used. -/
theorem closed_of_answered {r : Response} (hm : m.Reached) (hclosed : m.top.Closed (fun _ => False) ∅)
    (ha : m.answer? r = some m') : m'.top.Closed m'.Told ∅ := by
  obtain ⟨⟨site, r', hmem⟩, _⟩ := answered_settle hm.tidy.2 ha
  have htop : m'.top = (m.settle site r').top := congrArg (·.2.top) hmem
  have hvars : m'.interp.vars = (m.settle site r').interp.vars := 
    congrArg (fun a => (⟨a.1, a.2.top.pool⟩ : Variables)) hmem
  have htold : m'.Told r'.settled := publishes_told.congr hvars (told_settle hm.tidy.1 site r')
  rw [htop, settle_eq]
  intro k q hk
  replace hk : ((site, r'.settled) :: m.top.replies).lookup k = some q := hk
  rw [List.lookup_cons] at hk
  split at hk
  · cases hk
    exact .inr (.inr htold)
  · exact (hclosed k q hk).imp_right fun h => .inl (h.resolve_right id)

theorem failed_of_causes {F : Machine σ → Outcome → Prop} (h : m.Causes F e) (hhost : ¬ m.Throws e)
    (hevent : e.event = .error ∨ e.event = .failure) : ∃ r, r.success = false ∧ e = Engine.failureOf r ∧ F m r := by
  cases h with
  | fault hs =>
    have hs' : (Fault.condition _).event = .syntaxError := hs
    rw [hs'] at hevent
    simp at hevent
  | unset name => rcases hevent with h | h <;> cases h
  | uninitialized name => rcases hevent with h | h <;> cases h
  | failed hr _ hknown => exact ⟨_, hr, rfl, hknown⟩
  | thrown ht => exact absurd ht hhost

theorem line_of_causes {F : Machine σ → Outcome → Prop} (h : m.Causes F e) (hhost : ¬ m.Throws e) : e.line = none := by
  cases h with
  | thrown ht => exact absurd ht hhost
  | _ => rfl

theorem rc_of_replies {c : Cursor} {s : Stmt} (hm : m.Reached) (hosts : m.Hosts Variables.Grows) (hs : m.AboutTo c s)
    (hstep : Engine.step m = .error (.raised e) m') (hhost : ¬ m'.Throws e)
    (hevent : e.event = .error ∨ e.event = .failure)
    (hreplies : m.top.Closed (fun _ => False) ∅ ∨
      m.top.Closed m.Told ∅ ∧ m'.interp.vars.get? "RC" = m.interp.vars.get? "RC") :
    m'.interp.vars.get? "RC" = some (ofInt e.code) := by
  obtain hclosed | ⟨hclosed, hsame⟩ := hreplies
  · obtain ⟨hcause, _⟩ := Engine.step_explains_of_aboutTo
      (.published publishes_told (fun _ _ h => h.elim) ⟨hosts, hm.tidy.1⟩ hclosed) hs hstep
    obtain ⟨r, hr, rfl, htold⟩ := failed_of_causes hcause hhost hevent
    exact htold hr
  · -- What is told as the pass begins need not be told again.
    have hknown : Publishes fun (u : Machine σ) r => u.Told r ∨ m.Told r :=
      ⟨fun hvars h => h.imp_left (publishes_told.congr hvars), fun site r hu => .inl (publishes_told.settle site r hu)⟩
    obtain ⟨hcause, _⟩ := Engine.step_explains_of_aboutTo
      (.published hknown (fun _ _ h => .inr h) ⟨hosts, hm.tidy.1⟩ hclosed) hs hstep
    obtain ⟨r, hr, rfl, htold | htold⟩ := failed_of_causes hcause hhost hevent
    · exact htold hr
    · exact hsame.trans (htold hr)

/-- **A trap that has fired describes its condition.** Let a statement raise a condition, which code of the host does not
throw, and let the nearest frame with a trap for it have the stack `st`.

For ERROR and FAILURE the trap leaves `RC` as it is. In the frame that has sent the command or called the method it is the
code of the outcome: if this came up in the pass that raises; if it was kept from an answer, which has told it, and the pass
has left `RC` alone since; and if the host, in place of answering at once, lets the statement wait as often as it will. -/
theorem trap_describes {c : Cursor} {s : Stmt} {t : Event} {label : Text} {st : Stack} {k : Nat} (hm : m.Reached)
    (hosts : m.Hosts Variables.Grows) (hgo : m.interp.halted = false) (hs : m.AboutTo c s)
    (hstep : Engine.step m = .error (.raised e) m') (hhost : ¬ m'.Throws e)
    (hevent : e.event = .syntaxError ∨ e.event = .error ∨ e.event = .failure) (htrappable : e.trappable = true)
    (htrap : m'.stack.unwindTo e.event = some ((t, label), st))
    (hlabel : m'.interp.program.labels[label]? = some k) :
    m.tick.stack.callers = st.callers ∧
    m.tick.top.cursors = [.at m'.interp.program.body (k + 1) none] ∧
    m.tick.interp.vars.get? "SIGL" = some (Text.ofNat (m.interp.lineOf c s)) ∧
    m.tick.interp.vars.get? "ERRORTEXT" = some e.text ∧
    (e.event = .syntaxError → m.tick.interp.vars.get? "RC" = some (Text.ofInt e.code)) ∧
    (e.event ≠ .syntaxError →
      m.tick.interp.vars.get? "RC" = (⟨m'.interp.store, st.top.pool⟩ : Variables).get? "RC" ∧
      m'.stack.depth = m.stack.depth ∧
      (m.top.Closed (fun _ => False) ∅ ∨
          m.top.Closed m.Told ∅ ∧ m'.interp.vars.get? "RC" = m.interp.vars.get? "RC" →
        m'.interp.vars.get? "RC" = some (Text.ofInt e.code) ∧
        (st.top.pool.var? "RC" = m'.top.pool.var? "RC" →
          m.tick.interp.vars.get? "RC" = some (Text.ofInt e.code)))) ∧
    (∀ (w : Machine σ) r, w.Reached → w.top.Closed (fun _ => False) ∅ → w.answer? r = some m →
      m.top.Closed m.Told ∅) ∧
    (∀ (m0 : Machine σ) answer, m = m0.atOnce answer → s.Repeatable → m.interp.Outward (m.interp.callsOf s) → m.Running →
      m.channel.outstanding < 2 ^ 32 - 1 → m.tick.interp.halted = false →
      ∃ w : Machine σ, (∀ w', m0.Deferred answer w' ↔ w' = w) ∧ w.interp = m.tick.interp) := by
  have htick : m.tick.interp = m'.interp.raise e := tick_of_raised? (by simp [raised?, hgo, hstep])
  have htidy : m'.interp.memory.Tidy := ((step_shifts hosts).raised hstep).moves.tidy hm.tidy.1
  obtain ⟨hcause, hline, _, hdepth⟩ :=
    Engine.step_explains_of_aboutTo (F := fun _ _ => True) (.always fun _ _ => trivial) hs hstep
  have hlineOf : e.line.getD m'.interp.line = m.interp.lineOf c s := by
    rw [line_of_causes hcause hhost]
    exact hline
  -- The frame with the trap is one of those that there were, so its names have cells of their own.
  have hpool : st.top.pool.Tidy m'.interp.store := by
    obtain ⟨above, hframes, _⟩ := (Stack.unwindTo_unwinds htrap).frames
    refine htidy.pool (f := st.top) ?_
    show st.top ∈ m'.stack.frames
    rw [hframes]
    exact List.mem_append_right above (List.mem_cons_self ..)
  obtain ⟨hvars, hcallers, hcursors⟩ := Interpreter.raise_of_trap htrappable htrap hlabel
  rw [hlineOf] at hvars
  obtain ⟨hsigl, htext, hrc⟩ := Variables.get?_describe (v := ⟨m'.interp.store, st.top.pool⟩) hpool
    { e with line := some (m.interp.lineOf c s) } (m.interp.lineOf c s)
  refine ⟨by rwa [Machine.stack, htick], by rwa [Machine.top, htick], ?_, ?_, fun hsyntax => ?_, fun hfailure => ?_,
    fun w r hw hclosed ha => closed_of_answered hw hclosed ha, fun m0 answer hm0 hrepeatable hout hrun hroom hduring => ?_⟩
  · rw [htick, hvars, hsigl]
  · rw [htick, hvars, htext]
  · rw [htick, hvars, hrc]
    exact if_pos hsyntax
  · have hown : m.tick.interp.vars.get? "RC" = (⟨m'.interp.store, st.top.pool⟩ : Variables).get? "RC" := by
      rw [htick, hvars, hrc]
      exact if_neg hfailure
    refine ⟨hown, hdepth.resolve_right ?_, fun hreplies => ?_⟩
    · rintro rfl
      exact hfailure rfl
    · have hcode := rc_of_replies hm hosts hs hstep hhost (hevent.resolve_left hfailure) hreplies
      refine ⟨hcode, fun hshared => ?_⟩
      rw [hown, ← hcode]
      exact congrArg (fun i => i.bind fun i => m'.interp.store.vars[i]?) hshared
  · subst hm0
    have hs0 : m0.AboutTo c s := ⟨hs.cursor, hs.phase, hs.stmt⟩
    obtain ⟨w, hdeferred, hpart⟩ := deferred_counterpart hs0 hrepeatable hout hrun hroom hgo hduring
    exact ⟨w, fun w' => ⟨fun hw => hw.unique hdeferred, fun hw => hw ▸ hdeferred⟩, hpart.interp⟩

/-- A command that the host cancels, with a trap for that. -/
def cancelling : Machine Unit :=
  let work := .clause ⟨2, 1⟩ (.address (some "T") none none (some (.literal "work" none)))
  let body := [.clause ⟨1, 1⟩ (.signalOn .failure "FAILURE"), work, .clause ⟨3, 1⟩ (.label "FAILURE")]
  { idle.begin (.ofBody [] [] body) [] with targets := Registry.withDeferring }

def cancels (_ : Text) (_ : Params) (_ : Unit) : Outcome := (Response.cancelled 1 "stop").outcome

theorem cancelling_clause : ((cancelling.tick.top.cursors.head?.bind fun c => c.block[c.pc]?.map fun s =>
      (c.loop.isNone, s, cancelling.tick.interp.lineOf c s)) =
        some (true, .clause ⟨2, 1⟩ (.address (some "T") none none (some (.literal "work" none))), 2)) ∧
    cancelling.tick.top.replies.isEmpty = true ∧ cancelling.tick.Running ∧
    cancelling.tick.interp.halted = false ∧ (cancelling.tick.atOnce cancels).tick.interp.halted = false ∧
    cancelling.tick.channel.outstanding < 2 ^ 32 - 1 ∧
    ((cancelling.tick.atOnce cancels).raised?.bind fun q => (q.1.stack.unwindTo q.2.event).bind fun p =>
      q.1.program.labels[p.1.2]?.map fun _ => (q.2.event, q.2.trappable, q.2.code, q.1.functions.isEmpty,
        q.1.operations.isEmpty, decide (p.2.top.pool.var? "RC" = q.1.stack.top.pool.var? "RC"))) =
      some (.failure, true, -1, true, true, true) := by
  unfold Running
  decide +kernel

theorem Hosts.atOnce {H : Policy} (hm : m.Hosts H) (answer : Text → Params → σ → Outcome) : (m.atOnce answer).Hosts H := by
  refine ⟨⟨hm.provisions.functions, hm.provisions.operations, fun name b hb cmd params ctx view => ?_⟩, hm.loader⟩
  simp only [Machine.atOnce, Registry.atOnce, Std.TreeMap.getElem?_map, Option.map_eq_some_iff] at hb
  obtain ⟨b, hb, rfl⟩ := hb
  have hkeeps := hm.provisions.targets name b hb cmd params ctx view
  have happly : (b.atOnce answer).target.handle cmd params ctx view = _ := Target.handle_atOnce answer _ cmd params ctx view
  rw [happly]
  cases hr : b.target.handle cmd params ctx view <;> rw [hr] at hkeeps <;> exact hkeeps

theorem cancelling_sound : (cancelling.tick.atOnce cancels).Reached ∧ (cancelling.tick.atOnce cancels).Hosts Grows := by
  have hosts : cancelling.Hosts Grows := by
    refine ⟨⟨(idle_hosts _).provisions.functions, (idle_hosts _).provisions.operations, ?_⟩, (idle_hosts _).loader⟩
    intro name b hb cmd params ctx
    obtain rfl : b = ⟨Registry.deferring, "given", "host"⟩ := by
      replace hb : Registry.withDeferring[name]? = some b := hb
      rw [Registry.withDeferring, Std.TreeMap.getElem?_insert] at hb
      split at hb
      · exact (Option.some.inj hb).symm
      · simp at hb
    exact fun view => .refl _
  have hreached : cancelling.tick.Reached :=
    .tick rfl hosts (.provided (m := idle.begin cancelling.interp.program []) rfl (fun _ h => h) (.begin _ _ (.fresh rfl)))
  obtain ⟨-, -, hrun, -⟩ := cancelling_clause
  refine ⟨.provided (m := cancelling.tick) rfl (fun _ h => h) hreached, ?_⟩
  exact ((tick_shifts hosts (by rw [hrun]; exact nofun)).hosts).atOnce cancels

theorem trap_describes_cancelling :
    ∃ w, cancelling.tick.Deferred cancels w ∧ w.interp.vars.get? "SIGL" = some ("2" : Text) ∧
      w.interp.vars.get? "RC" = some ("-1" : Text) := by
  obtain ⟨hclause, hreplies, hrun, hgo, hduring, hroom, hfires⟩ := cancelling_clause
  obtain ⟨c, hc, h⟩ := Option.bind_eq_some_iff.1 hclause
  obtain ⟨s, hs, hfacts⟩ := Option.map_eq_some_iff.1 h
  simp only [Prod.mk.injEq, Option.isNone_iff_eq_none] at hfacts
  obtain ⟨hloop, rfl, hline⟩ := hfacts
  have habout : (cancelling.tick.atOnce cancels).AboutTo c _ := ⟨hc, fun l hl => (by rw [hloop] at hl; cases hl), hs⟩
  obtain ⟨⟨i, e⟩, hq, h⟩ := Option.bind_eq_some_iff.1 hfires
  obtain ⟨⟨⟨t, label⟩, st⟩, hu, h⟩ := Option.bind_eq_some_iff.1 h
  obtain ⟨k, hk, hfacts⟩ := Option.map_eq_some_iff.1 h
  simp only [Prod.mk.injEq, decide_eq_true_eq] at hfacts
  obtain ⟨hevent, htrappable, hcode, hfunctions, hoperations, hshared⟩ := hfacts
  obtain ⟨m', hstep, rfl⟩ := step_of_raised? (m := cancelling.tick.atOnce cancels) hgo hq
  have hhost : ¬ m'.Throws e := by
    rintro (⟨hf, _⟩ | ⟨hf, _⟩)
    · rw [Std.TreeMap.getElem?_of_isEmpty hfunctions] at hf
      cases hf
    · rw [Std.TreeMap.getElem?_of_isEmpty hoperations] at hf
      cases hf
  obtain ⟨-, -, hsigl, -, -, hrc, -, hdeferred⟩ := trap_describes cancelling_sound.1 cancelling_sound.2 hgo habout hstep hhost
    (.inr (.inr hevent)) htrappable hu hk
  obtain ⟨w, hw, hinterp⟩ := hdeferred _ _ rfl (.address ..) (fun _ h => (by cases h)) hrun hroom hduring
  obtain ⟨_, _, hcause⟩ := hrc (by rw [hevent]; exact nofun)
  have hclosed := Frame.Closed.of_nil (G := fun _ => False) (K := ∅) (List.isEmpty_iff.1 hreplies)
  refine ⟨w, (hw w).2 rfl, ?_, ?_⟩
  · rw [hinterp, hsigl]
    exact congrArg (fun n => some (Text.ofNat n)) hline
  · rw [hinterp, (hcause (.inl hclosed)).2 hshared, hcode]
    decide

def entrusting : Machine Unit :=
  let m := idle.start "signal on error\naddress t\ncall f\nexit\nf:\n'work'\nreturn\nerror:" [] []
  { m.toOption.getD idle with targets := (∅ : Registry Unit).insert "T" ⟨failing, [], []⟩ }

theorem return_code_not_passed_on :
    ((entrusting.run 3).raised?.map fun q => (q.2.event, q.2.code, q.1.vars.get? "RC")) =
      some (.error, 3, some ("3" : Text)) ∧
    (entrusting.run 3).stack.depth = 2 ∧ (entrusting.run 3).tick.stack.depth = 1 ∧
    (entrusting.run 3).tick.interp.status = .running ∧
    (entrusting.run 3).tick.interp.vars.get? "SIGL" = some ("6" : Text) ∧
    (entrusting.run 3).tick.interp.vars.get? "ERRORTEXT" = some ("no" : Text) ∧
    (entrusting.run 3).tick.interp.vars.get? "RC" = none := by
  decide +kernel

end Machine

end Rexx
