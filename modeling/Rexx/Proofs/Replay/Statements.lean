import Rexx.Proofs.Replay.Rounds
import Rexx.Proofs.Replay.Switching

/-!
# `Replay.Statements` — every statement, in passes and in place

What each statement does if its operands are evaluated in place (`stmtInPlace`), and that the passes of the statement come
to the same. A statement is a sequence of operands and then a deed. An operand that has a value keeps it in later passes
(`Operand`), so the passes go over to the rest of the sequence (`Agrees.bind`); each statement is put together from that.
-/

namespace Rexx

open Machine

namespace Engine

variable {σ α β : Type} {S : Set Site} {m m1 u : Machine σ} {d i : Nat} {ρ : Machine σ → Machine σ → Prop}

/-! ## Statements in place -/

/-- What a command does when its text is known. -/
def command (cmd : Text) : Engine σ Unit := do carryOut (commandee? (← get)) cmd

/-- The way back, where a line is reported again. -/
def Echoing (line : Text) (ρ : Machine σ → Machine σ → Prop) (m u : Machine σ) : Prop :=
  ∃ w, ρ m w ∧ report line w = .ok () u

section InPlace

variable (ρ : Machine σ → Machine σ → Prop)

def checkedInPlace (i : Nat) (check : Text → Except Fault α) (x : Expr) : Machine σ → Result σ α → Prop :=
  Sequel (evalInPlace ρ [i] x) fun v => Once (orFail (check v))

def ifAnyInPlace (A : Expr → Machine σ → Result σ α → Prop) : Option Expr → Machine σ → Result σ (Option α) → Prop
  | some x => Sequel (A x) fun v => Once (pure (some v))
  | none => Once (pure none)

def argumentsInPlace (xs : List Expr) (deed : Args → Engine σ Unit) : Machine σ → Result σ Unit → Prop :=
  Sequel (argsInPlace ρ [] 0 xs) fun a => Replays ρ (orNoted [] (fun _ => advance) (deed a))

end InPlace

/-! ## Operands and deeds -/

/-- The sites of the operands from the `i`-th on, and the site of the clause itself. -/
def ahead (i : Nat) : Set Site := {k | ∀ j < i, k ∉ Site.tree [j]}

/-- What is left of a statement, from its `i`-th operand on, comes to the same in passes and in place. -/
structure Agrees (d : Nat) (ρ : Machine σ → Machine σ → Prop) (i : Nat) (c : Engine σ Unit)
    (F : Machine σ → Result σ Unit → Prop) : Prop where
  resumable : Resumable (Evaluating d) ρ c
  iff : ∀ {m}, m.Evaluating d → Unnoted (ahead i) m → ∀ r, Replays ρ c m r ↔ F m r

/-- A preparation, which stands once it has been made. -/
structure Standing (a : Engine σ Unit) : Prop where
  immediate : Immediate a
  again : ∀ {m u}, a m = .ok () u → a u = .ok () u ∧ ∃ targets target, u = m.retarget targets target
  suspended : ∀ {S m m1}, a m = .ok () m → m.Suspends (Evolves S) S m1 → a m1 = .ok () m1

/-- The preparation stands at each return. -/
def Upheld (d : Nat) (ρ : Machine σ → Machine σ → Prop) (a : Engine σ Unit) : Prop :=
  ∀ {u m1 u'}, u.Evaluating d → a u = .ok () u → u.Suspends (Evolves Set.univ) Set.univ m1 → ρ m1 u' → a u' = .ok () u'

section

variable {a : Engine σ α} {A : Machine σ → Result σ α → Prop} {c : Engine σ Unit} {F : Machine σ → Result σ Unit → Prop}

theorem Agrees.once (hc : Immediate c) : Agrees d ρ i c (Once c) := ⟨.of_immediate hc, fun _ _ => replays_iff_once hc⟩

theorem Agrees.known {v : α} {f : α → Engine σ Unit} {F : α → Machine σ → Result σ Unit → Prop}
    (h : Agrees d ρ i (f v) (F v)) : Agrees d ρ i (pure v >>= f) (Sequel (Once (pure v)) F) := by
  rw [pure_bind]
  exact ⟨h.resumable, fun hP hm r => (h.iff hP hm r).trans (sequel_once_of_ok rfl).symm⟩

theorem Agrees.onward (hc : Immediate c) : Agrees d ρ i (advance >>= fun _ => c) (Once (advance >>= fun _ => c)) :=
  .once (.bind (.modifyTop _) fun _ => hc)

variable (hρ : Faithful (Evaluating d) ρ)
include hρ

namespace Operand

theorem checked (i : Nat) (g : Text → Except Fault α) (x : Expr) :
    Operand (Evaluating d) ρ (Site.tree [i]) (Engine.eval [i] x >>= fun v => orFail (g v)) (checkedInPlace ρ i g x) :=
  (eval hρ [i] x).next hρ fun v => operator fun _ => g v

theorem ifAny {f : Expr → Engine σ α} {A : Expr → Machine σ → Result σ α → Prop}
    (h : ∀ x, Operand (Evaluating d) ρ S (f x) (A x)) (x : Option Expr) :
    Operand (Evaluating d) ρ S (evalIfAny f x) (ifAnyInPlace A x) := by
  cases x with
  | none => exact .pure none
  | some x =>
    show Operand _ ρ S (some <$> f x) _
    rw [map_eq_pure_bind]
    exact (h x).next hρ fun v => .pure (some v)

end Operand

namespace Agrees

theorem defers (hc : ∀ m, Defers c m) : Agrees d ρ i c (Replays ρ c) := ⟨.of_defers hρ hc, fun _ _ _ => .rfl⟩

theorem bind {f : α → Engine σ Unit} {F : α → Machine σ → Result σ Unit → Prop} (ha : Operand (Evaluating d) ρ (Site.tree [i]) a A)
    (hf : ∀ v, Agrees d ρ (i + 1) (f v) (F v)) : Agrees d ρ i (a >>= f) (Sequel A F) := by
  refine ⟨.seq (.of_evaluates hρ ha.evaluates) (fun hu h => ?_) fun v => (hf v).resumable, fun {m} hP hm r => ?_⟩
  · have hlater := ((ha.evaluates _).ok h).later
    exact ⟨hlater.recalls, hρ.keeps hu hlater⟩
  · rw [Replays.bind_iff hρ ha.settles (fun v => (hf v).resumable) hP]
    refine Sequel.congr (ha.iff hP (hm.mono fun k hk j hj => Site.not_mem_tree_of_ne (by omega) hk)) (fun v m1 h1 r => ?_) r
    have hlater := h1.later_of_ok hρ ha.evaluates hP
    refine (hf v).iff (hρ.keeps hP hlater) (Unnoted.later (hm.mono ?_) hlater fun k hk => hk i (by omega)) r
    exact fun k hk j hj => hk j (by omega)

theorem report {line : Text} (hc : ∀ m, Defers c m) (h : Agrees d (Echoing line ρ) i c F) :
    Agrees d ρ i (Engine.report line >>= fun _ => c) (Sequel (Once (Engine.report line)) fun _ => F) := by
  refine ⟨.seq (.of_immediate (.modifyInterp _)) (fun hu h => ?_) fun _ => .of_defers hρ hc, fun {m} hP hm r => ?_⟩
  · cases h
    exact ⟨⟨fun _ _ h => h, fun _ _ h => h, rfl⟩, hu⟩
  · let u : Machine σ := m.modifyInterp fun i => { i with diagnostics := i.diagnostics.push (Text.untilNul line) }
    have hu : Engine.report line m = .ok () u := rfl
    refine (Replays.bind_again_iff (a := Engine.report line) (fun m => ⟨_, rfl⟩) hu).trans (Iff.trans ?_ (sequel_once_of_ok hu).symm)
    exact h.iff (m := u) hP hm r

theorem arguments (xs : List Expr) (deed : Args → Engine σ Unit)
    (hdeed : ∀ a m, m.top.memo.lookup [] = none → Defers (deed a) m) :
    Agrees d ρ 0 (orNoted [] (fun _ => advance) (evalArgs [] 0 xs >>= deed)) (argumentsInPlace ρ xs deed) := by
  have hargs := (Operand.arguments hρ [] 0 xs).mono (partsFrom_subset [] 0)
  have hresumes : ∀ a, Resumable (Evaluating d) ρ (orNoted [] (fun _ => advance) (deed a)) := fun a =>
    .of_defers hρ fun m => .orNoted (fun _ => .modifyTop _) (hdeed a m)
  refine ⟨.of_defers hρ fun m => .orNoted (fun _ => .modifyTop _) fun hn => .bind (hargs.evaluates m) ?_, fun hP hm r => ?_⟩
  · exact fun a m1 h1 => hdeed a m1 ((((hargs.evaluates m).ok h1).top.memo_eq (Site.self_not_mem_inner [])).trans hn)
  · have hm : Unnoted Set.univ _ := hm.mono fun k _ j hj => absurd hj (by omega)
    rw [Replays.orNoted_bind_iff hρ hargs.settles hargs.evaluates hresumes hP (hm [] trivial)]
    exact Sequel.congr (hargs.iff hP (hm.mono (Set.subset_univ _))) (fun _ _ _ _ => .rfl) r

end Agrees

end

/-! ## Every statement -/

/-- What a statement makes sure of before it evaluates its last operand, and what may be undone in the meantime: that
INTERPRET is allowed, and that a target is switched to with a token or under another name. A switch by name alone lasts. -/
inductive Relies : Stmt → Engine σ Unit → Prop where
  | interpret (pos : Position) (x : Expr) : Relies (.clause pos (.interpret x)) permit
  | address (pos : Position) (name : Option Text) (auth : Option Expr) (asName : Option Text) (cmd : Expr) (token : Text)
      (h : asName.getD [] ≠ [] ∨ token ≠ []) :
      Relies (.clause pos (.address name auth asName (some cmd))) (switchTo (name.getD []) (asName.getD []) token)

/-- **The way back to a statement**, with the settings for numbers as they were, and with what the statement has made sure
of still so. -/
def Machine.Steady (d : Nat) (s : Stmt) (m u : Machine σ) : Prop :=
  m.Keeping d u ∧ ∀ a, Relies s a → a m = .ok () m → a u = .ok () u

theorem Standing.upheld {s : Stmt} {a : Engine σ Unit} (h : Standing a) (ha : Relies s a) :
    Upheld d (Machine.Steady d s) a :=
  fun _ hstands hs hr => hr.2 a ha (h.suspended hstands hs)

section

variable (hρ : Faithful (Evaluating d) ρ)
include hρ

end

/-- What a loop with UNTIL does with the value of its condition. -/
def renew (l : LoopState) (v : Text) : Engine σ Unit := do
  if ← orFail (truth v) then leaveBlock
  else
    reachRound l
    testLoop l.next

end Engine

end Rexx
