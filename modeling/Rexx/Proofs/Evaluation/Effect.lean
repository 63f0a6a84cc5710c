import Rexx.Proofs.Engine.Outcome
import Rexx.Proofs.Host.Policy

/-!
# `Evaluation.Effect` — what evaluation may change

Evaluating an expression reads variables, calls code of the host and sends methods to targets; `Machine.Evolves` says
what that may change.
-/

namespace Rexx

open List Stack

/-! ## Regions of a clause -/

def Site.tree (site : Site) : Set Site := {k | site <:+ k}

def Site.inner (site : Site) : Set Site := {k | ∃ i, (i :: site) <:+ k}

theorem Site.self_mem_tree (site : Site) : site ∈ site.tree := suffix_rfl

theorem Site.tree_child_subset (i : Nat) (site : Site) : Site.tree (i :: site) ⊆ site.inner := fun _ h => ⟨i, h⟩

theorem Site.inner_subset_tree (site : Site) : site.inner ⊆ site.tree :=
  fun _ ⟨i, h⟩ => (suffix_cons i site).trans h

theorem Site.self_not_mem_inner (site : Site) : site ∉ site.inner :=
  fun ⟨_, h⟩ => absurd h.length_le (by simp)

theorem Site.not_mem_tree_of_ne {i j : Nat} {site k : Site} (hij : i ≠ j) (hk : k ∈ Site.tree (j :: site)) :
    k ∉ Site.tree (i :: site) := by
  intro hi
  have heq : i :: site = j :: site := (suffix_of_suffix_length_le hi hk (by simp)).eq_of_length (by simp)
  exact hij (cons.inj heq).1

/-! ## Frames -/

def Caller.SameButPool (c c' : Caller) : Prop := c' = { c with frame := { c.frame with pool := c'.frame.pool } }

theorem Caller.SameButPool.refl (c : Caller) : c.SameButPool c := rfl

theorem Caller.SameButPool.trans {a b c : Caller} (h : a.SameButPool b) (k : b.SameButPool c) : a.SameButPool c := by
  unfold Caller.SameButPool at *
  rw [k, h]

structure Frame.Extends (S : Set Site) (f f' : Frame) : Prop where
  same : f' = { f with pool := f'.pool, memo := f'.memo, replies := f'.replies }
  memo : ∀ k v, f.memo.lookup k = some v → f'.memo.lookup k = some v
  memo_new : ∀ k, f.memo.lookup k = none → k ∉ S → f'.memo.lookup k = none
  replies : ∀ k r, f.replies.lookup k = some r → f'.replies.lookup k = some r
  replies_new : ∀ k, f.replies.lookup k = none → k ∉ S → f'.replies.lookup k = none

namespace Frame.Extends

variable {S T : Set Site} {site : Site} {f f' f'' : Frame}

theorem refl (S : Set Site) (f : Frame) : f.Extends S f :=
  ⟨rfl, fun _ _ h => h, fun _ h _ => h, fun _ _ h => h, fun _ h _ => h⟩

theorem trans (h : f.Extends S f') (h' : f'.Extends S f'') : f.Extends S f'' where
  same := by rw [h'.same, h.same]
  memo k v hk := h'.memo k v (h.memo k v hk)
  memo_new k hk hs := h'.memo_new k (h.memo_new k hk hs) hs
  replies k r hk := h'.replies k r (h.replies k r hk)
  replies_new k hk hs := h'.replies_new k (h.replies_new k hk hs) hs

theorem mono (h : f.Extends S f') (hs : S ⊆ T) : f.Extends T f' where
  same := h.same
  memo := h.memo
  memo_new k hk hn := h.memo_new k hk fun hk' => hn (hs hk')
  replies := h.replies
  replies_new k hk hn := h.replies_new k hk fun hk' => hn (hs hk')

theorem memo_eq (h : f.Extends S f') (hs : site ∉ S) : f'.memo.lookup site = f.memo.lookup site := by
  cases hk : f.memo.lookup site with
  | some v => exact h.memo site v hk
  | none => exact h.memo_new site hk hs

theorem setPool (S : Set Site) (f : Frame) (p : Pool) : f.Extends S { f with pool := p } :=
  ⟨rfl, fun _ _ h => h, fun _ h _ => h, fun _ _ h => h, fun _ h _ => h⟩

theorem note (h : f.Extends S f') (hs : site ∈ S) (hn : f.memo.lookup site = none) (v : Text) :
    f.Extends S { f' with memo := (site, v) :: f'.memo } where
  same := by rw [h.same]
  memo k w hk := by
    have hne : k ≠ site := by
      rintro rfl
      rw [hn] at hk
      exact absurd hk (by simp)
    simpa [lookup_cons, beq_eq_false_iff_ne.2 hne] using h.memo k w hk
  memo_new k hk hk' := by
    have hne : k ≠ site := by
      rintro rfl
      exact hk' hs
    simpa [lookup_cons, beq_eq_false_iff_ne.2 hne] using h.memo_new k hk hk'
  replies := h.replies
  replies_new := h.replies_new

theorem reply (h : f.Extends S f') (hs : site ∈ S) (hn : f.replies.lookup site = none) (r : Outcome) :
    f.Extends S { f' with replies := (site, r) :: f'.replies } where
  same := by rw [h.same]
  memo := h.memo
  memo_new := h.memo_new
  replies k w hk := by
    have hne : k ≠ site := by
      rintro rfl
      rw [hn] at hk
      exact absurd hk (by simp)
    simpa [lookup_cons, beq_eq_false_iff_ne.2 hne] using h.replies k w hk
  replies_new k hk hk' := by
    have hne : k ≠ site := by
      rintro rfl
      exact hk' hs
    simpa [lookup_cons, beq_eq_false_iff_ne.2 hne] using h.replies_new k hk hk'

end Frame.Extends

/-! ## Callers -/

abbrev CallersKept (cs cs' : List Caller) : Prop := List.Forall₂ Caller.SameButPool cs cs'

theorem CallersKept.refl (cs : List Caller) : CallersKept cs cs := forall₂_same.2 fun c _ => .refl c

theorem CallersKept.trans {as bs cs : List Caller} (h : CallersKept as bs) (h' : CallersKept bs cs) :
    CallersKept as cs := by
  induction h generalizing cs with
  | nil => cases h'; exact .nil
  | cons hab _ ih => cases h' with
    | cons hbc htail => exact .cons (hab.trans hbc) (ih htail)

theorem CallersKept.modifyLast (p : Pool) (cs : List Caller) :
    CallersKept cs (modifyLast (fun f => { f with pool := p }) cs) := by
  fun_induction Stack.modifyLast with
  | case1 => exact .nil
  | case2 c => exact .cons rfl .nil
  | case3 c cs _ ih => exact .cons (.refl c) ih

theorem CallersKept.modifyMain (s : Stack) (p : Pool) :
    CallersKept s.callers (s.modifyMain fun f => { f with pool := p }).callers := by
  unfold Stack.modifyMain
  split
  · exact .refl _
  · exact .modifyLast p s.callers

theorem Frame.Extends.modifyMain (S : Set Site) (s : Stack) (p : Pool) :
    s.top.Extends S (s.modifyMain fun f => { f with pool := p }).top := by
  unfold Stack.modifyMain
  split
  · exact .setPool S s.top p
  · exact .refl S s.top

/-! ## Machines -/

/-- **What evaluation may change** that keeps values and outcomes for sites in `S` only. -/
structure Machine.Evolves {σ : Type} (S : Set Site) (m m' : Machine σ) : Prop where
  interp : m'.interp = { m.interp with
    options := { m.interp.options with markers := m'.interp.options.markers }
    store := m'.interp.store
    stack := m'.stack
    halted := m'.interp.halted }
  top : m.top.Extends S m'.top
  callers : CallersKept m.stack.callers m'.stack.callers
  halted : m.interp.halted = true → m'.interp.halted = true
  targets : m'.targets = m.targets
  channel : m'.channel = m.channel
  around : m'.around = { m.around with random := m'.around.random }
  writes : ∀ H, m.Hosts H → Memory.Writes H m.interp.memory m'.interp.memory

namespace Machine

variable {σ : Type} {S T : Set Site} {site : Site} {m m' m'' : Machine σ}

namespace Evolves

theorem refl (S : Set Site) (m : Machine σ) : m.Evolves S m :=
  ⟨rfl, .refl S _, .refl _, id, rfl, rfl, rfl, fun _ _ => .refl⟩

section

variable (h : m.Evolves S m')
include h

theorem hosts {H : Policy} (hm : m.Hosts H) : m'.Hosts H := by
  constructor
  · rw [h.interp, h.targets]
    exact hm.provisions
  · rw [h.interp, h.around]
    exact hm.loader

theorem trans (h' : m'.Evolves S m'') : m.Evolves S m'' where
  interp := by rw [h'.interp, h.interp]
  top := h.top.trans h'.top
  callers := h.callers.trans h'.callers
  halted hm := h'.halted (h.halted hm)
  targets := h'.targets.trans h.targets
  channel := h'.channel.trans h.channel
  around := by rw [h'.around, h.around]
  writes H hm := (h.writes H hm).trans (h'.writes H (h.hosts hm))

theorem mono (hs : S ⊆ T) : m.Evolves T m' := { h with top := h.top.mono hs }

/-! ### What stays -/

theorem depth : m'.stack.depth = m.stack.depth := by
  unfold Stack.depth
  rw [h.callers.length_eq]

theorem status : m'.interp.status = m.interp.status := by
  rw [h.interp]

theorem numeric : m'.interp.options.numeric = m.interp.options.numeric := by
  rw [h.interp]

theorem functions : m'.interp.functions = m.interp.functions := by
  rw [h.interp]

theorem program : m'.interp.program = m.interp.program := by
  rw [h.interp]

theorem target : m'.top.target = m.top.target := by
  rw [h.top.same]

end

end Evolves

/-! ## Primitive changes -/

theorem Evolves.setVariables (S : Set Site) (m : Machine σ) {v : Variables} (hv : m.interp.vars.Grows v) :
    m.Evolves S (m.modifyInterp fun i => i.setVariables v) :=
  ⟨rfl, .setPool S _ _, .refl _, id, rfl, rfl, rfl, fun _ _ => .single (.vars hv)⟩

theorem Evolves.setRandom (S : Set Site) (m : Machine σ) (g : Generator) :
    m.Evolves S { m with around := { m.around with random := g } } :=
  ⟨rfl, .refl S _, .refl _, id, rfl, rfl, rfl, fun _ _ => .refl⟩

theorem Evolves.setMarkers (S : Set Site) (m : Machine σ) (name : Text) :
    m.Evolves S (m.modifyInterp fun i => { i with options := { i.options with markers := name } }) :=
  ⟨rfl, .refl S _, .refl _, id, rfl, rfl, rfl, fun _ _ => .refl⟩

theorem Evolves.afterHost (S : Set Site) (m : Machine σ) {v : HostView σ}
    (hv : ∀ H, m.Hosts H → H m.interp.mainVariables v.main) : m.Evolves S (m.afterHost v) where
  interp := rfl
  top := .modifyMain S m.stack v.main.pool
  callers := .modifyMain m.stack v.main.pool
  halted h := by
    show (m.interp.halted || v.halted) = true
    rw [h, Bool.true_or]
  targets := rfl
  channel := rfl
  around := rfl
  writes H hm := .single (.host (hv H hm))

def note (m : Machine σ) (site : Site) (v : Text) : Machine σ :=
  m.modifyTop fun f => { f with memo := (site, v) :: f.memo }

theorem Evolves.note (h : m.Evolves S m') (hs : site ∈ S) (hn : m.top.memo.lookup site = none) (v : Text) :
    m.Evolves S (m'.note site v) where
  interp := by
    rw [Machine.note, Machine.modifyTop, Machine.modifyInterp, h.interp]
    rfl
  top := h.top.note hs hn v
  callers := h.callers
  halted := h.halted
  targets := h.targets
  channel := h.channel
  around := h.around
  writes H hm := (h.writes H hm).tail (.frame rfl)

def settle (m : Machine σ) (site : Site) (r : Outcome) : Machine σ :=
  m.modifyInterp fun i => i.complete i.stack.depth site r

theorem settle_eq (m : Machine σ) (site : Site) (r : Outcome) : m.settle site r =
      m.modifyInterp fun i =>
        let v := i.vars.publish r.settled
        { i with
          store := v.store
          stack := i.stack.modifyTop fun f => { f with pool := v.pool, replies := (site, r.settled) :: f.replies } } := by
  simp only [settle, Interpreter.complete, modifyAt, Nat.sub_self, if_true, frames, getD_cons_zero, Interpreter.vars]

theorem Evolves.settle (hs : site ∈ S) (m : Machine σ) (hn : m.top.replies.lookup site = none)
    (r : Outcome) : m.Evolves S (m.settle site r) := by
  rw [settle_eq]
  refine ⟨rfl, (Frame.Extends.setPool S m.top _).reply hs hn r.settled, .refl _, id, rfl, rfl, rfl, ?_⟩
  exact fun _ _ => .tail (.single (.vars (.publish m.interp.vars r.settled))) (.frame rfl)

/-! ## Suspension -/

inductive Suspends (R : Machine σ → Machine σ → Prop) (S : Set Site) (m m' : Machine σ) : Prop where
  | held {m0 : Machine σ} {k : Site} {c : Checkpoint} (progress : R m m0) (mem : k ∈ S)
      (open_ : m0.top.replies.lookup k = none) (hold : m0.hold? k c = some m')
  | entered {m0 : Machine σ} {k : Site} {i : Nat} {a : Args} {needsValue : Bool} (progress : R m m0) (mem : k ∈ S)
      (open_ : m0.top.memo.lookup k = none) (enter : m' = m0.enter k i a needsValue)
      (label : ∃ label : Text, m0.interp.program.labels[label]? = some i) (room : m0.stack.depth < maxDepth)
  | refused {k : Site} {c : Checkpoint} (progress : R m m') (full : m'.hold? k c = none)

variable {R R' : Machine σ → Machine σ → Prop} {r : Response}

theorem Suspends.after (h : m'.Suspends R S m'') (hR : ∀ m0, R m' m0 → R' m m0) : m.Suspends R' S m'' := by
  cases h with
  | held hp hb ho hh => exact .held (hR _ hp) hb ho hh
  | entered hp hb ho hh hl hd => exact .entered (hR _ hp) hb ho hh hl hd
  | refused hp hf => exact .refused (hR _ hp) hf

theorem Suspends.mono (h : m.Suspends R S m') (hs : S ⊆ T) : m.Suspends R T m' := by
  cases h with
  | held hp hb ho hh => exact .held hp (hs hb) ho hh
  | entered hp hb ho hh hl hd => exact .entered hp (hs hb) ho hh hl hd
  | refused hp hf => exact .refused hp hf

/-! ## Answers -/

theorem answer?_spec (h : m.answer? r = some m') : ∃ hold, m.interp.status = .held hold ∧ hold.id = r.id ∧ m' = { m with
      channel := (m.channel.withdraw r.id).2
      interp := { m.interp.complete hold.depth hold.site r.outcome with status := .running } } := by
  unfold answer? at h
  split at h
  · rename_i hold hst
    split at h
    · rename_i hid
      cases h
      exact ⟨hold, hst, hid, rfl⟩
    · cases h
  · cases h

theorem answer?_of_held {h : Hold} (hst : m.interp.status = .held h) (hid : h.id = r.id) : m.answer? r = some { m with
      channel := (m.channel.withdraw r.id).2
      interp := { m.interp.complete h.depth h.site r.outcome with status := .running } } := by
  unfold answer?
  rw [hst]
  exact if_pos hid

theorem complete_of_held (hrun : m.interp.status = .running) (st : Status) (r : Outcome) :
    ({ ({ m.interp with status := st } : Interpreter σ).complete m.stack.depth site r with
        status := .running } : Interpreter σ) = (m.settle site r).interp := by
  show _ = m.interp.complete _ _ _
  unfold Interpreter.complete
  rw [← hrun]

theorem answer?_of_hold {c : Checkpoint} (hrun : m.interp.status = .running)
    (h : m.hold? site c = some m') (hr : m'.answer? r = some m'') :
    ∃ channel, m'' = { m.settle site r.outcome with channel } := by
  obtain ⟨⟨id, ch⟩, _, rfl⟩ := Option.map_eq_some_iff.1 h
  obtain ⟨hold, hst, _, rfl⟩ := answer?_spec hr
  cases hst
  exact ⟨_, congrArg (fun i => mk i _ _ _ _) (complete_of_held hrun _ _)⟩

end Machine

end Rexx
