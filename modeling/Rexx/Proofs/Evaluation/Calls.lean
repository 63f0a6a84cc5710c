import Rexx.Proofs.Engine.Parts
import Rexx.Proofs.Evaluation.Effect

/-!
# `Evaluation.Calls` — what calls may change

One lemma for each thing that a call can come to: a built-in function, a function of the host, a routine, a method of
the active target.
-/

namespace Rexx

namespace Engine

variable {σ α β : Type} {S T : Set Site} {site : Site} {m m' : Machine σ} {c : Engine σ α}

def Evaluates (S : Set Site) (c : Engine σ α) (m : Machine σ) : Prop :=
  Ensures (Machine.Evolves S) (Machine.Evolves S) (Machine.Suspends (Machine.Evolves S) S) c m

variable {b : Binding σ} {f : α → Engine σ β} {a : Engine σ α} (r : Outcome) (code : HostCode σ α)
  (name : Text)

theorem Evaluates.bind (ha : Evaluates S a m)
    (hrest : ∀ v m', a m = .ok v m' → Evaluates S (f v) m') : Evaluates S (a >>= f) m :=
  Ensures.bind ⟨.trans, .trans, fun h h' => h'.after fun _ => h.trans⟩ ha hrest

theorem Evaluates.pure (v : α) (m : Machine σ) : Evaluates S (Pure.pure v) m :=
  .of_ok (pure_apply v m) (.refl S m)

theorem Evaluates.fail (f : Fault) (m : Machine σ) : Evaluates S (fail f : Engine σ α) m :=
  .of_raised (fail_apply f m) (.refl S m)

theorem Evaluates.orFail (r : Except Fault α) (m : Machine σ) : Evaluates S (orFail r) m := by
  cases r with
  | ok v => exact .pure v m
  | error f => exact .fail f m

theorem Evaluates.of_same {v : α} (h : c m = .ok v m) : Evaluates S c m :=
  .of_ok h (.refl S m)

theorem Evaluates.mono (h : Evaluates S c m) (hs : S ⊆ T) : Evaluates T c m :=
  h.imp (fun h => h.mono hs) (fun h => h.mono hs) fun h => (h.mono hs).after fun _ h0 => h0.mono hs

theorem Evaluates.inner {i : Nat} (h : Evaluates (Site.tree (i :: site)) c m) : Evaluates site.inner c m :=
  h.mono (Site.tree_child_subset i site)

theorem Evaluates.tree (h : Evaluates site.inner c m) : Evaluates site.tree c m :=
  h.mono (Site.inner_subset_tree site)

theorem Evaluates.weaken (h : Evaluates S c m) : Evaluates Set.univ c m := h.mono (Set.subset_univ S)

def Defers (c : Engine σ α) (m : Machine σ) : Prop :=
  Ensures (fun _ _ => True) (fun _ _ => True) (Machine.Suspends (Machine.Evolves Set.univ) Set.univ) c m

theorem Evaluates.defers (h : Evaluates S c m) : Defers c m :=
  h.weaken.imp (fun _ => trivial) (fun _ => trivial) id

theorem Defers.of_immediate (h : Immediate c) : Defers c m := by
  cases hc : c m with
  | ok v m' => exact .of_ok hc trivial
  | error e m' =>
    cases e with
    | suspended => exact absurd hc (h m m')
    | raised e => exact .of_raised hc trivial

theorem Defers.bind (ha : Evaluates S a m) (hrest : ∀ v m', a m = .ok v m' → Defers (f v) m') : Defers (a >>= f) m :=
  Ensures.bind ⟨fun _ _ => trivial, fun _ _ => trivial, fun h h' => h'.after fun _ => h.trans⟩
    (ha.weaken.imp id (fun _ => trivial) id) hrest

/-! ## Variables -/

theorem assign_evaluates (name value : Text) (m : Machine σ) : Evaluates S (assign name value) m := by
  cases hv : m.interp.vars.assign? name value with
  | some v =>
    have ha : assign name value m = .ok ⟨⟩ (m.modifyInterp fun i => i.setVariables v) := by
      simp only [assign, bind_apply, interp_apply, hv, modifyInterp_apply]
    exact .of_ok ha (.setVariables S m (.assign? hv))
  | none =>
    have ha : assign name value m = .error (.raised (Fault.badName name).condition) m := by
      simp only [assign, bind_apply, interp_apply, hv, fail_apply]
    exact .of_raised ha (.refl S m)

theorem fetch_evaluates (m : Machine σ) : Evaluates S (fetch name) m := by
  refine .bind (.of_same (interp_apply m)) ?_
  intro i m' hi
  cases hi
  split
  · exact .pure _ m
  · dsimp only
    split
    · exact .pure _ m
    · split
      · exact .fail _ m
      · split
        · exact .fail _ m
        · exact .pure _ m

/-! ## Code of the host -/

theorem callHost_apply (m : Machine σ) : callHost code m = match code m.hostView with
      | .ok a v => .ok (.ok a) (m.afterHost v)
      | .error e v => .ok (.error e) (m.afterHost v) := by
  simp only [callHost, bind_apply, get_apply]
  cases code m.hostView <;> rfl

theorem callHost_evaluates (m : Machine σ) (hcode : ∀ H, m.Hosts H → HostCode.Keeps H code) :
    Evaluates S (callHost code) m := by
  have h := callHost_apply code m
  have hkeeps := fun H hm => hcode H hm m.hostView
  cases hc : code m.hostView with
  | ok a v =>
    rw [hc] at h hkeeps
    exact .of_ok h (.afterHost S m hkeeps)
  | error e v =>
    rw [hc] at h hkeeps
    exact .of_ok h (.afterHost S m hkeeps)

theorem callFunction_evaluates (f : HostFunction σ) (a : Args) (m : Machine σ)
    (hf : ∀ H, m.Hosts H → HostCode.Keeps H (f a)) : Evaluates S (callFunction name f a) m := by
  refine .bind (callHost_evaluates (f a) m hf) ?_
  intro r m' _
  cases r with
  | ok value => exact .pure value m'
  | error fault =>
    cases fault with
    | condition c => exact .of_raised (throw_apply _ m') (.refl S m')
    | exception message => exact .fail _ m'

theorem evaluates_computing : Computing fun _ (c : Engine σ _) => ∀ m, Evaluates S c m where
  pure := .pure
  bind ha hf m := .bind (ha m) fun v m1 _ => hf v m1
  fail _ := .fail _
  numeric m := .of_same (numeric_apply m)
  fetch := fetch_evaluates
  assign := assign_evaluates
  reads _ hg m := .bind (.of_same (get_apply m)) fun m0 m1 _ => hg m0 m1
  draws random m := .of_ok (modify_apply _ m) (.setRandom S m random)
  marks markers m := .of_ok (modifyInterp_apply _ m) (.setMarkers S m markers)

/-! ## Targets -/

theorem ask_evaluates (cmd : Text) (params : Params) (method : Bool) (m : Machine σ)
    (hb : m.targets[name]? = some b) : Evaluates S (ask name b cmd params method) m := by
  unfold ask
  split
  · exact .pure _ m
  · refine .bind (callHost_evaluates _ m fun H hm => hm.provisions.targets name b hb _ _ _) ?_
    intro r m1 _
    cases r with
    | ok reply => exact .pure _ m1
    | error fault => exact .pure _ m1

theorem await_apply (site : Site) (c : Checkpoint) (m : Machine σ) :
    (await site c : Engine σ α) m = .error .suspended ((m.hold? site c).getD m) := rfl

theorem await_evaluates (hs : site ∈ S) (c : Checkpoint) (m : Machine σ)
    (hn : m.top.replies.lookup site = none) : Evaluates S (await site c : Engine σ α) m := by
  have ha := await_apply (α := α) site c m
  cases hh : m.hold? site c with
  | some m' =>
    rw [hh] at ha
    exact .of_suspended ha (.held (.refl S m) hs hn hh)
  | none =>
    rw [hh] at ha
    exact .of_suspended ha (.refused (.refl S m) hh)

theorem dispatch_apply (site : Site) (name cmd : Text) (params : Params) (method : Bool) (m : Machine σ) :
    dispatch site name cmd params method m =
      match m.top.replies.lookup site with
      | some r => .ok r m
      | none =>
        match m.targets[name]? with
        | none => .error (.raised (Fault.targetNotFound name).condition) m
        | some b => (ask name b cmd params method >>= receive site) m := by
  simp only [dispatch, bind_apply, top_apply]
  cases m.top.replies.lookup site with
  | some r => rfl
  | none =>
    simp only [bind_apply, get_apply]
    cases m.targets[name]? <;> rfl

theorem receive_evaluates (hs : site ∈ S) (reply : Reply) (m : Machine σ)
    (hn : m.top.replies.lookup site = none) : Evaluates S (receive site reply) m := by
  cases reply with
  | wait c => exact await_evaluates hs c m hn
  | now r => exact .bind (.of_ok rfl (.settle hs m hn r)) fun _ m1 _ => .pure _ m1

theorem replies_of_ask {name cmd : Text} {params : Params} {method : Bool} {reply : Reply}
    (h : ask name b cmd params method m = .ok reply m') :
    m'.top.replies = m.top.replies := by
  -- Code of the host changes the frame at most in its variables.
  have hhost : ∀ v : HostView σ, (m.afterHost v).top.replies = m.top.replies := by
    intro v
    simp only [Machine.afterHost, Interpreter.setMainVariables, Stack.modifyMain]
    split <;> rfl
  cases hw : refusal? name b.target cmd method with
  | some why =>
    simp only [ask, hw] at h
    cases h
    rfl
  | none =>
    simp only [ask, hw, bind_apply, callHost_apply] at h
    cases hc : b.target.handle cmd params ⟨b.auth, method⟩ m.hostView with
    | ok a v =>
      rw [hc] at h
      cases h
      exact hhost v
    | error e v =>
      rw [hc] at h
      cases h
      exact hhost v

theorem dispatch_evaluates (hs : site ∈ S) (name cmd : Text) (params : Params) (method : Bool) (m : Machine σ) :
    Evaluates S (dispatch site name cmd params method) m := by
  have hd := dispatch_apply site name cmd params method m
  cases hr : m.top.replies.lookup site with
  | some r =>
    rw [hr] at hd
    exact .of_same hd
  | none =>
    rw [hr] at hd
    cases ht : m.targets[name]? with
    | none =>
      rw [ht] at hd
      exact .of_raised hd (.refl S m)
    | some b =>
      rw [ht] at hd
      have hb : Evaluates S (ask name b cmd params method >>= receive site) m := by
        refine .bind (ask_evaluates name cmd params method m ht) ?_
        intro reply m1 ha
        exact receive_evaluates hs reply m1 ((congrArg (List.lookup site) (replies_of_ask ha)).trans hr)
      exact hb.congr hd

theorem check_apply (m : Machine σ) : check r m =
      if !r.success && m.stack.traps (failureEvent r) then .error (.raised (failureOf r)) m else .ok ⟨⟩ m := by
  rw [check, bind_of_ok (interp_apply m)]
  split <;> rfl

theorem check_evaluates (m : Machine σ) : Evaluates S (check r) m := by
  have hc := check_apply r m
  split at hc
  · exact .of_raised hc (.refl S m)
  · exact .of_same hc

theorem callMethod_evaluates (hs : site ∈ S) (target name : Text) (a : Args) (m : Machine σ) :
    Evaluates S (callMethod site target name a) m :=
  .bind (dispatch_evaluates hs target name _ true m) fun r m1 _ => .bind (check_evaluates r m1) fun _ m2 _ => .pure _ m2

theorem targetWith?_apply (method : Text) (m : Machine σ) : targetWith? method m = .ok (m.method? method) m := rfl

/-! ## Routines of the program -/

theorem enterRoutine_apply (site : Site) (i : Nat) (a : Args) (needsValue : Bool) (m : Machine σ) :
    (enterRoutine site i a needsValue : Engine σ α) m =
      if maxDepth ≤ m.stack.depth then .error (.raised Fault.stackFull.condition) m
      else .error .suspended (m.enter site i a needsValue) := by
  simp only [enterRoutine, bind_apply, interp_apply]
  split <;> rfl

theorem enterRoutine_evaluates (hs : site ∈ S) {i : Nat} (hl : ∃ label : Text, m.interp.program.labels[label]? = some i)
    (a : Args) (needsValue : Bool) (hn : m.top.memo.lookup site = none) :
    Evaluates S (enterRoutine site i a needsValue : Engine σ α) m := by
  have he := enterRoutine_apply (α := α) site i a needsValue m
  split at he
  · exact .of_raised he (.refl S m)
  · rename_i hroom
    exact .of_suspended he (.entered (.refl S m) hs hn rfl hl (not_le.1 hroom))

theorem call_evaluates (hs : site ∈ S) (name : Text) (a : Args) (needsValue quoted : Bool) (m : Machine σ)
    (hn : m.top.memo.lookup site = none) :
    Evaluates S (call site name a needsValue quoted) m := by
  unfold call
  split
  · exact evaluates_computing.callBuiltin _ a m
  · refine .bind (.of_same (interp_apply m)) ?_
    intro rx _ hm
    cases hm
    split
    · rename_i f hf
      exact callFunction_evaluates name f.code a m fun H hm => hm.provisions.functions name f hf a
    · split
      · rename_i k hk
        refine enterRoutine_evaluates hs ?_ a needsValue hn
        split at hk
        · cases hk
        · exact ⟨name, hk⟩
      · refine .bind (.of_same (targetWith?_apply name m)) ?_
        intro t _ hm
        cases hm
        split
        · exact callMethod_evaluates hs _ name a m
        · exact .fail _ m

/-! ## Calls that are never suspended -/

theorem callHost_immediate : Immediate (callHost code) := by
  refine .of_ok fun m => ?_
  rw [callHost_apply]
  cases code m.hostView with
  | ok a v => exact ⟨_, _, rfl⟩
  | error e v => exact ⟨_, _, rfl⟩

theorem assign_immediate (name value : Text) : Immediate (assign name value : Engine σ Unit) := by
  refine .bind .interp fun i => ?_
  split
  · exact .modifyInterp _
  · exact .fail _

theorem fetch_immediate : Immediate (fetch name : Engine σ Text) := by
  refine .bind .interp fun i => ?_
  split
  · exact .pure _
  · exact .ite (.pure _) (.ite (.fail _) (.ite (.fail _) (.pure _)))

theorem immediate_computing : Computing fun _ (c : Engine σ _) => Immediate c where
  pure := .pure
  bind := .bind
  fail _ := .fail _
  numeric := .numeric
  fetch := fetch_immediate
  assign := assign_immediate
  reads _ hg := .bind .get hg
  draws _ := .of_ok fun _ => ⟨_, _, rfl⟩
  marks _ := .modifyInterp _

theorem check_immediate : Immediate (check r : Engine σ Unit) := by
  intro m m1 h
  rw [check_apply] at h
  split at h <;> cases h

end Engine

end Rexx
