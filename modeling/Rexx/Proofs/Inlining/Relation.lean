import Rexx.Proofs.Tandem.Ticks

/-!
# `Inlining.Relation` — INTERPRET clauses replaced by groups

An INTERPRET clause whose expression always has the same text as its value can be replaced by a DO group of the
statements of the text.
-/

namespace Rexx

open Cursor Fragment List Place

/-! ## Statements -/

/-- The expression of an INTERPRET clause always has the same value, and evaluating it changes nothing. -/
def Expr.Denotes (x : Expr) (t : Text) : Prop := ∀ (σ : Type) (m : Machine σ), Engine.eval [0] x m = .ok t m

theorem Expr.denotes_literal {t : Text} {quote : Option Quote} (h : Expr.isMarked t quote = false) :
    (Expr.literal t quote).Denotes t := by
  intro σ m
  rw [Engine.eval, if_neg (by simp [h])]
  rfl

section

variable (t : Text) (B : List Stmt)

mutual

/-- **The statement `s'` is `s` with INTERPRET clauses of the text `t` replaced** by groups of its statements `B`. -/
inductive Stmt.Inlines : Option Nat → Option Nat → Stmt → Stmt → Prop where
  | clause {n n' : Option Nat} {pos pos' : Position} (c : Clause) (line : n'.getD pos'.line = n.getD pos.line) :
      Stmt.Inlines n n' (.clause pos c) (.clause pos' c)
  | ifThen {n n' : Option Nat} {pos pos' : Position} (cond : Expr) {thens thens' elses elses' : List Stmt}
      (line : n'.getD pos'.line = n.getD pos.line) (thens_ : Block.Inlines n n' thens thens')
      (elses_ : Block.Inlines n n' elses elses') :
      Stmt.Inlines n n' (.ifThen pos cond thens elses) (.ifThen pos' cond thens' elses')
  | group {n n' : Option Nat} {pos pos' : Position} {body body' : List Stmt} (line : n'.getD pos'.line = n.getD pos.line)
      (body_ : Block.Inlines n n' body body') : Stmt.Inlines n n' (.group pos body) (.group pos' body')
  | loop {n n' : Option Nat} {pos pos' : Position} (control : Control) (guard : Option Guard) {body body' : List Stmt}
      (line : n'.getD pos'.line = n.getD pos.line) (body_ : Block.Inlines n n' body body') :
      Stmt.Inlines n n' (.loop pos control guard body) (.loop pos' control guard body')
  | select {n n' : Option Nat} {pos pos' : Position} {whens whens' : List (Expr × List Stmt)}
      (line : n'.getD pos'.line = n.getD pos.line) (whens_ : Branches.Inlines n n' whens whens') :
      Stmt.Inlines n n' (.select pos whens none) (.select pos' whens' none)
  | selectOtherwise {n n' : Option Nat} {pos pos' : Position} {whens whens' : List (Expr × List Stmt)}
      {other other' : List Stmt} (line : n'.getD pos'.line = n.getD pos.line)
      (whens_ : Branches.Inlines n n' whens whens') (other_ : Block.Inlines n n' other other') :
      Stmt.Inlines n n' (.select pos whens (some other)) (.select pos' whens' (some other'))
  | inlined {n n' : Option Nat} {pos pos' : Position} {x : Expr} {body : List Stmt} (text : x.Denotes t)
      (line : n'.getD pos'.line = n.getD pos.line) (body_ : Block.Inlines (some (n.getD pos.line)) n' B body) :
      Stmt.Inlines n n' (.clause pos (.interpret x)) (.group pos' body)

inductive Block.Inlines : Option Nat → Option Nat → List Stmt → List Stmt → Prop where
  | nil {n n' : Option Nat} : Block.Inlines n n' [] []
  | cons {n n' : Option Nat} {s s' : Stmt} {ss ss' : List Stmt} (head : Stmt.Inlines n n' s s')
      (tail : Block.Inlines n n' ss ss') : Block.Inlines n n' (s :: ss) (s' :: ss')

inductive Branches.Inlines : Option Nat → Option Nat → List (Expr × List Stmt) → List (Expr × List Stmt) → Prop where
  | nil {n n' : Option Nat} : Branches.Inlines n n' [] []
  | cons {n n' : Option Nat} (cond : Expr) {b b' : List Stmt} {ws ws' : List (Expr × List Stmt)}
      (head : Block.Inlines n n' b b') (tail : Branches.Inlines n n' ws ws') :
      Branches.Inlines n n' ((cond, b) :: ws) ((cond, b') :: ws')

end

/-- **The program `q` is `p` with INTERPRET clauses replaced.** -/
structure Program.Inlines (p q : Program) : Prop where
  name : q.name = p.name
  labels : q.labels = p.labels
  body : Block.Inlines t B none none p.body q.body

end

/-! ### Lists -/

section

variable {t : Text} {B : List Stmt} {n n' : Option Nat}

theorem Block.Inlines.forall₂ {b b' : List Stmt} (h : Block.Inlines t B n n' b b') :
    Forall₂ (Stmt.Inlines t B n n') b b' := by
  induction b generalizing b' with
  | nil =>
    cases h
    exact .nil
  | cons s ss ih =>
    cases h with
    | cons hs hss => exact .cons hs (ih hss)

theorem Block.Inlines.isEmpty {b b' : List Stmt} (h : Block.Inlines t B n n' b b') : b'.isEmpty = b.isEmpty := by
  cases h <;> rfl

theorem Branches.Inlines.forall₂ {ws ws' : List (Expr × List Stmt)} (h : Branches.Inlines t B n n' ws ws') :
    Forall₂ (fun w w' => w'.1 = w.1 ∧ Block.Inlines t B n n' w.2 w'.2) ws ws' := by
  induction ws generalizing ws' with
  | nil =>
    cases h
    exact .nil
  | cons w ws ih =>
    cases h with
    | cons cond hb hws => exact .cons ⟨rfl, hb⟩ (ih hws)

/-! ### Statements on another line -/

mutual

def Stmt.onLine (n : Nat) : Stmt → Stmt
  | .clause pos c => .clause { pos with line := n } c
  | .ifThen pos cond thens elses => .ifThen { pos with line := n } cond (Block.onLine n thens) (Block.onLine n elses)
  | .group pos body => .group { pos with line := n } (Block.onLine n body)
  | .loop pos control guard body => .loop { pos with line := n } control guard (Block.onLine n body)
  | .select pos whens none => .select { pos with line := n } (Branches.onLine n whens) none
  | .select pos whens (some other) =>
    .select { pos with line := n } (Branches.onLine n whens) (some (Block.onLine n other))

def Block.onLine (n : Nat) : List Stmt → List Stmt
  | [] => []
  | s :: ss => s.onLine n :: Block.onLine n ss

def Branches.onLine (n : Nat) : List (Expr × List Stmt) → List (Expr × List Stmt)
  | [] => []
  | (cond, b) :: ws => (cond, Block.onLine n b) :: Branches.onLine n ws

end

mutual

theorem Stmt.inlines_onLine (n : Nat) (s : Stmt) : Stmt.Inlines t B (some n) none s (s.onLine n) := by
  cases s with
  | clause pos c => exact .clause c rfl
  | ifThen pos cond thens elses => exact .ifThen cond rfl (Block.inlines_onLine n thens) (Block.inlines_onLine n elses)
  | group pos body => exact .group rfl (Block.inlines_onLine n body)
  | loop pos control guard body => exact .loop control guard rfl (Block.inlines_onLine n body)
  | select pos whens otherwise =>
    cases otherwise with
    | none => exact .select rfl (Branches.inlines_onLine n whens)
    | some other => exact .selectOtherwise rfl (Branches.inlines_onLine n whens) (Block.inlines_onLine n other)

theorem Block.inlines_onLine (n : Nat) (b : List Stmt) : Block.Inlines t B (some n) none b (Block.onLine n b) := by
  cases b with
  | nil => exact .nil
  | cons s ss => exact .cons (Stmt.inlines_onLine n s) (Block.inlines_onLine n ss)

theorem Branches.inlines_onLine (n : Nat) (ws : List (Expr × List Stmt)) :
    Branches.Inlines t B (some n) none ws (Branches.onLine n ws) := by
  cases ws with
  | nil => exact .nil
  | cons w ws =>
    obtain ⟨cond, b⟩ := w
    exact .cons cond (Block.inlines_onLine n b) (Branches.inlines_onLine n ws)

end

mutual

theorem Stmt.Inlines.refl (n : Option Nat) (s : Stmt) : Stmt.Inlines t B n n s s := by
  cases s with
  | clause pos c => exact .clause c rfl
  | ifThen pos cond thens elses => exact .ifThen cond rfl (Block.Inlines.refl n thens) (Block.Inlines.refl n elses)
  | group pos body => exact .group rfl (Block.Inlines.refl n body)
  | loop pos control guard body => exact .loop control guard rfl (Block.Inlines.refl n body)
  | select pos whens otherwise =>
    cases otherwise with
    | none => exact .select rfl (Branches.Inlines.refl n whens)
    | some other => exact .selectOtherwise rfl (Branches.Inlines.refl n whens) (Block.Inlines.refl n other)

theorem Block.Inlines.refl (n : Option Nat) (b : List Stmt) : Block.Inlines t B n n b b := by
  cases b with
  | nil => exact .nil
  | cons s ss => exact .cons (Stmt.Inlines.refl n s) (Block.Inlines.refl n ss)

theorem Branches.Inlines.refl (n : Option Nat) (ws : List (Expr × List Stmt)) : Branches.Inlines t B n n ws ws := by
  cases ws with
  | nil => exact .nil
  | cons w ws =>
    obtain ⟨cond, b⟩ := w
    exact .cons cond (Block.Inlines.refl n b) (Branches.Inlines.refl n ws)

end

end

/-! ## Places -/

def Fragment.lineOf? (fs : List Fragment) (unit : Option Nat) : Option Nat :=
  (unit.bind fun id => fs.find? fun f => f.id == id).map Fragment.line

structure Cursor.Inlines (t : Text) (B : List Stmt) (fs fs' : List Fragment) (k k' : Nat) (c c' : Cursor) : Prop where
  block : Block.Inlines t B (Fragment.lineOf? fs c.unit) (Fragment.lineOf? fs' c'.unit) c.block c'.block
  pc : c'.pc = c.pc
  loop : c'.loop = c.loop
  fresh : ∀ u ∈ c.unit, u < k
  fresh' : ∀ u ∈ c'.unit, u < k'

abbrev Place.Keep (t : Text) (B : List Stmt) (π π' : Place) : Cursor → Cursor → Prop :=
  Cursor.Inlines t B π.fragments π'.fragments π.nextFragment π'.nextFragment

/-- **Corresponding places** of runs of two programs of which one has INTERPRET clauses replaced. -/
structure Place.Inlines (t : Text) (B : List Stmt) (π π' : Place) : Prop where
  body : Block.Inlines t B none none π.program.body π'.program.body
  top : List.Forall₂ (π.Keep t B π') π.top π'.top
  callers : List.Forall₂ (List.Forall₂ (π.Keep t B π')) π.callers π'.callers

/-! ### Related lists -/

section

variable {α β : Type} {R S : α → β → Prop} {as : List α} {bs : List β}

theorem forall₂_imp_mem (h : Forall₂ R as bs) (himp : ∀ {a b}, a ∈ as → b ∈ bs → R a b → S a b) : Forall₂ S as bs := by
  induction h with
  | nil => exact .nil
  | cons hab _ ih =>
    refine .cons (himp mem_cons_self mem_cons_self hab) (ih fun ha hb hr => ?_)
    exact himp (mem_cons_of_mem _ ha) (mem_cons_of_mem _ hb) hr

theorem forall₂_left {p : α → Prop} (h : Forall₂ R as bs) (hp : ∀ {a b}, R a b → p a) : ∀ a ∈ as, p a := by
  induction h with
  | nil => nofun
  | cons hab _ ih => exact forall_mem_cons.2 ⟨hp hab, ih⟩

theorem forall₂_right {p : β → Prop} (h : Forall₂ R as bs) (hp : ∀ {a b}, R a b → p b) : ∀ b ∈ bs, p b :=
  forall₂_left h.flip hp

end

variable {t : Text} {B : List Stmt} {π π' : Place}

theorem forall₂_modifyHead {R : Cursor → Cursor → Prop} {f g : Cursor → Cursor} {cs cs' : List Cursor}
    (h : Forall₂ R cs cs') (hfg : ∀ {c c'}, R c c' → R (f c) (g c')) :
    List.Forall₂ R (cs.modifyHead f) (cs'.modifyHead g) := by
  cases h with
  | nil => exact .nil
  | cons hc hcs => exact .cons (hfg hc) hcs

namespace Place

theorem mem_units {cs : List Cursor} {c : Cursor} (hcs : cs ∈ π.top :: π.callers) (hc : c ∈ cs) :
    ∀ u ∈ c.unit, u ∈ π.units :=
  fun _ hu => mem_flatMap.2 ⟨cs, hcs, mem_filterMap.2 ⟨c, hc, hu⟩⟩

theorem units_lt {k : Nat} (h : ∀ cs ∈ π.top :: π.callers, ∀ c ∈ cs, ∀ u ∈ c.unit, u < k) : ∀ u ∈ π.units, u < k := by
  intro u hu
  obtain ⟨cs, hcs, hu⟩ := mem_flatMap.1 hu
  obtain ⟨c, hc, hu⟩ := mem_filterMap.1 hu
  exact h cs hcs c hc u hu

theorem lineOf?_interpret (π : Place) (line : Nat) (p : Program) {unit : Option Nat} (hlive : ∀ u ∈ unit, u ∈ π.units)
    (hfresh : ∀ u ∈ unit, u < π.nextFragment) :
    lineOf? (π.interpret line p).fragments unit = lineOf? π.fragments unit := by
  cases unit with
  | none => rfl
  | some u =>
    have hne : (π.nextFragment == u) = false := by
      have := hfresh u rfl
      simp
      omega
    have hfind : π.live.find? (fun f => f.id == u) = π.fragments.find? fun f => f.id == u := by
      unfold live
      rw [find?_filter]
      refine congrArg (find? · π.fragments) (funext fun f => ?_)
      by_cases hf : f.id = u
      · simp [hf, hlive u rfl]
      · simp [hf]
    show ((π.live ++ ([⟨π.nextFragment, line, p.lines⟩] : List Fragment)).find? fun f => f.id == u).map _ = _
    rw [find?_append, hfind, find?_cons, hne]
    simp [lineOf?]

theorem lineOf?_new (π : Place) (line : Nat) (p : Program) (hfresh : ∀ u ∈ π.units, u < π.nextFragment) :
    lineOf? (π.interpret line p).fragments (some π.nextFragment) = some line := by
  have hnone : π.live.find? (fun f => f.id == π.nextFragment) = none := by
    refine find?_eq_none.2 fun f hf => ?_
    have hunit := (mem_filter.1 hf).2
    have := hfresh f.id (by simpa using hunit)
    simp
    omega
  show ((π.live ++ ([⟨π.nextFragment, line, p.lines⟩] : List Fragment)).find? fun f => f.id == π.nextFragment).map _ = _
  rw [find?_append, hnone]
  simp

end Place

namespace Place.Inlines

/-! ### Moves -/

variable (h : Place.Inlines t B π π')

include h

theorem advance : Place.Inlines t B π.advance π'.advance :=
  ⟨h.body, forall₂_modifyHead h.top fun hc => ⟨hc.block, congrArg (· + 1) hc.pc, hc.loop, hc.fresh, hc.fresh'⟩, h.callers⟩

theorem labelled (k : Nat) :
    Forall₂ (π.Keep t B π') [.at π.program.body (k + 1) none] [.at π'.program.body (k + 1) none] :=
  .cons ⟨h.body, rfl, rfl, nofun, nofun⟩ .nil

theorem pop : Inlines t B π.pop π'.pop := by
  have hcallers := h.callers
  unfold Place.pop
  cases hc : π.callers with
  | nil =>
    rw [hc] at hcallers
    rw [forall₂_nil_left_iff.1 hcallers]
    exact h
  | cons cs css =>
    rw [hc] at hcallers
    obtain ⟨cs', css', htop, hrest, hc'⟩ := forall₂_cons_left_iff.1 hcallers
    rw [hc']
    exact ⟨h.body, htop, hrest⟩

variable {line : Nat} {c c' : Cursor}

theorem enter {cs cs' : List Cursor} (hm : π.top = c :: cs)
    (hw : π'.top = c' :: cs') {b b' : List Stmt} (loop : Option LoopState)
    (hb : Block.Inlines t B (lineOf? π.fragments c.unit) (lineOf? π'.fragments c'.unit) b b') :
    Inlines t B (π.enter b loop) (π'.enter b' loop) := by
  have htop := hm ▸ hw ▸ h.top
  obtain ⟨hc, -⟩ := forall₂_cons.1 htop
  have hnew : Forall₂ (π.Keep t B π') (⟨b, 0, c.unit, loop⟩ :: c :: cs) (⟨b', 0, c'.unit, loop⟩ :: c' :: cs') :=
    .cons ⟨hb, rfl, rfl, hc.fresh, hc.fresh'⟩ htop
  refine ⟨h.body, ?_, h.callers⟩
  show Forall₂ (π.Keep t B π') (⟨b, 0, π.top.head?.bind unit, loop⟩ :: π.top)
    (⟨b', 0, π'.top.head?.bind unit, loop⟩ :: π'.top)
  rw [hm, hw]
  exact hnew

/-! ### Texts -/

theorem fresh : ∀ cs ∈ π.top :: π.callers, ∀ c ∈ cs, ∀ u ∈ c.unit, u < π.nextFragment :=
  forall₂_left (.cons h.top h.callers) fun hcs => forall₂_left hcs fun hc => hc.fresh

theorem fresh' : ∀ cs ∈ π'.top :: π'.callers, ∀ c ∈ cs, ∀ u ∈ c.unit, u < π'.nextFragment :=
  forall₂_right (.cons h.top h.callers) fun hcs => forall₂_right hcs fun hc => hc.fresh'

variable {p : Program}

omit h in
theorem keep_left (hlive : ∀ u ∈ c.unit, u ∈ π.units)
    (hc : π.Keep t B π' c c') : (π.interpret line p).Keep t B π' c c' := by
  refine ⟨?_, hc.pc, hc.loop, fun u hu => Nat.lt_succ_of_lt (hc.fresh u hu), hc.fresh'⟩
  rw [lineOf?_interpret π line p hlive hc.fresh]
  exact hc.block

omit h in
theorem keep_right (hlive : ∀ u ∈ c'.unit, u ∈ π'.units)
    (hc : π.Keep t B π' c c') : π.Keep t B (π'.interpret line p) c c' := by
  refine ⟨?_, hc.pc, hc.loop, hc.fresh, fun u hu => Nat.lt_succ_of_lt (hc.fresh' u hu)⟩
  rw [lineOf?_interpret π' line p hlive hc.fresh']
  exact hc.block

theorem adopt (line : Nat) (p : Program) : Inlines t B { π.interpret line p with top := π.advance.top } π'.advance := by
  have htop : Forall₂ (π.Keep t B π') π.advance.top π'.advance.top := h.advance.top
  have hunits : ∀ {cs : List Cursor} {c : Cursor}, cs ∈ π.advance.top :: π.advance.callers → c ∈ cs →
      ∀ u ∈ c.unit, u ∈ π.units := by
    intro cs c hcs hc
    rw [← π.units_advance]
    exact mem_units hcs hc
  refine ⟨h.body, forall₂_imp_mem htop fun hc _ => keep_left (hunits mem_cons_self hc), ?_⟩
  exact forall₂_imp_mem h.callers fun hcs _ hkeep =>
    forall₂_imp_mem hkeep fun hc _ => keep_left (hunits (mem_cons_of_mem _ hcs) hc)

theorem skip (line : Nat) (hp : p.body.isEmpty = true) : Inlines t B (π.interpret line p) π'.advance := by
  have hnothing : π.interpret line p = { π.interpret line p with top := π.advance.top } := by
    unfold interpret
    rw [hp]
    rfl
  rw [hnothing]
  exact h.adopt line p

theorem inline {c' : Cursor} {cs' : List Cursor} (hw : π'.top = c' :: cs') (hp : p.body = B)
    (hB : B.isEmpty = false) {body : List Stmt}
    (hbody : Block.Inlines t B (some line) (lineOf? π'.fragments c'.unit) B body) :
    Inlines t B (π.interpret line p) (π'.advance.enter body none) := by
  have hadopt := h.adopt line p
  have hc' : ∀ u ∈ c'.unit, u < π'.nextFragment := h.fresh' π'.top mem_cons_self c' (hw ▸ mem_cons_self)
  have hunit : π'.advance.top.head?.bind unit = c'.unit := by
    unfold Place.advance Place.onTop
    rw [hw]
    rfl
  have hnew : Keep t B (π.interpret line p) π' (.at B 0 (some π.nextFragment)) ⟨body, 0, c'.unit, none⟩ := by
    refine ⟨?_, rfl, rfl, ?_, hc'⟩
    · have hline := π.lineOf?_new line p (units_lt h.fresh)
      show Block.Inlines t B (lineOf? (π.interpret line p).fragments (some π.nextFragment)) _ B body
      rw [hline]
      exact hbody
    · rintro _ ⟨⟩
      exact Nat.lt_succ_self _
  refine ⟨h.body, ?_, hadopt.callers⟩
  show Forall₂ (Keep t B (π.interpret line p) π')
    ((if p.body.isEmpty then [] else [.at p.body 0 (some π.nextFragment)]) ++ π.advance.top)
    (⟨body, 0, π'.advance.top.head?.bind unit, none⟩ :: π'.advance.top)
  rw [hp, hB, hunit]
  exact .cons hnew hadopt.top

theorem interpret (line : Nat) (p : Program) : Inlines t B (π.interpret line p) (π'.interpret line p) := by
  have hadopt := h.adopt line p
  have hunits : ∀ {cs : List Cursor} {c : Cursor}, cs ∈ π'.advance.top :: π'.advance.callers → c ∈ cs →
      ∀ u ∈ c.unit, u ∈ π'.units := by
    intro cs c hcs hc
    rw [← π'.units_advance]
    exact mem_units hcs hc
  have hkeep : ∀ {c c' : Cursor}, (∀ u ∈ c'.unit, u ∈ π'.units) → Keep t B (π.interpret line p) π' c c' →
      Keep t B (π.interpret line p) (π'.interpret line p) c c' := fun hlive hc => keep_right hlive hc
  have htop : Forall₂ (Keep t B (π.interpret line p) (π'.interpret line p)) π.advance.top π'.advance.top :=
    forall₂_imp_mem hadopt.top fun _ hc => hkeep (hunits mem_cons_self hc)
  refine ⟨h.body, ?_, ?_⟩
  · show Forall₂ (Keep t B (π.interpret line p) (π'.interpret line p))
      ((if p.body.isEmpty then [] else [.at p.body 0 (some π.nextFragment)]) ++ π.advance.top)
      ((if p.body.isEmpty then [] else [.at p.body 0 (some π'.nextFragment)]) ++ π'.advance.top)
    cases p.body.isEmpty with
    | true => exact htop
    | false =>
      refine .cons ⟨?_, rfl, rfl, ?_, ?_⟩ htop
      · have hline := π.lineOf?_new line p (units_lt h.fresh)
        have hline' := π'.lineOf?_new line p (units_lt h.fresh')
        show Block.Inlines t B (lineOf? (π.interpret line p).fragments (some π.nextFragment))
          (lineOf? (π'.interpret line p).fragments (some π'.nextFragment)) p.body p.body
        rw [hline, hline']
        exact Block.Inlines.refl _ _
      · rintro _ ⟨⟩
        exact Nat.lt_succ_self _
      · rintro _ ⟨⟩
        exact Nat.lt_succ_self _
  · exact forall₂_imp_mem hadopt.callers fun _ hcs hrel =>
      forall₂_imp_mem hrel fun _ hc => hkeep (hunits (mem_cons_of_mem _ hcs) hc)

end Place.Inlines

theorem Place.Inlines.lawful (t : Text) (B : List Stmt) : Place.Lawful (Place.Inlines t B) where
  loops h := h.top.imp fun _ _ hc => hc.loop
  status _ h := ⟨h.body, h.top, h.callers⟩
  advance h := h.advance
  leave n h := ⟨h.body, List.forall₂_drop n h.top, h.callers⟩
  loop _ h := ⟨h.body, forall₂_modifyHead h.top fun hc => ⟨hc.block, hc.pc, rfl, hc.fresh, hc.fresh'⟩, h.callers⟩
  again _ h := ⟨h.body, forall₂_modifyHead h.top fun hc => ⟨hc.block, rfl, rfl, hc.fresh, hc.fresh'⟩, h.callers⟩
  goto k h := ⟨h.body, h.labelled k, h.callers⟩
  call k h := ⟨h.body, h.labelled k, .cons h.top h.callers⟩
  pop h := h.pop
  clear h := ⟨h.body, .nil, .nil⟩
  interpret line p h := h.interpret line p

end Rexx
