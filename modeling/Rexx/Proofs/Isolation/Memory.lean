import Rexx.Proofs.Host.Policy

/-!
# `Isolation.Memory` — who can reach which cells

Frames share cells by way of PROCEDURE EXPOSE, and through any number of frames.
-/

namespace Rexx

open List Pool Store Variables

/-! ## Sharing -/

/-- The name under which PROCEDURE shares a stem for a listed name: the name itself if it ends in a point, and otherwise the
part up to the first point if it has one. -/
def exposedStem? (name : Text) : Option Text :=
  if name.getLast? = some '.' then some name
  else if name.contains '.' then some (name.takeWhile (· != '.') ++ ['.'])
  else none

def exposedStems (names : List Text) : List Text := names.filterMap exposedStem?

namespace Store

abbrev Pair := Store × Pool × Pool

structure Shares (N M : Text → Prop) (a b : Pair) : Prop where
  next : a.1.next ≤ b.1.next
  vars : b.1.vars = a.1.vars
  stems : b.1.stems = a.1.stems
  sourceVars : a.2.2.var?.Grows b.2.2.var? a.1.next
  sourceStems : a.2.2.stem?.Grows b.2.2.stem? a.1.next
  otherVars : ∀ x, ¬ N x → b.2.2.var? x = a.2.2.var? x
  otherStems : ∀ x, ¬ M x → b.2.2.stem? x = a.2.2.stem? x
  sharerVars : ∀ {x i}, b.2.1.var? x = some i → a.2.1.var? x = some i ∨ (N x ∧ b.2.2.var? x = some i)
  sharerStems : ∀ {x i}, b.2.1.stem? x = some i → a.2.1.stem? x = some i ∨ (M x ∧ b.2.2.stem? x = some i)
  tidy : a.2.2.Tidy a.1 → b.2.2.Tidy b.1

variable {N M : Text → Prop} {a b c : Pair}

theorem Shares.refl (a : Pair) : Shares N M a a :=
  ⟨le_refl _, rfl, rfl, .refl _ _, .refl _ _, fun _ _ => rfl, fun _ _ => rfl, .inl, .inl, id⟩

theorem Shares.trans (h : Shares N M a b) (h' : Shares N M b c) : Shares N M a c where
  next := h.next.trans h'.next
  vars := h'.vars.trans h.vars
  stems := h'.stems.trans h.stems
  sourceVars := h.sourceVars.trans h'.sourceVars h.next
  sourceStems := h.sourceStems.trans h'.sourceStems h.next
  otherVars x hx := (h'.otherVars x hx).trans (h.otherVars x hx)
  otherStems x hx := (h'.otherStems x hx).trans (h.otherStems x hx)
  sharerVars hx := by
    obtain hx | hx := h'.sharerVars hx
    · obtain hx | ⟨hn, hx⟩ := h.sharerVars hx
      · exact .inl hx
      · exact .inr ⟨hn, h'.sourceVars.kept hx⟩
    · exact .inr hx
  sharerStems hx := by
    obtain hx | hx := h'.sharerStems hx
    · obtain hx | ⟨hn, hx⟩ := h.sharerStems hx
      · exact .inl hx
      · exact .inr ⟨hn, h'.sourceStems.kept hx⟩
    · exact .inr hx
  tidy ht := h'.tidy (h.tidy ht)

variable (v : Variables) (st : Store) (sharer source : Pool)

theorem varCell_other (name x : Text) (hx : name ≠ x) : (v.store.varCell v.pool name).2.2.var? x = v.pool.var? x := by
  unfold varCell
  split
  · rfl
  · dsimp only
    rw [var?_insert, if_neg hx]

theorem stemCell_other (stem x : Text) (hx : stem ≠ x) :
    (v.store.stemCell v.pool stem).2.2.stem? x = v.pool.stem? x := by
  unfold stemCell
  split
  · rfl
  · dsimp only
    rw [stem?_insert, if_neg hx]

theorem varCell_store (p : Pool) (name : Text) :
    (st.varCell p name).2.1.vars = st.vars ∧ (st.varCell p name).2.1.stems = st.stems ∧
      (st.varCell p name).2.2.stems = p.stems := by
  unfold varCell
  split <;> exact ⟨rfl, rfl, rfl⟩

theorem stemCell_store (p : Pool) (stem : Text) :
    (st.stemCell p stem).2.1.vars = st.vars ∧ (st.stemCell p stem).2.1.stems = st.stems ∧
      (st.stemCell p stem).2.2.vars = p.vars := by
  unfold stemCell
  split <;> exact ⟨rfl, rfl, rfl⟩

theorem exposeStem_shares {stem : Text} (hm : M stem) :
    Shares N M (st, sharer, source) (st.exposeStem sharer source stem) := by
  obtain ⟨hgrows, hcell⟩ := Grows.stemCell ⟨st, source⟩ stem
  obtain ⟨hvars, hstems, hother⟩ := stemCell_store st source stem
  unfold exposeStem
  refine ⟨hgrows.next, hvars, hstems, hgrows.vars, hgrows.stems, fun x _ => ?_, fun x hx => ?_, .inl, fun {x i} hx => ?_,
    hgrows.tidy⟩
  · simp only [var?, hother]
  · refine stemCell_other ⟨st, source⟩ stem x ?_
    rintro rfl
    exact hx hm
  · dsimp only at hx
    rw [stem?_insert] at hx
    split at hx
    · rename_i heq
      subst heq
      exact .inr ⟨hm, hcell.trans hx⟩
    · exact .inl hx

theorem expose_shares {name : Text} (hn : exposedStem? name = none → N name)
    (hm : ∀ stem, exposedStem? name = some stem → M stem) :
    Shares N M (st, sharer, source) (st.expose sharer source name) := by
  unfold expose
  unfold exposedStem? at hn hm
  split
  · rename_i hp
    rw [if_pos hp] at hm
    exact exposeStem_shares st sharer source (hm _ rfl)
  · rename_i hp
    rw [if_neg hp] at hn hm
    split
    · rename_i hc
      rw [if_pos hc] at hm
      exact exposeStem_shares st sharer source (hm _ rfl)
    · rename_i hc
      rw [if_neg hc] at hn
      have hname := hn rfl
      obtain ⟨hgrows, hcell⟩ := Grows.varCell ⟨st, source⟩ name
      obtain ⟨hvars, hstems, hother⟩ := varCell_store st source name
      refine ⟨hgrows.next, hvars, hstems, hgrows.vars, hgrows.stems, fun x hx => ?_, fun x _ => ?_, fun {x i} hx => ?_,
        .inl, hgrows.tidy⟩
      · refine varCell_other ⟨st, source⟩ name x ?_
        rintro rfl
        exact hx hname
      · simp only [Pool.stem?, hother]
      · dsimp only at hx
        rw [var?_insert] at hx
        split at hx
        · rename_i heq
          subst heq
          exact .inr ⟨hname, hcell.trans hx⟩
        · exact .inl hx

def share (names : List Text) (a : Pair) : Pair :=
  names.foldl (fun (st, sharer, source) name => st.expose sharer source name) a

theorem share_shares (names : List Text) (a : Pair) (hn : ∀ x ∈ names, N x) (hm : ∀ x ∈ exposedStems names, M x) :
    Shares N M a (share names a) := by
  induction names generalizing a with
  | nil => exact .refl a
  | cons name names ih =>
    have hfirst : Shares N M a (a.1.expose a.2.1 a.2.2 name) :=
      expose_shares a.1 a.2.1 a.2.2 (fun _ => hn name mem_cons_self) fun stem hs =>
        hm stem (mem_filterMap.2 ⟨name, mem_cons_self, hs⟩)
    refine hfirst.trans (ih _ (fun x hx => hn x (mem_cons_of_mem _ hx)) fun x hx => hm x ?_)
    obtain ⟨y, hy, hyx⟩ := mem_filterMap.1 hx
    exact mem_filterMap.2 ⟨y, mem_cons_of_mem _ hy, hyx⟩

end Store

/-! ## Moves -/

namespace Memory

inductive Move (H : Policy) (A : Memory → List Text → Prop) (d : Nat) : Memory → Memory → Prop where
  | write {a b : Memory} (h : Write H a b) : Move H A d a b
  | push {st : Store} {s : Stack} {f : Frame} {site : Site} {needsValue : Bool} (pool : f.pool = .empty) :
      Move H A d (st, s) (st, ⟨f, ⟨s.top, site, needsValue⟩ :: s.callers⟩)
  | pop {st : Store} {top : Frame} {c : Caller} {cs : List Caller} (above : d ≤ cs.length) :
      Move H A d (st, ⟨top, c :: cs⟩) (st, ⟨c.frame, cs⟩)
  | share {st : Store} {top : Frame} {c : Caller} {cs : List Caller} {names : List Text} {b : Store.Pair}
      (allowed : A (st, ⟨top, c :: cs⟩) names) (shares : b = Store.share names (st, top.pool, c.frame.pool)) :
      Move H A d (st, ⟨top, c :: cs⟩)
        (b.1, ⟨{ top with pool := b.2.1 }, { c with frame := { c.frame with pool := b.2.2 } } :: cs⟩)

abbrev Moves (H : Policy) (A : Memory → List Text → Prop) (d : Nat) : Memory → Memory → Prop :=
  Relation.ReflTransGen (Move H A d)

theorem Writes.moves {H : Policy} {A : Memory → List Text → Prop} {d : Nat} {a b : Memory} (h : Writes H a b) :
    Moves H A d a b := by
  induction h with
  | refl => exact .refl
  | tail _ hw ih => exact ih.tail (.write hw)

end Memory

/-! ## One name for a cell -/

namespace Names

variable {P P' : Set Names} {f f' g : Names} {n n' : Nat}

structure OneName (n : Nat) (P : Set Names) : Prop where
  below : ∀ {f}, f ∈ P → ∀ {x i}, f x = some i → i < n
  agree : ∀ {f g}, f ∈ P → g ∈ P → ∀ {x y i}, f x = some i → g y = some i → x = y

theorem OneName.tidy (h : OneName n P) (hf : f ∈ P) : f.Tidy n := ⟨h.below hf, h.agree hf hf⟩

theorem OneName.subset (h : OneName n P) (hp : P' ⊆ P) : OneName n P' :=
  ⟨fun hf => h.below (hp hf), fun hf hg => h.agree (hp hf) (hp hg)⟩

theorem OneName.grow (h : OneName n P) (hf : f ∈ P) (hgrows : f.Grows f' n) (htidy : f'.Tidy n') (hn : n ≤ n') :
    OneName n' (insert f' P) := by
  -- a cell of `f'` that another table names is a cell of `f` already
  have hold : ∀ {g}, g ∈ P → ∀ {x y i}, f' x = some i → g y = some i → x = y := by
    intro g hg x y i hx hy
    cases hfx : f x with
    | none => exact absurd (hgrows.fresh hfx hx) (not_le.2 (h.below hg hy))
    | some j =>
      cases (hgrows.kept hfx).symm.trans hx
      exact h.agree hf hg hfx hy
  constructor
  · rintro g (rfl | hg) x i hi
    · exact htidy.below hi
    · exact lt_of_lt_of_le (h.below hg hi) hn
  · rintro g k (rfl | hg) (rfl | hk) x y i hx hy
    · exact htidy.inj hx hy
    · exact hold hk hx hy
    · exact (hold hg hy hx).symm
    · exact h.agree hg hk hx hy

theorem OneName.share (h : OneName n P) (hf : ∀ {x i}, f x = some i → ∃ g ∈ P, g x = some i) :
    OneName n (insert f P) := by
  constructor
  · rintro g (rfl | hg) x i hi
    · obtain ⟨k, hk, hki⟩ := hf hi
      exact h.below hk hki
    · exact h.below hg hi
  · rintro g k (rfl | hg) (rfl | hk) x y i hx hy
    · obtain ⟨u, hu, hux⟩ := hf hx
      obtain ⟨w, hw, hwy⟩ := hf hy
      exact h.agree hu hw hux hwy
    · obtain ⟨u, hu, hux⟩ := hf hx
      exact h.agree hu hk hux hy
    · obtain ⟨u, hu, huy⟩ := hf hy
      exact h.agree hg hu hx huy
    · exact h.agree hg hk hx hy

theorem OneName.empty (h : OneName n P) (hf : ∀ x, f x = none) : OneName n (insert f P) := by
  refine h.share fun {x i} hi => ?_
  rw [hf] at hi
  cases hi

end Names

namespace Memory

variable {H : Policy} {A : Memory → List Text → Prop} {d : Nat} {a b : Memory}

def varNames (s : Stack) : Set Names := {f | ∃ fr ∈ s.frames, fr.pool.var? = f}

def stemNames (s : Stack) : Set Names := {f | ∃ fr ∈ s.frames, fr.pool.stem? = f}

structure Tidy (a : Memory) : Prop where
  vars : Names.OneName a.1.next (varNames a.2)
  stems : Names.OneName a.1.next (stemNames a.2)

theorem Tidy.pool (h : a.Tidy) {f : Frame} (hf : f ∈ a.2.frames) : f.pool.Tidy a.1 :=
  ⟨h.vars.tidy ⟨f, hf, rfl⟩, h.stems.tidy ⟨f, hf, rfl⟩⟩

theorem names_subset {s s' : Stack} {p : Pool} (h : ∀ f ∈ s'.frames, f.pool = p ∨ ∃ g ∈ s.frames, g.pool = f.pool) :
    varNames s' ⊆ insert p.var? (varNames s) ∧ stemNames s' ⊆ insert p.stem? (stemNames s) := by
  constructor
  · rintro _ ⟨f, hf, rfl⟩
    obtain hp | ⟨g, hg, hgf⟩ := h f hf
    · exact .inl (by rw [hp])
    · exact .inr ⟨g, hg, by rw [hgf]⟩
  · rintro _ ⟨f, hf, rfl⟩
    obtain hp | ⟨g, hg, hgf⟩ := h f hf
    · exact .inl (by rw [hp])
    · exact .inr ⟨g, hg, by rw [hgf]⟩

theorem Tidy.grow {st st' : Store} {s s' : Stack} {g : Frame} {p : Pool} (h : Tidy (st, s)) (hg : g ∈ s.frames)
    (hgrows : Grows ⟨st, g.pool⟩ ⟨st', p⟩)
    (hs : ∀ f ∈ s'.frames, f.pool = p ∨ ∃ g ∈ s.frames, g.pool = f.pool) : Tidy (st', s') := by
  obtain ⟨hv, hst⟩ := names_subset hs
  have htidy := hgrows.tidy (h.pool hg)
  exact ⟨(h.vars.grow ⟨g, hg, rfl⟩ hgrows.vars htidy.vars hgrows.next).subset hv,
    (h.stems.grow ⟨g, hg, rfl⟩ hgrows.stems htidy.stems hgrows.next).subset hst⟩

theorem mem_frames_modifyLast {f : Frame → Frame} {cs : List Caller} {c' : Caller} (h : c' ∈ Stack.modifyLast f cs) :
    c' ∈ cs ∨ ∃ c ∈ cs, cs.getLast? = some c ∧ c'.frame = f c.frame := by
  fun_induction Stack.modifyLast with
  | case1 => exact .inl h
  | case2 c =>
    obtain rfl := mem_singleton.1 h
    exact .inr ⟨c, mem_cons_self, rfl, rfl⟩
  | case3 c cs hne ih =>
    obtain rfl | h := mem_cons.1 h
    · exact .inl mem_cons_self
    · obtain h | ⟨e, he, hl, hf⟩ := ih h
      · exact .inl (mem_cons_of_mem _ h)
      · refine .inr ⟨e, mem_cons_of_mem _ he, ?_, hf⟩
        cases cs with
        | nil => exact absurd rfl hne
        | cons e' es => rwa [getLast?_cons_cons]

theorem Write.tidy (h : Write Grows a b) (ha : a.Tidy) : b.Tidy := by
  cases h with
  | @vars st s v hv =>
    refine ha.grow mem_cons_self hv fun f hf => ?_
    obtain rfl | hf := mem_cons.1 hf
    · exact .inl rfl
    · exact .inr ⟨f, mem_cons_of_mem _ hf, rfl⟩
  | @frame st s f hp =>
    refine ha.grow mem_cons_self (.refl _) fun g hg => ?_
    obtain rfl | hg := mem_cons.1 hg
    · exact .inl hp
    · exact .inr ⟨g, mem_cons_of_mem _ hg, rfl⟩
  | @host st s v hv =>
    refine ha.grow s.main_mem_frames hv fun f hf => ?_
    unfold Stack.modifyMain at hf
    split at hf
    · obtain rfl | hf := mem_cons.1 hf
      · exact .inl rfl
      · exact .inr ⟨f, mem_cons_of_mem _ hf, rfl⟩
    · obtain rfl | hf := mem_cons.1 hf
      · exact .inr ⟨s.top, mem_cons_self, rfl⟩
      · obtain ⟨c', hc', rfl⟩ := mem_map.1 hf
        obtain hc | ⟨c, hc, hl, hf⟩ := mem_frames_modifyLast hc'
        · exact .inr ⟨c'.frame, mem_cons_of_mem _ (mem_map_of_mem hc), rfl⟩
        · exact .inl (by rw [hf])

theorem Move.tidy (h : Move Grows A d a b) (ha : a.Tidy) : b.Tidy := by
  cases h with
  | write h => exact h.tidy ha
  | @push st s f site needsValue hp =>
    have hs : ∀ g ∈ (⟨f, ⟨s.top, site, needsValue⟩ :: s.callers⟩ : Stack).frames,
        g.pool = .empty ∨ ∃ k ∈ s.frames, k.pool = g.pool := by
      intro g hg
      obtain rfl | hg := mem_cons.1 hg
      · exact .inl hp
      · exact .inr ⟨g, hg, rfl⟩
    obtain ⟨hv, hst⟩ := names_subset hs
    exact ⟨(ha.vars.empty fun x => by simp [var?, Pool.empty]).subset hv,
      (ha.stems.empty fun x => by simp [Pool.stem?, Pool.empty]).subset hst⟩
  | @pop st top c cs _ =>
    refine ha.grow (mem_cons_of_mem _ mem_cons_self) (.refl _) fun f hf => ?_
    exact .inr ⟨f, mem_cons_of_mem _ hf, rfl⟩
  | @share st top c cs names b _ hb =>
    have hshares : Shares (fun _ => True) (fun _ => True) (st, top.pool, c.frame.pool) b :=
      hb ▸ share_shares names _ (fun _ _ => trivial) fun _ _ => trivial
    have hc : c.frame ∈ (⟨top, c :: cs⟩ : Stack).frames := mem_cons_of_mem _ mem_cons_self
    have htop : top ∈ (⟨top, c :: cs⟩ : Stack).frames := mem_cons_self
    have htidy := hshares.tidy (ha.pool hc)
    have hvars := ha.vars.grow ⟨c.frame, hc, rfl⟩ hshares.sourceVars htidy.vars hshares.next
    have hstems := ha.stems.grow ⟨c.frame, hc, rfl⟩ hshares.sourceStems htidy.stems hshares.next
    -- the routine has the names that it had, and those of its caller
    have hvars' := hvars.share fun {x i} hx => by
      obtain hx | ⟨-, hx⟩ := hshares.sharerVars hx
      · exact ⟨_, .inr ⟨top, htop, rfl⟩, hx⟩
      · exact ⟨_, .inl rfl, hx⟩
    have hstems' := hstems.share fun {x i} hx => by
      obtain hx | ⟨-, hx⟩ := hshares.sharerStems hx
      · exact ⟨_, .inr ⟨top, htop, rfl⟩, hx⟩
      · exact ⟨_, .inl rfl, hx⟩
    have hframes : ∀ f ∈ (⟨{ top with pool := b.2.1 }, { c with frame := { c.frame with pool := b.2.2 } } :: cs⟩ : Stack).frames,
        f.pool = b.2.1 ∨ f.pool = b.2.2 ∨ f ∈ (⟨top, c :: cs⟩ : Stack).frames := by
      intro f hf
      obtain rfl | hf := mem_cons.1 hf
      · exact .inl rfl
      · obtain rfl | hf := mem_cons.1 hf
        · exact .inr (.inl rfl)
        · exact .inr (.inr (mem_cons_of_mem _ (mem_cons_of_mem _ hf)))
    refine ⟨hvars'.subset ?_, hstems'.subset ?_⟩
    · rintro _ ⟨f, hf, rfl⟩
      obtain hp | hp | hf := hframes f hf
      · exact .inl (by rw [hp])
      · exact .inr (.inl (by rw [hp]))
      · exact .inr (.inr ⟨f, hf, rfl⟩)
    · rintro _ ⟨f, hf, rfl⟩
      obtain hp | hp | hf := hframes f hf
      · exact .inl (by rw [hp])
      · exact .inr (.inl (by rw [hp]))
      · exact .inr (.inr ⟨f, hf, rfl⟩)

theorem Moves.tidy (h : Moves Grows A d a b) (ha : a.Tidy) : b.Tidy := by
  induction h with
  | refl => exact ha
  | tail _ hm ih => exact hm.tidy ih

end Memory

/-! ## A frame that waits -/

namespace Names

variable {n : Nat} {N : Text → Prop} {q p p' f f' : Names} {fs : List Names}

/-- The names `q` of a frame that waits have become `p`, and frames with the names `fs` have come up: these lead to cells
from `n` on, or to cells of names in `N`, which the frame has under the same names. -/
structure Apart (n : Nat) (N : Text → Prop) (q p : Names) (fs : List Names) : Prop where
  owns : ∀ f ∈ fs, ∀ {x i}, f x = some i → n ≤ i ∨ (N x ∧ p x = some i)
  grows : q.Grows p n
  other : ∀ x, ¬ N x → p x = q x

theorem Apart.eq_of_cell (h : Apart n N q p fs) (hq : q.Tidy n) {x y : Text} {i : Nat} (hi : q x = some i)
    (hy : p y = some i) : x = y := by
  cases hqy : q y with
  | none => exact absurd (hq.below hi) (not_lt.2 (h.grows.fresh hqy hy))
  | some j =>
    cases (h.grows.kept hqy).symm.trans hy
    exact hq.inj hi hqy

theorem Apart.unreached (h : Apart n N q p fs) (hq : q.Tidy n) (hf : f ∈ fs) {x : Text} {i : Nat} (hx : ¬ N x)
    (hi : q x = some i) (y : Text) : f y ≠ some i := by
  intro hy
  obtain hn | ⟨hy', hpy⟩ := h.owns f hf hy
  · exact absurd (hq.below hi) (not_lt.2 hn)
  · exact hx (h.eq_of_cell hq hi hpy ▸ hy')

theorem Apart.owns_grown {k : Nat} (h : Apart n N q p fs) (hf : f ∈ fs) (hgrows : f.Grows f' k) (hk : n ≤ k) {x : Text}
    {i : Nat} (hi : f' x = some i) : n ≤ i ∨ (N x ∧ p x = some i) := by
  cases hfx : f x with
  | none => exact .inl (hk.trans (hgrows.fresh hfx hi))
  | some j =>
    cases (hgrows.kept hfx).symm.trans hi
    exact h.owns f hf hfx

end Names

structure Pending where
  store : Store
  frame : Frame
  site : Site
  needsValue : Bool
  callers : List Caller
  vars : Text → Prop
  stems : Text → Prop

namespace Pending

def caller (w : Pending) (p : Pool) : Caller := ⟨{ w.frame with pool := p }, w.site, w.needsValue⟩

end Pending

namespace Memory

variable {A : Memory → List Text → Prop} {a b : Memory} {w : Pending} {p : Pool}

/-- **The frames above a frame that waits**: they reach cells that have come up since, and those that the frame has exposed. -/
structure Isolated (w : Pending) (st : Store) (top : Frame) (above : List Caller) (p : Pool) : Prop where
  tidy : w.frame.pool.Tidy w.store
  next : w.store.next ≤ st.next
  vars : Names.Apart w.store.next w.vars w.frame.pool.var? p.var? ((top :: above.map Caller.frame).map fun f => f.pool.var?)
  stems : Names.Apart w.store.next w.stems w.frame.pool.stem? p.stem?
    ((top :: above.map Caller.frame).map fun f => f.pool.stem?)
  varCells : ∀ x i, ¬ w.vars x → w.frame.pool.var? x = some i → st.vars[i]? = w.store.vars[i]?
  stemCells : ∀ x i, ¬ w.stems x → w.frame.pool.stem? x = some i → st.stemAt i = w.store.stemAt i

def Isolates (w : Pending) (a : Memory) : Prop :=
  ∃ above p, a.2.callers = above ++ w.caller p :: w.callers ∧ Isolated w a.1 a.2.top above p

variable {above : List Caller} {top top' : Frame} {st : Store}

theorem Isolated.grow {st st' : Store} (h : Isolated w st top above p)
    (hgrows : Grows ⟨st, top.pool⟩ ⟨st', top'.pool⟩) : Isolated w st' top' above p where
  tidy := h.tidy
  next := h.next.trans hgrows.next
  vars := by
    refine { h.vars with owns := fun f hf {x i} hi => ?_ }
    obtain rfl | hf := mem_cons.1 hf
    · exact h.vars.owns_grown mem_cons_self hgrows.vars h.next hi
    · exact h.vars.owns f (mem_cons_of_mem _ hf) hi
  stems := by
    refine { h.stems with owns := fun f hf {x i} hi => ?_ }
    obtain rfl | hf := mem_cons.1 hf
    · exact h.stems.owns_grown mem_cons_self hgrows.stems h.next hi
    · exact h.stems.owns f (mem_cons_of_mem _ hf) hi
  varCells x i hx hi :=
    (hgrows.varCells i (lt_of_lt_of_le (h.tidy.vars.below hi) h.next)
      (h.vars.unreached h.tidy.vars mem_cons_self hx hi)).trans (h.varCells x i hx hi)
  stemCells x i hx hi :=
    (hgrows.stemCells i (lt_of_lt_of_le (h.tidy.stems.below hi) h.next)
      (h.stems.unreached h.tidy.stems mem_cons_self hx hi)).trans (h.stemCells x i hx hi)

theorem Isolated.frames {above above' : List Caller} (h : Isolated w st top above p)
    (hs : ∀ f ∈ top' :: above'.map Caller.frame, f.pool = .empty ∨ f ∈ top :: above.map Caller.frame) :
    Isolated w st top' above' p where
  tidy := h.tidy
  next := h.next
  vars := by
    refine { h.vars with owns := fun g hg {x i} hi => ?_ }
    obtain ⟨f, hf, rfl⟩ := mem_map.1 hg
    obtain hp | hf := hs f hf
    · simp [hp, var?, Pool.empty] at hi
    · exact h.vars.owns _ (mem_map_of_mem hf) hi
  stems := by
    refine { h.stems with owns := fun g hg {x i} hi => ?_ }
    obtain ⟨f, hf, rfl⟩ := mem_map.1 hg
    obtain hp | hf := hs f hf
    · simp [hp, Pool.stem?, Pool.empty] at hi
    · exact h.stems.owns _ (mem_map_of_mem hf) hi
  varCells := h.varCells
  stemCells := h.stemCells

theorem Isolated.shareAbove {top : Frame} {c : Caller} {b : Pair}
    {N M : Text → Prop} (h : Isolated w st top (c :: above) p)
    (hb : Shares N M (st, top.pool, c.frame.pool) b) :
    Isolated w b.1 { top with pool := b.2.1 } ({ c with frame := { c.frame with pool := b.2.2 } } :: above) p where
  tidy := h.tidy
  next := h.next.trans hb.next
  vars := by
    have hsource : ∀ {x i}, b.2.2.var? x = some i → w.store.next ≤ i ∨ (w.vars x ∧ p.var? x = some i) :=
      h.vars.owns_grown (mem_cons_of_mem _ mem_cons_self) hb.sourceVars h.next
    refine { h.vars with owns := fun f hf {x i} hi => ?_ }
    obtain rfl | hf := mem_cons.1 hf
    · obtain hx | ⟨-, hx⟩ := hb.sharerVars hi
      · exact h.vars.owns _ mem_cons_self hx
      · exact hsource hx
    · obtain rfl | hf := mem_cons.1 hf
      · exact hsource hi
      · exact h.vars.owns _ (mem_cons_of_mem _ (mem_cons_of_mem _ hf)) hi
  stems := by
    have hsource : ∀ {x i}, b.2.2.stem? x = some i → w.store.next ≤ i ∨ (w.stems x ∧ p.stem? x = some i) :=
      h.stems.owns_grown (mem_cons_of_mem _ mem_cons_self) hb.sourceStems h.next
    refine { h.stems with owns := fun f hf {x i} hi => ?_ }
    obtain rfl | hf := mem_cons.1 hf
    · obtain hx | ⟨-, hx⟩ := hb.sharerStems hi
      · exact h.stems.owns _ mem_cons_self hx
      · exact hsource hx
    · obtain rfl | hf := mem_cons.1 hf
      · exact hsource hi
      · exact h.stems.owns _ (mem_cons_of_mem _ (mem_cons_of_mem _ hf)) hi
  varCells x i hx hi := by
    rw [hb.vars]
    exact h.varCells x i hx hi
  stemCells x i hx hi := by
    unfold stemAt
    rw [hb.stems]
    exact h.stemCells x i hx hi

theorem apart_share {n k : Nat} {N : Text → Prop} {q p p' f f' : Names} (h : Names.Apart n N q p [f])
    (hk : n ≤ k) (hgrows : p.Grows p' k) (hother : ∀ x, ¬ N x → p' x = p x)
    (hf : ∀ {x i}, f' x = some i → f x = some i ∨ (N x ∧ p' x = some i)) : Names.Apart n N q p' [f'] where
  owns g hg x i hi := by
    obtain rfl := mem_singleton.1 hg
    obtain hx | hx := hf hi
    · obtain hn | ⟨hN, hp⟩ := h.owns f mem_cons_self hx
      · exact .inl hn
      · exact .inr ⟨hN, hgrows.kept hp⟩
    · exact .inr hx
  grows := h.grows.trans hgrows hk
  other x hx := (hother x hx).trans (h.other x hx)

theorem Isolated.share {top : Frame} {b : Pair} (h : Isolated w st top [] p)
    (hb : Shares w.vars w.stems (st, top.pool, p) b) : Isolated w b.1 { top with pool := b.2.1 } [] b.2.2 where
  tidy := h.tidy
  next := h.next.trans hb.next
  vars := apart_share h.vars h.next hb.sourceVars hb.otherVars hb.sharerVars
  stems := apart_share h.stems h.next hb.sourceStems hb.otherStems hb.sharerStems
  varCells x i hx hi := by
    rw [hb.vars]
    exact h.varCells x i hx hi
  stemCells x i hx hi := by
    unfold stemAt
    rw [hb.stems]
    exact h.stemCells x i hx hi

/-- **Every move above a waiting frame keeps what it has not exposed**, if the host writes no variables and the routine that
the frame waits for shares only what it may. -/
theorem Move.isolates (hA : ∀ a names, A a names → a.2.callers.length = w.callers.length + 1 →
      (∀ x ∈ names, w.vars x) ∧ ∀ x ∈ exposedStems names, w.stems x)
    (h : Move Eq A (w.callers.length + 1) a b) (ha : Isolates w a) : Isolates w b := by
  obtain ⟨above, p, hc, hi⟩ := ha
  cases h with
  | write h =>
    obtain ⟨hcallers, hgrows⟩ := h.local
    exact ⟨above, p, hcallers.trans hc, hi.grow hgrows⟩
  | @push st s f site needsValue hp =>
    refine ⟨⟨s.top, site, needsValue⟩ :: above, p, congrArg (_ :: ·) hc, hi.frames fun g hg => ?_⟩
    obtain rfl | hg := mem_cons.1 hg
    · exact .inl hp
    · exact .inr hg
  | @pop st top c cs hd =>
    cases above with
    | nil =>
      obtain ⟨-, hcs⟩ := cons.inj hc
      rw [hcs] at hd
      omega
    | cons c' above =>
      obtain ⟨rfl, hcs⟩ := cons.inj hc
      exact ⟨above, p, hcs, hi.frames fun f hf => .inr (mem_cons_of_mem _ hf)⟩
  | @share st top c cs names b hallowed hb =>
    cases above with
    | nil =>
      obtain ⟨rfl, hcs⟩ := cons.inj hc
      obtain ⟨hv, hst⟩ := hA _ _ hallowed (congrArg length hc)
      exact ⟨[], b.2.2, congrArg (_ :: ·) hcs, hi.share (hb ▸ share_shares names _ hv hst)⟩
    | cons c' above =>
      obtain ⟨rfl, hcs⟩ := cons.inj hc
      have hshares : Shares (fun _ => True) (fun _ => True) (st, top.pool, c.frame.pool) b :=
        hb ▸ share_shares names _ (fun _ _ => trivial) fun _ _ => trivial
      exact ⟨_ :: above, p, congrArg (_ :: ·) hcs, hi.shareAbove hshares⟩

theorem Moves.isolates (hA : ∀ a names, A a names → a.2.callers.length = w.callers.length + 1 →
      (∀ x ∈ names, w.vars x) ∧ ∀ x ∈ exposedStems names, w.stems x)
    (h : Moves Eq A (w.callers.length + 1) a b) (ha : Isolates w a) : Isolates w b := by
  induction h with
  | refl => exact ha
  | tail _ hm ih => exact hm.isolates hA ih

theorem isolates_entered {f : Frame} (hp : f.pool = .empty) (hw : w.frame.pool.Tidy w.store) :
    Isolates w (w.store, ⟨f, ⟨w.frame, w.site, w.needsValue⟩ :: w.callers⟩) := by
  refine ⟨[], w.frame.pool, rfl, hw, le_refl _, ⟨?_, .refl _ _, fun _ _ => rfl⟩, ⟨?_, .refl _ _, fun _ _ => rfl⟩,
    fun _ _ _ _ => rfl, fun _ _ _ _ => rfl⟩
  · rintro g hg x i hi
    obtain rfl := mem_singleton.1 hg
    simp [hp, var?, Pool.empty] at hi
  · rintro g hg x i hi
    obtain rfl := mem_singleton.1 hg
    simp [hp, Pool.stem?, Pool.empty] at hi

end Memory

end Rexx
