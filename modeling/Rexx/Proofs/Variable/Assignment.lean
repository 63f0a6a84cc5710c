import Rexx.Proofs.Variable.Sharing

/-!
# `Variable.Assignment` — what a name denotes, and what a write to it changes

A name denotes a variable, a stem, or a tail of a stem (`Spot`); which tail is found anew at each access, from what
the parts of the name stand for at that time.
-/

namespace Rexx

open List VarName Variables

/-! ## Spots -/

inductive Spot where
  | var (name : Text)
  | stem (name : Text)
  | tail (name t : Text)
deriving DecidableEq

namespace Spot

variable {ι : Type}

def slot : Spot → Slot
  | .var a => .var a
  | .stem a | .tail a _ => .stem a

def read? (v : Variables) : Spot → Option Text
  | .var a => v.get? a
  | .stem a => v.getStem? a
  | .tail a t => v.getTail? a t

def default? (v : Variables) : Spot → Option Text
  | .tail a _ => v.getStem? a
  | _ => none

def write (p : ι) : Spot → Option Text → PoolStep ι
  | .var a, some x => .set p a x
  | .var a, none => .drop p a
  | .stem a, some x => .setStem p a x
  | .stem a, none => .dropStem p a
  | .tail a t, some x => .setTail p a t x
  | .tail a t, none => .dropTail p a t

def Covers (k j : Spot) : Prop := k = j ∨ ∃ a t, k = .stem a ∧ j = .tail a t

end Spot

def VarName.spot? (v : Variables) : VarName → Option Spot
  | .constant => none
  | .simple a => some (.var a)
  | .stem a => some (.stem a)
  | .compound a parts => some (.tail a (v.derivedTail parts))

/-! ## Reading what has been written -/

namespace Variables

variable (v : Variables)

def contents (stem : Text) : Stem := (v.stem? stem).getD .empty

theorem getStem?_eq_contents (stem : Text) : v.getStem? stem = (v.contents stem).fallback := by
  unfold getStem? contents
  cases v.stem? stem <;> rfl

theorem getTail?_eq_contents (stem tail : Text) : v.getTail? stem tail = (v.contents stem).get? tail := by
  unfold getTail? contents
  cases v.stem? stem
  · simp [Stem.get?, Stem.empty]
  · rfl

end Variables

namespace Pools

variable {ι : Type} [DecidableEq ι] {w : Pools ι} {p q : ι}

theorem at_put (w : Pools ι) (p : ι) (v : Variables) : (w.put p v).at_ p = v := by
  simp [put, at_]

theorem put_step (w : Pools ι) (p : ι) (k : Spot) (x : Option Text) :
    w.put p ((w.step (k.write p x)).at_ p) = w.step (k.write p x) := by
  cases k <;> cases x <;> exact congrArg (w.put p) (at_put w p _)

omit [DecidableEq ι] in
theorem slot_write (k : Spot) (x : Option Text) : (k.write p x).slot = k.slot := by
  cases k <;> cases x <;> rfl

theorem Tidy.contents_write (h : w.Tidy) {k : Spot} {a : Text} (hk : k.slot = .stem a) (x : Option Text) :
    ((w.step (k.write p x)).at_ p).contents a = stemAfter (k.write p x) ((w.at_ p).contents a) := by
  have hstep (s : PoolStep ι) (hd : s.creates = false → stemAfter s .empty = .empty) :=
    view_step Store.stemAt (h.stems _ (le_refl _)) hd fun c hc => by rw [stemAt_step, cell?_step_receiver, if_pos hc]
  cases k <;> cases hk <;> cases x
  · exact hstep (.dropStem p a) fun _ => rfl
  · exact hstep (.setStem p a _) (by simp [PoolStep.creates])
  · exact hstep (.dropTail p a _) (by simp [stemAfter, Stem.empty])
  · exact hstep (.setTail p a _ _) (by simp [PoolStep.creates])

theorem Tidy.get?_write (h : w.Tidy) (a : Text) (x : Option Text) :
    ((w.step ((Spot.var a).write p x)).at_ p).get? a = x := by
  have hstep (s : PoolStep ι) (hd : s.creates = false → s.varWrite.getD none = none) :=
    view_step (fun st c => st.vars[c]?) (h.vars _ (le_refl _)) hd fun c hc => by
      rw [vars_step, written, cell?_step_receiver, if_pos hc]
  have hget (w : Pools ι) : (w.at_ p).get? a = ((w.cell? p (.var a)).map fun c => w.store.vars[c]?).getD none := by
    rw [get?_eq]
    cases w.cell? p (.var a) <;> rfl
  rw [hget]
  cases x with
  | some x => exact hstep (.set p a x) (by simp [PoolStep.creates])
  | none => exact hstep (.drop p a) fun _ => rfl

theorem Tidy.read?_write_of_covers (h : w.Tidy) {k j : Spot} (hj : k.Covers j) (x : Option Text) :
    j.read? ((w.step (k.write p x)).at_ p) = x.or (k.default? (w.at_ p)) := by
  obtain rfl | ⟨a, t, rfl, rfl⟩ := hj
  · cases k with
    | var a => exact (h.get?_write a x).trans (Option.or_none).symm
    | stem a =>
      rw [Spot.read?, getStem?_eq_contents, h.contents_write rfl]
      cases x <;> rfl
    | tail a t =>
      rw [Spot.read?, getTail?_eq_contents, h.contents_write rfl, Spot.default?, getStem?_eq_contents]
      cases x <;> simp [Spot.write, stemAfter, Stem.get?]
  · rw [Spot.read?, getTail?_eq_contents, h.contents_write rfl]
    cases x <;> simp [Spot.write, stemAfter, Stem.get?, Stem.empty, Spot.default?]

omit [DecidableEq ι] in
theorem SameReading.read? {w' : Pools ι} {j : Spot} (h : w.SameReading p w' q j.slot) :
    j.read? (w.at_ p) = j.read? (w'.at_ q) := by
  cases j with
  | var a => exact h
  | stem a => exact h.1
  | tail a t => exact h.2 t

theorem Tidy.read?_write_of_not_covers (h : w.Tidy) {k j : Spot} (hj : ¬ k.Covers j) (x : Option Text) :
    j.read? ((w.step (k.write p x)).at_ p) = j.read? (w.at_ p) := by
  by_cases hslot : j.slot = k.slot
  · -- only a tail leaves anything in the stem that it belongs to
    cases k with
    | var a => cases j <;> simp_all [Spot.slot, Spot.Covers]
    | stem a => cases j <;> simp_all [Spot.slot, Spot.Covers]
    | tail a t =>
      cases j with
      | var b => cases hslot
      | stem b =>
        cases hslot
        rw [Spot.read?, Spot.read?, getStem?_eq_contents, getStem?_eq_contents, h.contents_write rfl]
        cases x <;> rfl
      | tail b t' =>
        cases hslot
        have ht : t ≠ t' := fun ht => hj (.inl (ht ▸ rfl))
        rw [Spot.read?, Spot.read?, getTail?_eq_contents, getTail?_eq_contents, h.contents_write rfl]
        cases x <;> simp [Spot.write, stemAfter, Stem.get?, Std.TreeMap.getElem?_insert, Std.TreeMap.getElem?_erase, ht]
  · exact (h.sameReading_of_ne ((slot_write k x).symm ▸ hslot)).read?.symm

/-! ## Names -/

variable {v v' : Variables} {n m : Text} {k j : Spot}

theorem peek?_of_spot (h : (ofText n).spot? v = some k) : v.peek? n = k.read? v := by
  unfold peek?
  cases hn : ofText n <;> rw [hn] at h <;> cases h <;> rfl

theorem assign?_of_spot (h : (ofText n).spot? (w.at_ p) = some k) (x : Text) :
    (w.at_ p).assign? n x = some ((w.step (k.write p (some x))).at_ p) := by
  unfold assign?
  cases hn : ofText n <;> rw [hn] at h <;> cases h <;> exact congrArg some (at_put w p _).symm

theorem dropName_of_spot (h : (ofText n).spot? (w.at_ p) = some k) :
    (w.at_ p).dropName n = (w.step (k.write p none)).at_ p := by
  unfold dropName
  cases hn : ofText n <;> rw [hn] at h <;> cases h <;> exact (at_put w p _).symm

end Pools

namespace VarName

def parts : VarName → List Text
  | .compound _ parts => parts
  | _ => []

/-- A write through a name of the first form is one to what a name of the second form denotes: it is the same variable, the
same stem, a tail of it, or the same tail. -/
def Overwrites (v : Variables) : VarName → VarName → Prop
  | .simple a, .simple b | .stem a, .stem b | .stem a, .compound b _ => a = b
  | .compound a parts, .compound b parts' => a = b ∧ v.derivedTail parts = v.derivedTail parts'
  | _, _ => False

/-- A write through a name of the first form may change which tail a name of the second form denotes. -/
def Redirects : VarName → VarName → Prop
  | .simple a, m => a ∈ m.parts ∧ ∀ c ∈ a.head?, ¬ c.isDigit
  | _, _ => False

/-- What a name has after it was dropped: a tail has the value of its stem. -/
def default? (v : Variables) : VarName → Option Text
  | .compound a _ => v.getStem? a
  | _ => none

variable {n m : VarName} {v v' : Variables} {k j : Spot}

theorem default?_of_spot (hn : n.spot? v = some k) : k.default? v = n.default? v := by
  cases n <;> cases hn <;> rfl

theorem overwrites_iff (hn : n.spot? v = some k) (hm : m.spot? v = some j) : n.Overwrites v m ↔ k.Covers j := by
  cases n <;> cases hn <;> cases m <;> cases hm <;> simp [Overwrites, Spot.Covers, eq_comm]

theorem spot?_congr (h : ∀ part ∈ n.parts, v.tailPart part = v'.tailPart part) : n.spot? v = n.spot? v' := by
  cases n with
  | compound a parts => exact congrArg (fun l => some (Spot.tail a (['.'].intercalate l))) (List.map_congr_left h)
  | _ => rfl

theorem splits_at_point {a : Text} (ha : '.' ∉ a) (rest : Text) :
    (a ++ '.' :: rest).takeWhile (· != '.') = a ∧ (a ++ '.' :: rest).dropWhile (· != '.') = '.' :: rest := by
  have hall : ∀ c ∈ a, (c != '.') = true := fun c hc => by
    rw [bne_iff_ne]
    exact fun h => ha (h ▸ hc)
  constructor
  · rw [takeWhile_append_of_pos hall]
    simp
  · rw [dropWhile_append_of_pos hall]
    rfl

theorem ofText_cases {n : Text} (hn : n.head? ≠ some '.') : ('.' ∉ n ∧ ofText n = .simple n) ∨
    ∃ a rest : Text, '.' ∉ a ∧ n = a ++ '.' :: rest ∧
      (rest = [] ∧ ofText n = .stem n ∨
        rest ≠ [] ∧ ofText n = .compound (a ++ ['.']) (Text.splitAt '.' rest)) := by
  by_cases hmem : '.' ∈ n
  · obtain ⟨a, rest, rfl, ha⟩ := eq_append_cons_of_mem hmem
    obtain ⟨htake, hdrop⟩ := splits_at_point ha rest
    have hne : a ≠ [] := fun h => hn (h ▸ rfl)
    refine .inr ⟨a, rest, ha, rfl, ?_⟩
    unfold ofText
    rw [htake, hdrop]
    cases rest with
    | nil => exact .inl ⟨rfl, by simp [hne]⟩
    | cons c rest => exact .inr ⟨by simp, by simp [hne]⟩
  · have hdrop : n.dropWhile (· != '.') = [] := by
      refine dropWhile_eq_nil_iff.2 fun c hc => ?_
      rw [bne_iff_ne]
      exact fun h => hmem (h ▸ hc)
    refine .inl ⟨hmem, ?_⟩
    unfold ofText
    rw [hdrop]

theorem exists_spot {n : Text} (hn : n.head? ≠ some '.') (v : Variables) : ∃ k, (ofText n).spot? v = some k := by
  obtain ⟨-, h⟩ | ⟨a, rest, -, -, ⟨-, h⟩ | ⟨-, h⟩⟩ := ofText_cases hn <;> rw [h] <;> exact ⟨_, rfl⟩

end VarName

namespace Pools

variable {ι : Type} [DecidableEq ι] {w : Pools ι} {p q : ι} {n m : Text} {k : Spot}

theorem Tidy.tailPart_write (h : w.Tidy) (x : Option Text) {part : Text}
    (hk : k = .var part → ∃ c ∈ part.head?, c.isDigit) (q : ι) :
    (w.at_ q).tailPart part = ((w.step (k.write p x)).at_ q).tailPart part := by
  cases part with
  | nil => rfl
  | cons c part =>
    show (if c.isDigit then _ else ((w.at_ q).get? (c :: part)).getD _) =
      if c.isDigit then _ else (((w.step (k.write p x)).at_ q).get? (c :: part)).getD _
    split
    · rfl
    · rename_i hc
      have hne : Slot.var (c :: part) ≠ (k.write p x).slot := by
        rw [slot_write]
        intro he
        cases k <;> cases he
        obtain ⟨d, hd, hdigit⟩ := hk rfl
        cases hd
        exact hc hdigit
      have hread : (w.at_ q).get? (c :: part) = ((w.step (k.write p x)).at_ q).get? (c :: part) :=
        h.sameReading_of_ne hne
      rw [hread]

theorem Tidy.peek?_write (h : w.Tidy) (hk : (ofText n).spot? (w.at_ p) = some k) (x : Option Text)
    (hm : m.head? ≠ some '.') (hdir : ¬ (ofText n).Redirects (ofText m)) :
    ((ofText n).Overwrites (w.at_ p) (ofText m) →
      ((w.step (k.write p x)).at_ p).peek? m = x.or ((ofText n).default? (w.at_ p))) ∧
    (¬ (ofText n).Overwrites (w.at_ p) (ofText m) →
      ((w.step (k.write p x)).at_ p).peek? m = (w.at_ p).peek? m) := by
  have hparts : ∀ part ∈ (ofText m).parts,
      (w.at_ p).tailPart part = ((w.step (k.write p x)).at_ p).tailPart part := by
    refine fun part hpart => h.tailPart_write x (fun he => ?_) p
    subst he
    by_contra hc
    refine hdir ?_
    cases hn : ofText n <;> rw [hn] at hk <;> cases hk
    exact ⟨hpart, fun c hh hd => hc ⟨c, hh, hd⟩⟩
  obtain ⟨j, hj⟩ := exists_spot hm (w.at_ p)
  have hspot := spot?_congr hparts
  rw [overwrites_iff hk hj, peek?_of_spot hj, peek?_of_spot (hspot.symm.trans hj), ← default?_of_spot hk]
  exact ⟨fun hc => h.read?_write_of_covers hc x, fun hc => h.read?_write_of_not_covers hc x⟩

theorem not_redirects_self (n : VarName) : ¬ n.Redirects n := by
  cases n <;> simp [Redirects, parts]

/-- **Assigning and dropping through a name**, in any pool that there can be. The name has its value afterwards, or what a
dropped name has; so does every name that it overwrites; and a name that it neither overwrites nor redirects has what it
had. -/
theorem assignment_laws (steps : List (PoolStep ι)) (p : ι) {n : Text} (hn : n.head? ≠ some '.') (x : Text) :
    let v := (empty.run steps : Pools ι).at_ p
    ∃ v', v.assign? n x = some v' ∧ v'.peek? n = some x ∧ (v.dropName n).peek? n = (VarName.ofText n).default? v ∧
      ∀ m : Text, m.head? ≠ some '.' → ¬ (VarName.ofText n).Redirects (VarName.ofText m) →
        ((VarName.ofText n).Overwrites v (VarName.ofText m) →
          v'.peek? m = some x ∧ (v.dropName n).peek? m = (VarName.ofText n).default? v) ∧
        (¬ (VarName.ofText n).Overwrites v (VarName.ofText m) →
          v'.peek? m = v.peek? m ∧ (v.dropName n).peek? m = v.peek? m) := by
  intro v
  have htidy : (empty.run steps : Pools ι).Tidy := tidy_empty.run steps
  obtain ⟨k, hk⟩ := VarName.exists_spot hn v
  have hself : (VarName.ofText n).Overwrites v (VarName.ofText n) := (VarName.overwrites_iff hk hk).2 (.inl rfl)
  have hwrite := fun x m hm hdir => htidy.peek?_write (m := m) hk x hm hdir
  rw [dropName_of_spot hk]
  refine ⟨_, assign?_of_spot hk x, ?_, ?_, fun m hm hdir => ⟨fun hov => ?_, fun hov => ?_⟩⟩
  · exact (hwrite (some x) n hn (not_redirects_self _)).1 hself
  · exact (hwrite none n hn (not_redirects_self _)).1 hself
  · exact ⟨(hwrite (some x) m hm hdir).1 hov, (hwrite none m hm hdir).1 hov⟩
  · exact ⟨(hwrite (some x) m hm hdir).2 hov, (hwrite none m hm hdir).2 hov⟩

theorem assignment_laws_crossShared :
    let v := (empty.run crossShared).at_ true
    ("S.A" : Text).head? ≠ some '.' ∧
      ∃ v', v.assign? "S.A" "9" = some v' ∧ v'.peek? "S.A" = some "9" ∧ v'.peek? "S.2" = some "9" ∧
        v'.peek? "A" = v.peek? "A" ∧ (v.dropName "S.A").peek? "S.2" = v.getStem? "S." := by
  obtain ⟨v', hv, hself, -, hother⟩ := assignment_laws crossShared true (n := "S.A") (by decide) "9"
  have htail := (hother "S.2" (by decide) id).1 ⟨rfl, by decide +kernel⟩
  have hvar := (hother "A" (by decide) id).2 id
  exact ⟨by decide, v', hv, hself, htail.1, hvar.1, htail.2⟩

/-! ## Names that are exposed -/

theorem ofName_of_spot {v : Variables} (hn : n.head? ≠ some '.') (hk : (ofText n).spot? v = some k)
    (hdot : ∀ a parts, ofText n = .compound a parts → n.getLast? ≠ some '.') : Slot.ofName n = k.slot := by
  unfold Slot.ofName exposedStem?
  obtain ⟨hmem, h⟩ | ⟨a, rest, ha, rfl, ⟨rfl, h⟩ | ⟨hrest, h⟩⟩ := ofText_cases hn
  · rw [h] at hk
    cases hk
    rw [if_neg fun hl => hmem (mem_of_getLast? hl), if_neg (by simpa using hmem)]
    rfl
  · rw [h] at hk
    cases hk
    rw [if_pos (by simp)]
    rfl
  · rw [h] at hk
    cases hk
    rw [if_neg (hdot _ _ h), if_pos (by simp), (splits_at_point ha rest).1]
    rfl

/-- **A name that is exposed denotes the same in both pools**, as long as the parts of its tail stand for the same there: what
one pool reads, the other one reads, and a value that either of them gives it or takes it, the other one sees. The name
may be a simple variable, a stem, or compound without a point at its end. -/
theorem exposed_name_agrees (before more : List (PoolStep ι)) (p q : ι) {n : Text} (hn : n.head? ≠ some '.')
    (hdot : ∀ a parts, VarName.ofText n = .compound a parts → n.getLast? ≠ some '.')
    (hmore : ∀ r r' name, .expose r r' name ∈ more → r = p ∨ r = q → Slot.ofName name ≠ .ofName n)
    {w : Pools ι} (hw : w = ((empty.run before).step (.expose p q n)).run more)
    (hparts : ∀ part ∈ (VarName.ofText n).parts, (w.at_ p).tailPart part = (w.at_ q).tailPart part) :
    (w.at_ p).peek? n = (w.at_ q).peek? n ∧
    ∀ r t, r = p ∧ t = q ∨ r = q ∧ t = p → ∀ x,
      (∃ v, (w.at_ r).assign? n x = some v ∧ ((w.put r v).at_ t).peek? n = some x) ∧
      ((w.put r ((w.at_ r).dropName n)).at_ t).peek? n = (VarName.ofText n).default? (w.at_ r) := by
  obtain ⟨k, hp⟩ := VarName.exists_spot hn (w.at_ p)
  have hq : (VarName.ofText n).spot? (w.at_ q) = some k := (VarName.spot?_congr hparts).symm.trans hp
  have hslot := ofName_of_spot hn hp hdot
  have htidy : w.Tidy := hw ▸ ((tidy_empty.run before).step _).run more
  have hshares : w.Shares p q k.slot := by
    rw [hw, ← hslot]
    exact shares_after_expose _ p q n (fun r name hr => hmore p r name hr (.inl rfl)) fun r name hr =>
      hmore q r name hr (.inr rfl)
  refine ⟨?_, fun r t hrt x => ?_⟩
  · rw [peek?_of_spot hp, peek?_of_spot hq]
    exact hshares.sameReading.read?
  · -- what is written through `r`, and then read through `r` itself, is read through `t`
    obtain ⟨hr, ht, c, hcr, hct⟩ : (VarName.ofText n).spot? (w.at_ r) = some k ∧
        (VarName.ofText n).spot? (w.at_ t) = some k ∧ w.Shares r t k.slot := by
      obtain ⟨rfl, rfl⟩ | ⟨rfl, rfl⟩ := hrt
      · exact ⟨hp, hq, hshares⟩
      · exact ⟨hq, hp, hshares.imp fun _ => And.symm⟩
    have hseen (x : Option Text) : ((w.step (k.write r x)).at_ t).peek? n = x.or ((VarName.ofText n).default? (w.at_ r)) := by
      have hparts' : ∀ part ∈ (VarName.ofText n).parts,
          (w.at_ t).tailPart part = ((w.step (k.write r x)).at_ t).tailPart part := by
        refine fun part hpart => htidy.tailPart_write x (fun he => ?_) t
        subst he
        cases hname : VarName.ofText n <;> rw [hname] at hr hpart <;> cases hr
        cases hpart
      have hcell : ∀ u, w.cell? u k.slot = some c → (w.step (k.write r x)).cell? u k.slot = some c :=
        fun u hu => cell?_step_of_some w _ hu fun r' name he => by cases k <;> cases x <;> cases he
      have hshares' : (w.step (k.write r x)).Shares r t k.slot := ⟨c, hcell r hcr, hcell t hct⟩
      rw [peek?_of_spot ((VarName.spot?_congr hparts').symm.trans ht), ← hshares'.sameReading.read?,
        htidy.read?_write_of_covers (.inl rfl), VarName.default?_of_spot hr]
    refine ⟨⟨_, assign?_of_spot hr x, ?_⟩, ?_⟩
    · rw [put_step]
      exact hseen (some x)
    · rw [dropName_of_spot hr, put_step]
      exact hseen none

theorem exposed_name_agrees_crossShared :
    let w := ((empty.run crossShared).step (.expose false true "S.A")).run [.set true "B" "1"]
    (w.at_ false).peek? "S.A" = (w.at_ true).peek? "S.A" ∧
      ∃ v, (w.at_ false).assign? "S.A" "9" = some v ∧ ((w.put false v).at_ true).peek? "S.A" = some "9" := by
  have h := exposed_name_agrees crossShared [.set true "B" "1"] false true (n := "S.A") (by decide)
    (fun _ _ _ => by decide) (by simp) rfl fun part hpart => by
      obtain rfl : part = "A" := List.mem_singleton.1 hpart
      decide +kernel
  exact ⟨h.1, (h.2 false true (.inl ⟨rfl, rfl⟩) "9").1⟩

theorem exposed_name_disagrees :
    let w : Pools Bool := empty.step (.expose true false "A.B.")
    (w.at_ true).derivedName "A.B." = (w.at_ false).derivedName "A.B." ∧
      (((w.at_ true).assign? "A.B." "5").map fun v =>
        (((w.put true v).at_ true).peek? "A.B.", ((w.put true v).at_ false).peek? "A.B.")) =
        some (some ("5" : Text), none) := by
  decide +kernel

end Pools

end Rexx
