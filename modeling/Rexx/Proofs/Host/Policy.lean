import Rexx.Machine.Run
import Rexx.Proofs.Module.Loading
import Rexx.Proofs.Target.Switch

/-!
# `Host.Policy` — what host code does to variables

Code of the host may assign variables of the main program. A policy is a relation between the variables before and
after.
-/

namespace Rexx

open Pool Std.TreeMap

/-! ## Names and their cells -/

abbrev Names := Text → Option Nat

/-- The cells of the simple variables of a pool. -/
def Pool.var? (p : Pool) : Names := fun name => p.vars[name]?

def Pool.stem? (p : Pool) : Names := fun name => p.stems[name]?

namespace Names

variable {f f' f'' : Names} {n n' n'' i : Nat} {name : Text}

structure Tidy (f : Names) (n : Nat) : Prop where
  below : ∀ {name i}, f name = some i → i < n
  inj : ∀ {a b i}, f a = some i → f b = some i → a = b

theorem Tidy.mono (h : f.Tidy n) (hn : n ≤ n') : f.Tidy n' := ⟨fun hi => lt_of_lt_of_le (h.below hi) hn, h.inj⟩

theorem Tidy.add (h : f.Tidy n) (hf : ∀ a, f' a = if name = a then some i else f a) (hi : n ≤ i) (hn : i < n') :
    f'.Tidy n' where
  below {a j} ha := by
    rw [hf] at ha
    split at ha
    · cases ha
      exact hn
    · have := h.below ha
      omega
  inj {a b j} ha hb := by
    rw [hf] at ha hb
    split at ha <;> split at hb
    · rename_i ha' hb'
      exact ha'.symm.trans hb'
    · cases ha
      have := h.below hb
      omega
    · cases hb
      have := h.below ha
      omega
    · exact h.inj ha hb

structure Grows (f f' : Names) (n : Nat) : Prop where
  kept : ∀ {name i}, f name = some i → f' name = some i
  fresh : ∀ {name i}, f name = none → f' name = some i → n ≤ i

theorem Grows.refl (f : Names) (n : Nat) : f.Grows f n := ⟨id, fun h h' => (by simp [h] at h')⟩

theorem Grows.trans (h : f.Grows f' n) (h' : f'.Grows f'' n') (hn : n ≤ n') : f.Grows f'' n where
  kept hi := h'.kept (h.kept hi)
  fresh {a i} ha hi := by
    cases ha' : f' a with
    | none => exact hn.trans (h'.fresh ha' hi)
    | some j =>
      cases (h'.kept ha').symm.trans hi
      exact h.fresh ha ha'

theorem Grows.add (hnone : f name = none) (hf : ∀ a, f' a = if name = a then some n else f a) : f.Grows f' n where
  kept {a i} ha := by
    rw [hf, if_neg, ha]
    rintro rfl
    rw [hnone] at ha
    cases ha
  fresh {a i} ha hi := by
    rw [hf] at hi
    split at hi
    · cases hi
      exact le_refl n
    · rw [ha] at hi
      cases hi

theorem Grows.unnamed (h : f.Grows f' n) (hi : i < n) (hno : ∀ a, f a ≠ some i) (a : Text) : f' a ≠ some i := by
  intro ha
  cases hf : f a with
  | none => exact absurd (h.fresh hf ha) (by omega)
  | some j =>
    cases (h.kept hf).symm.trans ha
    exact hno a hf

end Names

theorem Pool.var?_insert (p : Pool) (name a : Text) (i : Nat) :
    var? { p with vars := p.vars.insert name i } a = if name = a then some i else p.var? a := by
  simp [var?, Std.TreeMap.getElem?_insert]

theorem Pool.stem?_insert (p : Pool) (name a : Text) (i : Nat) :
    stem? { p with stems := p.stems.insert name i } a = if name = a then some i else p.stem? a := by
  simp [stem?, Std.TreeMap.getElem?_insert]

theorem Store.stemAt_setStemAt (st : Store) (i j : Nat) (s : Stem) :
    (st.setStemAt i s).stemAt j = if i = j then s else st.stemAt j := by
  simp [Store.stemAt, Store.setStemAt, getD_insert]

/-! ## Pools -/

structure Pool.Tidy (p : Pool) (st : Store) : Prop where
  vars : p.var?.Tidy st.next
  stems : p.stem?.Tidy st.next

namespace Variables

variable {v v' v'' : Variables}

/-- **What assigning and dropping may change.** -/
structure Grows (v v' : Variables) : Prop where
  next : v.store.next ≤ v'.store.next
  vars : v.pool.var?.Grows v'.pool.var? v.store.next
  stems : v.pool.stem?.Grows v'.pool.stem? v.store.next
  varCells : ∀ i < v.store.next, (∀ name, v.pool.var? name ≠ some i) → v'.store.vars[i]? = v.store.vars[i]?
  stemCells : ∀ i < v.store.next, (∀ name, v.pool.stem? name ≠ some i) → v'.store.stemAt i = v.store.stemAt i
  tidy : v.pool.Tidy v.store → v'.pool.Tidy v'.store

namespace Grows

theorem refl (v : Variables) : v.Grows v :=
  ⟨le_refl _, .refl _ _, .refl _ _, fun _ _ _ => rfl, fun _ _ _ => rfl, id⟩

theorem trans (h : v.Grows v') (h' : v'.Grows v'') : v.Grows v'' where
  next := h.next.trans h'.next
  vars := h.vars.trans h'.vars h.next
  stems := h.stems.trans h'.stems h.next
  varCells i hi hno := by
    rw [h'.varCells i (lt_of_lt_of_le hi h.next) (h.vars.unnamed hi hno), h.varCells i hi hno]
  stemCells i hi hno := by
    rw [h'.stemCells i (lt_of_lt_of_le hi h.next) (h.stems.unnamed hi hno), h.stemCells i hi hno]
  tidy hv := h'.tidy (h.tidy hv)

theorem varCell (v : Variables) (name : Text) :
    v.Grows ⟨(v.store.varCell v.pool name).2.1, (v.store.varCell v.pool name).2.2⟩ ∧
      (v.store.varCell v.pool name).2.2.var? name = some (v.store.varCell v.pool name).1 := by
  unfold Store.varCell
  cases hp : v.pool.vars[name]? with
  | some i => exact ⟨.refl v, hp⟩
  | none =>
    refine ⟨⟨Nat.le_succ _, .add hp (v.pool.var?_insert name · _), .refl _ _, fun _ _ _ => rfl, fun _ _ _ => rfl, ?_⟩, ?_⟩
    · intro hv
      exact ⟨hv.vars.add (v.pool.var?_insert name · _) (le_refl _) (Nat.lt_succ_self _), hv.stems.mono (Nat.le_succ _)⟩
    · rw [var?_insert, if_pos rfl]

theorem stemCell (v : Variables) (stem : Text) :
    v.Grows ⟨(v.store.stemCell v.pool stem).2.1, (v.store.stemCell v.pool stem).2.2⟩ ∧
      (v.store.stemCell v.pool stem).2.2.stem? stem = some (v.store.stemCell v.pool stem).1 := by
  unfold Store.stemCell
  cases hp : v.pool.stems[stem]? with
  | some i => exact ⟨.refl v, hp⟩
  | none =>
    refine ⟨⟨Nat.le_succ _, .refl _ _, .add hp (v.pool.stem?_insert stem · _), fun _ _ _ => rfl, fun _ _ _ => rfl, ?_⟩, ?_⟩
    · intro hv
      exact ⟨hv.vars.mono (Nat.le_succ _), hv.stems.add (v.pool.stem?_insert stem · _) (le_refl _) (Nat.lt_succ_self _)⟩
    · rw [stem?_insert, if_pos rfl]

theorem setCell {name : Text} {i : Nat} (h : v.pool.var? name = some i) (vars : Std.TreeMap Nat Text)
    (hother : ∀ j, i ≠ j → vars[j]? = v.store.vars[j]?) :
    v.Grows ⟨{ v.store with vars }, v.pool⟩ where
  next := le_refl _
  vars := .refl _ _
  stems := .refl _ _
  varCells j _ hno := hother j fun hij => hno name (hij ▸ h)
  stemCells _ _ _ := rfl
  tidy hv := ⟨hv.vars, hv.stems⟩

theorem setStemAt {stem : Text} {i : Nat} (h : v.pool.stem? stem = some i) (s : Stem) :
    v.Grows ⟨v.store.setStemAt i s, v.pool⟩ where
  next := le_refl _
  vars := .refl _ _
  stems := .refl _ _
  varCells _ _ _ := rfl
  stemCells j _ hno := by
    rw [Store.stemAt_setStemAt, if_neg]
    rintro rfl
    exact hno stem h
  tidy hv := ⟨hv.vars, hv.stems⟩

theorem set (v : Variables) (name value : Text) : v.Grows (v.set name value) := by
  obtain ⟨hcell, hname⟩ := varCell v name
  refine hcell.trans (setCell hname ((v.store.varCell v.pool name).2.1.vars.insert _ value) fun j hij => ?_)
  rw [Std.TreeMap.getElem?_insert, if_neg (by rwa [compare_eq_iff_eq])]

theorem drop (v : Variables) (name : Text) : v.Grows (v.drop name) := by
  unfold Variables.drop
  cases hp : v.pool.vars[name]? with
  | none => exact .refl v
  | some i => exact setCell hp _ fun j hij => by simp [getElem?_erase, hij]

theorem modifyStem (v : Variables) (stem : Text) (f : Stem → Stem) : v.Grows (v.modifyStem stem f) := by
  obtain ⟨hcell, hname⟩ := stemCell v stem
  exact hcell.trans (setStemAt hname _)

theorem modifyStemIfAny (v : Variables) (stem : Text) (f : Stem → Stem) : v.Grows (v.modifyStemIfAny stem f) := by
  unfold Variables.modifyStemIfAny
  cases hp : v.pool.stems[stem]? with
  | none => exact .refl v
  | some i => exact setStemAt hp _

theorem assign? {name value : Text} (h : v.assign? name value = some v') : v.Grows v' := by
  unfold Variables.assign? at h
  split at h
  · cases h
  · cases h
    exact .set v _ value
  · cases h
    exact .modifyStem v _ _
  · cases h
    exact .modifyStem v _ _

theorem dropName (v : Variables) (name : Text) : v.Grows (v.dropName name) := by
  unfold Variables.dropName
  split
  · exact .refl v
  · exact .drop v _
  · exact .modifyStemIfAny v _ _
  · exact .modifyStemIfAny v _ _

theorem dropNames (v : Variables) (names : List Text) : v.Grows (names.foldl Variables.dropName v) := by
  induction names generalizing v with
  | nil => exact .refl v
  | cons name names ih => exact (dropName v name).trans (ih _)

theorem publish (v : Variables) (r : Outcome) : v.Grows (v.publish r) := by
  unfold Variables.publish
  split
  · exact (set _ _ _).trans ((set _ _ _).trans (drop _ _))
  · exact (set _ _ _).trans ((set _ _ _).trans (set _ _ _))

theorem describe (v : Variables) (c : Condition) (line : Nat) : v.Grows (Interpreter.describe v c line) := by
  unfold Interpreter.describe
  split
  · exact (set _ _ _).trans ((set _ _ _).trans (set _ _ _))
  · exact (set _ _ _).trans (set _ _ _)

end Grows

end Variables

/-! ## Where code of the host comes from -/

variable {σ : Type}

structure Provisions.All (F : HostFunction σ → Prop) (O : HostOperation σ → Prop) (T : Target σ → Prop) (p : Provisions σ) :
    Prop where
  functions : ∀ (name : Text) e, p.functions[name]? = some e → F e.code
  operations : ∀ (name : Text) e, p.operations[name]? = some e → O e.code
  targets : ∀ (name : Text) b, p.targets[name]? = some b → T b.target

structure Declaration.All (F : HostFunction σ → Prop) (O : HostOperation σ → Prop) (T : Target σ → Prop) (d : Declaration σ) :
    Prop where
  functions : ∀ f ∈ d.functions, F f.code
  operations : ∀ f ∈ d.operations, O f.code
  target : ∀ t, d.target = some t → T t

theorem Registry.switch_from {r r' : Registry σ} {name auth asName : Text} {target : Option Text}
    (hs : r.switch name auth asName = .ok (r', target)) {k : Text} {b : Binding σ} (hb : r'[k]? = some b) :
    ∃ (k' : Text) (b' : Binding σ), r[k']? = some b' ∧ b.target = b'.target := by
  obtain rfl | ⟨b', hb', heq, -⟩ := switch_spec hs
  · exact ⟨k, b, hb, rfl⟩
  · generalize Text.upper (if asName.isEmpty then name else asName) = key at heq
    rw [heq, Std.TreeMap.getElem?_insert] at hb
    split at hb
    · cases hb
      exact ⟨_, b', hb', rfl⟩
    · exact ⟨k, b, hb, rfl⟩

inductive Loader.Offers (l : Loader σ) (files : Files (SharedObject σ)) (d : Detect σ) : Prop where
  | resolver {r : Text → Option (Image σ)} {spec : Text} {image : Image σ} (mem : r ∈ l.resolvers)
      (resolves : r spec = some image) (detect : image.detect = some d)
  | shelf {name : Text} (shelved : l.shelf[name]? = some (some d))
  | file {path : Text} {place : List Text} {content : SharedObject σ}
      (found : files.find? path = some (.file place content)) (detect : content.detect = some d)

namespace Loader

variable {l : Loader σ} {d : Detect σ}

theorem openFile_offers {files : Files (SharedObject σ)} {path : Text} {image : Image σ}
    (h : openFile files path = .ok image) (hd : image.detect = some d) : l.Offers files d := by
  unfold openFile at h
  split at h
  · cases h
  · cases h
  · rename_i place content hfile
    split at h
    · cases h
    · rename_i detect hdetect
      cases h
      cases hd
      exact .file hfile hdetect

theorem resolve_offers {sp : SearchPath σ} {spec : Text} {image : Image σ}
    (h : l.resolve sp spec = .ok image) (hd : image.detect = some d) : l.Offers sp.files d := by
  unfold resolve at h
  split at h
  · rename_i image' hr
    cases h
    obtain ⟨r, hr, hspec⟩ := List.exists_of_findSome?_eq_some hr
    exact .resolver hr hspec hd
  · split at h
    · split at h
      · rename_i detect hs
        cases h
        cases hd
        exact .shelf hs
      · cases h
    · split at h
      · exact openFile_offers h hd
      · split at h
        · exact openFile_offers h hd
        · split at h
          · rename_i detect hs
            cases h
            cases hd
            exact .shelf hs
          · cases h

variable {s : State σ} {sp : SearchPath σ}

theorem load_offers {spec as : Text} (h : (load s sp spec as).2.loader.Offers sp.files d) :
    s.loader.Offers sp.files d := by
  obtain ⟨merged, hl⟩ := load_loads s sp spec as
  generalize (load s sp spec as).1 = reg at hl
  generalize (load s sp spec as).2 = s' at h hl
  have hsame : s'.loader.resolvers = s.loader.resolvers ∧ s'.loader.shelf = s.loader.shelf := by
    cases hl <;> exact ⟨rfl, rfl⟩
  cases h with
  | resolver hr hspec hd => exact .resolver (hsame.1 ▸ hr) hspec hd
  | shelf hs => exact .shelf (hsame.2 ▸ hs)
  | file hf hd => exact .file hf hd

/-- **Loading a module** makes no code: what holds of all code that is registered and of all that can be declared goes on to
hold. -/
theorem load_all {F : HostFunction σ → Prop} {O : HostOperation σ → Prop} {T : Target σ → Prop} (spec as : Text)
    (hp : s.provisions.All F O T)
    (hd : ∀ detect d host, s.loader.Offers sp.files detect → detect s.host = .ok d host → d.All F O T) :
    (load s sp spec as).2.provisions.All F O T := by
  obtain ⟨merged, hl⟩ := load_loads s sp spec as
  generalize (load s sp spec as).1 = reg at hl
  generalize (load s sp spec as).2 = s' at hl ⊢
  cases hl with
  | @merged image d host p reg hdeclares _ hmerged =>
    obtain ⟨detect, hdetect, hdetected⟩ := hdeclares.detected
    have hall := hd detect d host (resolve_offers hdeclares.resolved hdetect) hdetected
    obtain ⟨-, -, htakes⟩ := merge_spec hmerged
    refine ⟨fun name e he => ?_, fun name e he => ?_, fun name b hb => ?_⟩
    · obtain he | ⟨f, hf, hcode⟩ := htakes.functions.cases he
      · exact hp.functions name e he
      · rw [hcode]
        exact hall.functions f hf
    · obtain he | ⟨f, hf, hcode⟩ := htakes.operations.cases he
      · exact hp.operations name e he
      · rw [hcode]
        exact hall.operations f hf
    · by_cases hname : ∃ t, d.target = some t ∧ t.nameAs as = name
      · obtain ⟨t, ht, rfl⟩ := hname
        cases (htakes.target t ht).symm.trans hb
        exact hall.target t ht
      · exact hp.targets name b ((htakes.otherTargets name fun t ht h => hname ⟨t, ht, h⟩).symm.trans hb)
  | _ => exact hp

end Loader

end Rexx

/-! ## What host code does to variables -/

namespace Rexx

variable {σ α : Type}

abbrev Policy := Variables → Variables → Prop

def HostCode.Keeps (H : Policy) (code : HostCode σ α) : Prop :=
  ∀ view, match code view with
    | .ok _ view' | .error _ view' => H view.main view'.main

structure Declaration.Keeps (H : Policy) (d : Declaration σ) : Prop where
  functions : ∀ f ∈ d.functions, ∀ a, (f.code a).Keeps H
  operations : ∀ f ∈ d.operations, ∀ params, (f.code params).Keeps H
  target : ∀ t, d.target = some t → ∀ cmd params ctx, (t.handle cmd params ctx).Keeps H

def Detect.Keeps (H : Policy) (detect : Detect σ) : Prop := ∀ host d host', detect host = .ok d host' → d.Keeps H

structure Provisions.Keeps (H : Policy) (p : Provisions σ) : Prop where
  functions : ∀ (name : Text) (f : Entry (HostFunction σ)), p.functions[name]? = some f → ∀ a, (f.code a).Keeps H
  operations : ∀ (name : Text) (f : Entry (HostOperation σ)), p.operations[name]? = some f →
    ∀ params, (f.code params).Keeps H
  targets : ∀ (name : Text) (b : Binding σ), p.targets[name]? = some b →
    ∀ cmd params ctx, (b.target.handle cmd params ctx).Keeps H

structure Loader.Keeps (H : Policy) (l : Loader σ) (files : Files (SharedObject σ)) : Prop where
  resolvers : ∀ r ∈ l.resolvers, ∀ spec image, r spec = some image →
    ∀ d, image.detect = some d → Detect.Keeps H d
  shelf : ∀ (name : Text) (d : Detect σ), l.shelf[name]? = some (some d) → Detect.Keeps H d
  files : ∀ path place content d, files.find? path = some (.file place content) → content.detect = some d →
    Detect.Keeps H d

/-- **All code that the script can come to call keeps to the policy.** -/
structure Machine.Hosts (H : Policy) (m : Machine σ) : Prop where
  provisions : Provisions.Keeps H ⟨m.interp.functions, m.interp.operations, m.targets⟩
  loader : m.interp.loader.Keeps H m.around.files

namespace Loader

variable {H : Policy}

theorem Keeps.offers {l : Loader σ} {files : Files (SharedObject σ)} {d : Detect σ} (h : l.Keeps H files)
    (hd : l.Offers files d) : Detect.Keeps H d := by
  cases hd with
  | resolver hr hspec hd => exact h.resolvers _ hr _ _ hspec d hd
  | shelf hs => exact h.shelf _ d hs
  | file hf hd => exact h.files _ _ _ d hf hd

end Loader

namespace Machine

variable {H : Policy} {m : Machine σ}

theorem Hosts.load (h : m.Hosts H) (spec as : Text) : (m.load spec as).2.Hosts H := by
  have hall : (Loader.load m.loading m.searchPath spec as).2.provisions.All (fun f => ∀ a, (f a).Keeps H)
      (fun o => ∀ params, (o params).Keeps H) fun t => ∀ cmd params ctx, (t.handle cmd params ctx).Keeps H := by
    refine Loader.load_all spec as ⟨h.provisions.functions, h.provisions.operations, h.provisions.targets⟩ ?_
    intro detect d host hoffer hd
    have hkeeps := h.loader.offers hoffer m.host d host hd
    exact ⟨hkeeps.functions, hkeeps.operations, hkeeps.target⟩
  exact ⟨⟨hall.functions, hall.operations, hall.targets⟩, fun r hr spec image hspec d hd =>
    h.loader.offers (Loader.load_offers (.resolver hr hspec hd)), fun name d hs =>
    h.loader.offers (Loader.load_offers (.shelf hs)), h.loader.files⟩

theorem Hosts.switch {name auth asName : Text} {targets : Registry σ} {target : Option Text} (h : m.Hosts H)
    (hs : m.targets.switch name auth asName = .ok (targets, target)) : Hosts H { m with targets } := by
  refine ⟨⟨h.provisions.functions, h.provisions.operations, fun k b hb => ?_⟩, h.loader⟩
  obtain ⟨k', b', hb', htarget⟩ := Registry.switch_from hs hb
  rw [htarget]
  exact h.provisions.targets k' b' hb'

end Machine

end Rexx

/-! ## Writes to the frame being executed -/

namespace Rexx

namespace Stack

theorem modifyLast_self {cs : List Caller} {c : Caller} (h : cs.getLast? = some c) :
    modifyLast (fun f => { f with pool := c.frame.pool }) cs = cs := by
  fun_induction modifyLast with
  | case1 => rfl
  | case2 d =>
    cases h
    rfl
  | case3 d cs hne ih =>
    rw [ih]
    cases cs with
    | nil => exact absurd rfl hne
    | cons e es => rwa [List.getLast?_cons_cons] at h

theorem main_mem_frames (s : Stack) : s.main ∈ s.frames := by
  unfold main frames
  cases hc : s.callers.getLast? with
  | none => exact List.mem_cons_self
  | some c => exact List.mem_cons_of_mem _ (List.mem_map_of_mem (List.mem_of_getLast? hc))

theorem modifyMain_self (s : Stack) : s.modifyMain (fun f => { f with pool := s.main.pool }) = s := by
  unfold modifyMain main
  cases hc : s.callers.getLast? with
  | none =>
    have hnil : s.callers = [] := List.getLast?_eq_none_iff.1 hc
    rw [hnil]
    exact congrArg (mk s.top) hnil.symm
  | some c =>
    have hne : s.callers.isEmpty = false := by
      rw [List.isEmpty_eq_false_iff]
      rintro hnil
      rw [hnil] at hc
      cases hc
    rw [hne]
    rw [modifyLast_self hc]
    rfl

end Stack

abbrev Memory := Store × Stack

def Interpreter.memory {σ : Type} (i : Interpreter σ) : Memory := (i.store, i.stack)

namespace Memory

variable {H : Policy} {a b c : Memory}

inductive Write (H : Policy) : Memory → Memory → Prop where
  | vars {st : Store} {s : Stack} {v : Variables} (grows : Variables.Grows ⟨st, s.top.pool⟩ v) :
      Write H (st, s) (v.store, s.modifyTop fun f => { f with pool := v.pool })
  | frame {st : Store} {s : Stack} {f : Frame} (pool : f.pool = s.top.pool) : Write H (st, s) (st, { s with top := f })
  | host {st : Store} {s : Stack} {v : Variables} (keeps : H ⟨st, s.main.pool⟩ v) :
      Write H (st, s) (v.store, s.modifyMain fun f => { f with pool := v.pool })

abbrev Writes (H : Policy) : Memory → Memory → Prop := Relation.ReflTransGen (Write H)

theorem Write.local (h : Write Eq a b) :
    b.2.callers = a.2.callers ∧ Variables.Grows ⟨a.1, a.2.top.pool⟩ ⟨b.1, b.2.top.pool⟩ := by
  cases h with
  | vars hv => exact ⟨rfl, hv⟩
  | frame hf =>
    refine ⟨rfl, ?_⟩
    rw [hf]
    exact .refl _
  | @host st s v hv =>
    subst hv
    rw [Stack.modifyMain_self]
    exact ⟨rfl, .refl _⟩

end Memory

end Rexx
