import FeatureLogic.Proofs.Signature.Rendering
import Mathlib.Data.List.Dedup
/-!
Numbers are given for good. So whatever is compiled in one vocabulary is compiled to the same in
every later one, which learns nothing from it. As long as the numbers do not run out, they and the
names determine each other.
-/
set_option autoImplicit false

namespace FeatureLogic

namespace Vocabulary

variable {v v' v'' : Vocabulary} {name : String} {f : Feature} {a : Atom}

/-- What `v` numbers has the same number in `v'`. -/
structure Keeps (v v' : Vocabulary) : Prop where
  feature {name : String} {f : Feature} : v.featureId? name = some f → v'.featureId? name = some f
  atom {name : String} {a : Atom} : v.atomId? name = some a → v'.atomId? name = some a

theorem Keeps.refl (v : Vocabulary) : v.Keeps v := ⟨id, id⟩

theorem Keeps.trans (h : v.Keeps v') (h' : v'.Keeps v'') : v.Keeps v'' :=
  ⟨h'.feature ∘ h.feature, h'.atom ∘ h.atom⟩

/-! ## One name -/

theorem idxOf?_push {names : Array String} {k : Nat} (h : names.idxOf? name = some k)
    (new : String) : (names.push new).idxOf? name = some k := by
  obtain ⟨names⟩ := names
  rw [List.idxOf?_toArray, List.idxOf?_eq_some_iff] at h
  obtain ⟨hk, hname, hfirst⟩ := h
  rw [List.push_toArray, List.idxOf?_toArray, List.idxOf?_eq_some_iff]
  refine ⟨by simp; omega, by rwa [List.getElem_append_left hk], fun j hj => ?_⟩
  rw [List.getElem_append_left (Nat.lt_trans hj hk)]
  exact hfirst j hj

theorem idxOf?_push_self {names : Array String} (h : names.idxOf? name = none) :
    (names.push name).idxOf? name = some names.size := by
  obtain ⟨names⟩ := names
  rw [List.idxOf?_toArray, List.idxOf?_eq_none_iff] at h
  rw [List.push_toArray, List.idxOf?_toArray, List.idxOf?_eq_some_iff]
  refine ⟨by simp, by simp, fun j hj he => h ?_⟩
  have hj : j < names.length := hj
  rw [List.getElem_append_left hj] at he
  exact he ▸ List.getElem_mem hj

theorem featureId?_feature (v : Vocabulary) (name : String) :
    (v.feature name).2.featureId? name = some (v.feature name).1 := by
  unfold feature
  cases h : v.featureId? name with
  | some f => exact h
  | none => rw [featureId?, idxOf?_push_self (Option.map_eq_none_iff.1 h), Option.map_some]

theorem atomId?_atom (v : Vocabulary) (name : String) :
    (v.atom name).2.atomId? name = some (v.atom name).1 := by
  unfold atom
  cases h : v.atomId? name with
  | some a => exact h
  | none => rw [atomId?, idxOf?_push_self (Option.map_eq_none_iff.1 h), Option.map_some]

theorem keeps_feature (v : Vocabulary) (name : String) : v.Keeps (v.feature name).2 := by
  unfold feature
  cases v.featureId? name with
  | some f => exact .refl v
  | none =>
    refine ⟨fun {other} f h => ?_, id⟩
    obtain ⟨k, hk, rfl⟩ := Option.map_eq_some_iff.1 h
    rw [featureId?, idxOf?_push hk, Option.map_some]

theorem keeps_atom (v : Vocabulary) (name : String) : v.Keeps (v.atom name).2 := by
  unfold atom
  cases v.atomId? name with
  | some a => exact .refl v
  | none =>
    refine ⟨id, fun {other} a h => ?_⟩
    obtain ⟨k, hk, rfl⟩ := Option.map_eq_some_iff.1 h
    rw [atomId?, idxOf?_push hk, Option.map_some]

/-! ## Steps over a document -/

/-- A step that keeps all numbers. Taken again in any later vocabulary it makes the same and leaves
the vocabulary as it is. -/
structure Steady {α : Type} (step : Vocabulary → α × Vocabulary) : Prop where
  keeps (v : Vocabulary) : v.Keeps (step v).2
  again {v v' : Vocabulary} : (step v).2.Keeps v' → step v' = ((step v).1, v')

namespace Steady

variable {α β : Type} {first : Vocabulary → α × Vocabulary}
  {next : α → Vocabulary → β × Vocabulary}

theorem pure (x : α) : Steady fun v => (x, v) := ⟨.refl, fun _ => rfl⟩

theorem bind (hfirst : Steady first) (hnext : ∀ x, Steady (next x)) :
    Steady fun v => next (first v).1 (first v).2 where
  keeps v := (hfirst.keeps v).trans ((hnext _).keeps _)
  again {v v'} h := by
    have hv : first v' = ((first v).1, v') := hfirst.again (((hnext _).keeps _).trans h)
    rw [hv]
    exact (hnext _).again h

end Steady

theorem steady_feature (name : String) : Steady (·.feature name) where
  keeps v := keeps_feature v name
  again {v v'} h := by
    have hname : v'.featureId? name = some (v.feature name).1 :=
      h.feature (featureId?_feature v name)
    change v'.feature name = _
    rw [feature, hname]

theorem steady_atom (name : String) : Steady (·.atom name) where
  keeps v := keeps_atom v name
  again {v v'} h := by
    have hname : v'.atomId? name = some (v.atom name).1 := h.atom (atomId?_atom v name)
    change v'.atom name = _
    rw [atom, hname]

theorem steady_path (names : List String) : Steady (·.path names) := by
  induction names with
  | nil => exact .pure []
  | cons name names ih =>
    exact ((steady_feature name).bind fun f => ih.bind fun p => .pure (f :: p) :)

theorem steady_atom? (name? : Option String) : Steady (·.atom? name?) := by
  cases name? with
  | none => exact .pure Atom.null
  | some name => exact steady_atom name

theorem steady_values (values : List Document.Value) : Steady (·.values values) := by
  induction values with
  | nil => exact .pure []
  | cons value values ih =>
    simp only [values_cons]
    exact ((steady_path value.path).bind fun p => (steady_atom? value.atom).bind fun a =>
      ih.bind fun others => .pure ((p, a) :: others) :)

theorem steady_equivalences (pairs : List (List String × List String)) :
    Steady (·.equivalences pairs) := by
  induction pairs with
  | nil => exact .pure []
  | cons pair pairs ih =>
    exact ((steady_path pair.1).bind fun p => (steady_path pair.2).bind fun q =>
      ih.bind fun others => .pure ((p, q) :: others) :)

theorem steady_description (c : Document.Candidate) : Steady (·.description c) :=
  ((steady_values c.values).bind fun values =>
    (steady_equivalences c.equivalences).bind fun pairs =>
      .pure (⟨values, pairs⟩ : Description) :)

theorem steady_term (t : Document.Term) : Steady (·.term t) :=
  ((steady_path t.path).bind fun p => .pure (⟨t.index, p⟩ : PathTerm) :)

variable {W : Type}

theorem steady_weights (es : List (String × W)) : Steady (·.weights es) := by
  induction es with
  | nil => exact .pure []
  | cons e es ih =>
    exact ((steady_atom e.1).bind fun a => ih.bind fun others => .pure ((a, e.2) :: others) :)

theorem steady_constraint (k : Document.Requirement W) : Steady (·.constraint k) := by
  cases k with
  | absolute t value =>
    exact ((steady_term t).bind fun t => (steady_atom value).bind fun a =>
      .pure (Constraint.absolute ⟨t, a⟩) :)
  | relative lhs rhs =>
    exact ((steady_term lhs).bind fun l => (steady_term rhs).bind fun r =>
      .pure (Constraint.relative ⟨l, r⟩) :)
  | choice t distribution =>
    exact ((steady_term t).bind fun t => (steady_weights distribution.entries).bind fun ws =>
      .pure (Constraint.choice ⟨t, SortedMap.ofList ws⟩) :)

theorem steady_constraints (ks : List (Document.Requirement W)) : Steady (·.constraints ks) := by
  induction ks with
  | nil => exact .pure []
  | cons k ks ih =>
    exact ((steady_constraint k).bind fun c => ih.bind fun others => .pure (c :: others) :)

/-! ## Names and numbers -/

/-- Names and numbers determine each other, so different names have different numbers, and no name
has the number of the null atom. -/
structure OneToOne (v : Vocabulary) : Prop where
  feature {name : String} {f : Feature} :
    v.featureName f = .ok name ↔ v.featureId? name = some f
  atom {name : String} {a : Atom} (ha : a ≠ .null) :
    v.atomName a = .ok name ↔ v.atomId? name = some a
  not_null (name : String) : v.atomId? name ≠ some .null

theorem idxOf?_eq_some_iff_of_nodup {names : Array String} (hnodup : names.toList.Nodup) {k : Nat} :
    names.idxOf? name = some k ↔ names[k]? = some name := by
  constructor
  · intro h
    obtain ⟨names⟩ := names
    rw [List.idxOf?_toArray, List.idxOf?_eq_some_iff] at h
    obtain ⟨hk, hname, -⟩ := h
    exact Array.getElem?_eq_some_iff.2 ⟨hk, hname⟩
  · intro h
    obtain ⟨hk, rfl⟩ := Array.getElem?_eq_some_iff.1 h
    exact idxOf?_of_nodup hnodup hk

theorem featureId?_eq_some_iff (hnodup : v.features.toList.Nodup)
    (hsize : v.features.size ≤ 2 ^ 32) :
    v.featureId? name = some f ↔ v.features[f.id.toNat]? = some name := by
  rw [featureId?, Option.map_eq_some_iff, ← idxOf?_eq_some_iff_of_nodup hnodup]
  constructor
  · rintro ⟨k, hk, rfl⟩
    have hlt := lt_of_idxOf? hk
    rw [UInt32.toNat_ofNat_of_lt' (by simp [UInt32.size]; omega)]
    exact hk
  · intro h
    exact ⟨_, h, congrArg Feature.mk UInt32.ofNat_toNat⟩

theorem atomId?_eq_some_iff (hnodup : v.atoms.toList.Nodup) (hsize : v.atoms.size < 2 ^ 32) :
    v.atomId? name = some a ↔ a ≠ .null ∧ v.atoms[a.id.toNat - 1]? = some name := by
  rw [atomId?, Option.map_eq_some_iff, ← idxOf?_eq_some_iff_of_nodup hnodup]
  constructor
  · rintro ⟨k, hk, rfl⟩
    have hlt := lt_of_idxOf? hk
    have hnat : (UInt32.ofNat (k + 1)).toNat = k + 1 :=
      UInt32.toNat_ofNat_of_lt' (by simp [UInt32.size]; omega)
    refine ⟨fun h => ?_, ?_⟩
    · have hzero : (UInt32.ofNat (k + 1)).toNat = 0 := congrArg (fun a => a.id.toNat) h
      omega
    · rw [hnat]
      exact hk
  · rintro ⟨hne, h⟩
    have hid : a.id.toNat ≠ 0 := fun h => hne (congrArg Atom.mk (UInt32.toNat_inj.1 h))
    refine ⟨_, h, congrArg Atom.mk ?_⟩
    rw [Nat.sub_one_add_one hid, UInt32.ofNat_toNat]

theorem oneToOne (hfeatures : v.features.toList.Nodup) (hatoms : v.atoms.toList.Nodup)
    (hfeatures' : v.features.size ≤ 2 ^ 32) (hatoms' : v.atoms.size < 2 ^ 32) : v.OneToOne where
  feature {name f} := by
    rw [featureId?_eq_some_iff hfeatures hfeatures', featureName]
    split <;> simp [*]
  atom {name a} ha := by
    rw [atomId?_eq_some_iff hatoms hatoms', atomName, Atom.isNull, decide_eq_false ha]
    simp only [Bool.false_eq_true, if_false]
    split <;> simp [*]
  not_null name h := ((atomId?_eq_some_iff hatoms hatoms').1 h).1 rfl

theorem length_dedup_cons_le (name : String) (names : List String) :
    (name :: names).dedup.length ≤ names.dedup.length + 1 := by
  by_cases h : name ∈ names
  · rw [List.dedup_cons_of_mem h]
    exact Nat.le_succ _
  · rw [List.dedup_cons_of_notMem h, List.length_cons]

theorem size_le_of_subset {names : Array String} (hnodup : names.toList.Nodup) {known : List String}
    (h : ∀ name ∈ names, name ∈ known) : names.size ≤ known.dedup.length := by
  have hsub : names.toList ⊆ known.dedup := fun name hname =>
    List.mem_dedup.2 (h name (Array.mem_toList_iff.1 hname))
  rw [← Array.length_toList]
  exact (hnodup.subperm hsub).length_le

section Within
variable {features atoms : List String} (hv : v.Within features atoms)
include hv

theorem Within.oneToOne (hfeatures : features.dedup.length ≤ 2 ^ 32)
    (hatoms : atoms.dedup.length < 2 ^ 32) : v.OneToOne := by
  have hf : v.features.size ≤ features.dedup.length :=
    size_le_of_subset hv.features_nodup fun _ => hv.feature_mem
  have ha : v.atoms.size ≤ atoms.dedup.length :=
    size_le_of_subset hv.atoms_nodup fun _ => hv.atom_mem
  exact Vocabulary.oneToOne hv.features_nodup hv.atoms_nodup (hf.trans hfeatures)
    (ha.trans_lt hatoms)

/-- There is a number left for one more feature. -/
theorem Within.oneToOne_feature (hfeatures : features.dedup.length < 2 ^ 32)
    (hatoms : atoms.dedup.length < 2 ^ 32) (name : String) : (v.feature name).2.OneToOne := by
  have hmore : v.Within (name :: features) atoms :=
    ⟨fun h => List.mem_cons_of_mem _ (hv.feature_mem h), hv.atom_mem, hv.features_nodup,
      hv.atoms_nodup⟩
  have hlength := length_dedup_cons_le name features
  exact ((interns_feature v List.mem_cons_self).learns.within hmore).oneToOne
    (hlength.trans hfeatures) hatoms

theorem Within.oneToOne_atom (hfeatures : features.dedup.length ≤ 2 ^ 32)
    (hatoms : atoms.dedup.length < 2 ^ 32 - 1) (name : String) : (v.atom name).2.OneToOne := by
  have hmore : v.Within features (name :: atoms) :=
    ⟨hv.feature_mem, fun h => List.mem_cons_of_mem _ (hv.atom_mem h), hv.features_nodup,
      hv.atoms_nodup⟩
  have hlength := length_dedup_cons_le name atoms
  exact ((interns_atom v List.mem_cons_self).learns.within hmore).oneToOne hfeatures (by omega)

end Within

end Vocabulary

end FeatureLogic
