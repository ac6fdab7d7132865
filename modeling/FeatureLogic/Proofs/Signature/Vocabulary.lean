import FeatureLogic.Problem
import FeatureLogic.Proofs.Signature.Interpretation
/-!
Vocabularies as signatures. A document is compiled name by name; each step keeps what was numbered
before, gives out numbers that have names, and takes its names from the document.
-/
set_option autoImplicit false

namespace FeatureLogic

variable {W : Type}

/-! ## The names in a document -/

namespace Document

namespace Candidate

def paths (c : Candidate) : List (List String) :=
  c.values.map (·.path) ++ c.equivalences.flatMap fun e => [e.1, e.2]

def atoms (c : Candidate) : List String := c.values.filterMap (·.atom)

end Candidate

namespace Requirement

def paths : Requirement W → List (List String)
  | absolute t _ => [t.path]
  | relative lhs rhs => [lhs.path, rhs.path]
  | choice t _ => [t.path]

def atoms : Requirement W → List String
  | absolute _ value => [value]
  | relative _ _ => []
  | choice _ distribution => distribution.keys

end Requirement

variable (d : Document W)

def candidates : List Candidate := d.slots.flatMap (·.options)

def featureNames : List String :=
  (d.candidates.flatMap Candidate.paths ++ d.constraints.flatMap Requirement.paths).flatten

def atomNames : List String :=
  d.candidates.flatMap Candidate.atoms ++ d.constraints.flatMap Requirement.atoms

end Document

/-! ## Numbering -/

namespace Vocabulary

/-- What has a name, or is null. -/
def signature (v : Vocabulary) : Signature where
  feature f := f.id.toNat < v.features.size
  atom a := a.id.toNat ≤ v.atoms.size

theorem signature_null (v : Vocabulary) : v.signature.atom .null := Nat.zero_le _

/-- No name is numbered but those given, and none twice. -/
structure Within (features atoms : List String) (v : Vocabulary) : Prop where
  feature_mem {name : String} : name ∈ v.features → name ∈ features
  atom_mem {name : String} : name ∈ v.atoms → name ∈ atoms
  features_nodup : v.features.toList.Nodup
  atoms_nodup : v.atoms.toList.Nodup

/-- `v'` numbers what `v` does, and some of the names given. -/
structure Learns (features atoms : List String) (v v' : Vocabulary) : Prop where
  later : v.signature.Extends v'.signature
  within : v.Within features atoms → v'.Within features atoms

variable {features atoms : List String} {v v' v'' : Vocabulary} {name : String}

theorem Learns.refl (v : Vocabulary) : Learns features atoms v v := ⟨.refl _, id⟩

theorem Learns.trans (h : Learns features atoms v v') (h' : Learns features atoms v' v'') :
    Learns features atoms v v'' :=
  ⟨h.later.trans h'.later, fun hv => h'.within (h.within hv)⟩

/-- A step that learns names and makes something that needs no others. -/
structure Interns {α : Type} (features atoms : List String) (P : Signature → α → Prop)
    (v : Vocabulary) (step : α × Vocabulary) : Prop where
  learns : Learns features atoms v step.2
  made : P step.2.signature step.1

/-- A number too large to be written wraps round to a smaller one. -/
theorem toNat_ofNat_le (n : Nat) : (UInt32.ofNat n).toNat ≤ n := by
  rw [UInt32.toNat_ofNat']
  exact Nat.mod_le _ _

theorem lt_of_idxOf? {names : Array String} {k : Nat} (h : names.idxOf? name = some k) :
    k < names.size := by
  obtain ⟨i, -, rfl⟩ := Option.map_eq_some_iff.1 h
  exact i.isLt

theorem nodup_push {names : Array String} (hnodup : names.toList.Nodup)
    (h : names.idxOf? name = none) : (names.push name).toList.Nodup := by
  have hnew : name ∉ names.toList :=
    fun hname => Array.idxOf?_eq_none_iff.1 h (Array.mem_toList_iff.1 hname)
  rw [Array.toList_push, ← List.concat_eq_append]
  exact hnodup.concat hnew

theorem interns_feature (v : Vocabulary) (hname : name ∈ features) :
    Interns features atoms Signature.feature v (v.feature name) := by
  unfold feature featureId?
  cases hk : v.features.idxOf? name with
  | some k => exact ⟨.refl v, Nat.lt_of_le_of_lt (toNat_ofNat_le k) (lt_of_idxOf? hk)⟩
  | none =>
    have hsize : (v.features.push name).size = v.features.size + 1 := Array.size_push ..
    refine ⟨⟨⟨fun {f} hf => ?_, id⟩, fun hv => ⟨fun {s} hs => ?_, hv.atom_mem,
      nodup_push hv.features_nodup hk, hv.atoms_nodup⟩⟩, ?_⟩
    · exact Nat.lt_of_lt_of_le hf (hsize ▸ Nat.le_succ _)
    · rcases Array.mem_push.1 hs with hs | rfl
      · exact hv.feature_mem hs
      · exact hname
    · exact Nat.lt_of_le_of_lt (toNat_ofNat_le _) (hsize ▸ Nat.lt_succ_self _)

theorem interns_atom (v : Vocabulary) (hname : name ∈ atoms) :
    Interns features atoms Signature.atom v (v.atom name) := by
  unfold atom atomId?
  cases hk : v.atoms.idxOf? name with
  | some k => exact ⟨.refl v, Nat.le_trans (toNat_ofNat_le (k + 1)) (lt_of_idxOf? hk)⟩
  | none =>
    have hsize : (v.atoms.push name).size = v.atoms.size + 1 := Array.size_push ..
    refine ⟨⟨⟨id, fun {a} ha => ?_⟩, fun hv => ⟨hv.feature_mem, fun {s} hs => ?_,
      hv.features_nodup, nodup_push hv.atoms_nodup hk⟩⟩, ?_⟩
    · exact Nat.le_trans ha (Nat.le_trans (Nat.le_succ _) (Nat.le_of_eq hsize.symm))
    · rcases Array.mem_push.1 hs with hs | rfl
      · exact hv.atom_mem hs
      · exact hname
    · exact Nat.le_trans (toNat_ofNat_le _) (Nat.le_of_eq hsize.symm)

theorem interns_path (v : Vocabulary) {names : List String} (hnames : names ⊆ features) :
    Interns features atoms Path.Over v (v.path names) := by
  induction names generalizing v with
  | nil => exact ⟨.refl v, Path.over_nil⟩
  | cons name names ih =>
    obtain ⟨hname, hnames⟩ := List.cons_subset.1 hnames
    have hf : Interns features atoms Signature.feature v (v.feature name) :=
      interns_feature v hname
    have hp := ih (v.feature name).2 hnames
    exact ⟨hf.learns.trans hp.learns,
      Path.over_cons.2 ⟨hp.learns.later.feature hf.made, hp.made⟩⟩

/-- The atom of a value, null if it has none. -/
def atom? (v : Vocabulary) : Option String → Atom × Vocabulary
  | some name => v.atom name
  | none => (.null, v)

theorem interns_atom? (v : Vocabulary) {name? : Option String}
    (hname : ∀ name ∈ name?, name ∈ atoms) :
    Interns features atoms Signature.atom v (v.atom? name?) := by
  cases name? with
  | none => exact ⟨.refl v, signature_null v⟩
  | some name => exact interns_atom v (hname name rfl)

theorem values_cons (v : Vocabulary) (value : Document.Value) (rest : List Document.Value) :
    v.values (value :: rest) =
      let p := v.path value.path
      let a := p.2.atom? value.atom
      ((p.1, a.1) :: (a.2.values rest).1, (a.2.values rest).2) := by
  rw [Vocabulary.values]
  cases value.atom <;> rfl

theorem interns_values (v : Vocabulary) {values : List Document.Value}
    (hpaths : ∀ x ∈ values, x.path ⊆ features)
    (hatoms : ∀ x ∈ values, ∀ name ∈ x.atom, name ∈ atoms) :
    Interns features atoms (fun σ (es : List (Path × Atom)) => ∀ e ∈ es, e.1.Over σ ∧ σ.atom e.2)
      v (v.values values) := by
  induction values generalizing v with
  | nil => exact ⟨.refl v, by simp [Vocabulary.values]⟩
  | cons value values ih =>
    obtain ⟨hpath, hpaths⟩ := List.forall_mem_cons.1 hpaths
    obtain ⟨hatom, hatoms⟩ := List.forall_mem_cons.1 hatoms
    have hp : Interns features atoms Path.Over v (v.path value.path) := interns_path v hpath
    have ha : Interns features atoms Signature.atom _ ((v.path value.path).2.atom? value.atom) :=
      interns_atom? _ hatom
    have hrest := ih ((v.path value.path).2.atom? value.atom).2 hpaths hatoms
    have hlater := ha.learns.trans hrest.learns
    rw [values_cons]
    exact ⟨hp.learns.trans hlater, List.forall_mem_cons.2
      ⟨⟨hp.made.mono hlater.later, hrest.learns.later.atom ha.made⟩,
        hrest.made⟩⟩

theorem interns_equivalences (v : Vocabulary) {pairs : List (List String × List String)}
    (hpairs : ∀ e ∈ pairs, e.1 ⊆ features ∧ e.2 ⊆ features) :
    Interns features atoms (fun σ (es : List (Path × Path)) => ∀ e ∈ es, e.1.Over σ ∧ e.2.Over σ)
      v (v.equivalences pairs) := by
  induction pairs generalizing v with
  | nil => exact ⟨.refl v, by simp [Vocabulary.equivalences]⟩
  | cons pair pairs ih =>
    obtain ⟨⟨hl, hr⟩, hpairs⟩ := List.forall_mem_cons.1 hpairs
    have hp : Interns features atoms Path.Over v (v.path pair.1) := interns_path v hl
    have hq : Interns features atoms Path.Over _ ((v.path pair.1).2.path pair.2) :=
      interns_path _ hr
    have hrest := ih ((v.path pair.1).2.path pair.2).2 hpairs
    have hlater := hq.learns.trans hrest.learns
    exact ⟨hp.learns.trans hlater, List.forall_mem_cons.2
      ⟨⟨hp.made.mono hlater.later, hq.made.mono hrest.learns.later⟩,
        hrest.made⟩⟩

theorem interns_description (v : Vocabulary) {c : Document.Candidate}
    (hpaths : ∀ p ∈ c.paths, p ⊆ features) (hatoms : c.atoms ⊆ atoms) :
    Interns features atoms Description.Over v (v.description c) := by
  obtain ⟨hvalues, hpairs⟩ := List.forall_mem_append.1 hpaths
  rw [List.forall_mem_map] at hvalues
  have hpairs : ∀ e ∈ c.equivalences, e.1 ⊆ features ∧ e.2 ⊆ features := fun e he =>
    ⟨hpairs e.1 (List.mem_flatMap.2 ⟨e, he, by simp⟩),
      hpairs e.2 (List.mem_flatMap.2 ⟨e, he, by simp⟩)⟩
  have hv := interns_values v hvalues
    fun x hx name hname => hatoms (List.mem_filterMap.2 ⟨x, hx, hname⟩)
  have he : Interns features atoms _ _ ((v.values c.values).2.equivalences c.equivalences) :=
    interns_equivalences _ hpairs
  exact ⟨hv.learns.trans he.learns, fun x hx => (hv.made x hx).imp
    (Path.Over.mono · he.learns.later) he.learns.later.atom, he.made⟩

theorem learns_weights (v : Vocabulary) {es : List (String × W)}
    (hnames : es.map (·.1) ⊆ atoms) : Learns features atoms v (v.weights es).2 := by
  induction es generalizing v with
  | nil => exact .refl v
  | cons e es ih =>
    obtain ⟨hname, hnames⟩ := List.cons_subset.1 hnames
    exact (interns_atom v hname).learns.trans (ih _ hnames)

theorem interns_constraint (v : Vocabulary) {k : Document.Requirement W}
    (hpaths : ∀ p ∈ k.paths, p ⊆ features) (hatoms : k.atoms ⊆ atoms) :
    Interns features atoms Constraint.Over v (v.constraint k) := by
  have hpath : ∀ (v : Vocabulary) (p : List String), p ∈ k.paths →
      Interns features atoms Path.Over v (v.path p) := fun v p hp => interns_path v (hpaths p hp)
  cases k with
  | absolute t value =>
    have ht := hpath v t.path List.mem_cons_self
    have ha : Interns features atoms Signature.atom _ ((v.path t.path).2.atom value) :=
      interns_atom _ (hatoms List.mem_cons_self)
    exact ⟨ht.learns.trans ha.learns, ht.made.mono ha.learns.later, ha.made⟩
  | relative lhs rhs =>
    have hl := hpath v lhs.path List.mem_cons_self
    have hr := hpath (v.path lhs.path).2 rhs.path (List.mem_cons_of_mem _ List.mem_cons_self)
    exact ⟨hl.learns.trans hr.learns, hl.made.mono hr.learns.later, hr.made⟩
  | choice t distribution =>
    have ht := hpath v t.path List.mem_cons_self
    exact ⟨ht.learns.trans (learns_weights _ hatoms), trivial⟩

theorem interns_constraints (v : Vocabulary) {ks : List (Document.Requirement W)}
    (hpaths : ∀ k ∈ ks, ∀ p ∈ k.paths, p ⊆ features) (hatoms : ∀ k ∈ ks, k.atoms ⊆ atoms) :
    Interns features atoms (fun σ (cs : List (Constraint W)) => ∀ c ∈ cs, c.Over σ)
      v (v.constraints ks) := by
  induction ks generalizing v with
  | nil => exact ⟨.refl v, by simp [Vocabulary.constraints]⟩
  | cons k ks ih =>
    obtain ⟨hpath, hpaths⟩ := List.forall_mem_cons.1 hpaths
    obtain ⟨hatom, hatoms⟩ := List.forall_mem_cons.1 hatoms
    have hk := interns_constraint v hpath hatom
    have hrest := ih (v.constraint k).2 hpaths hatoms
    exact ⟨hk.learns.trans hrest.learns, List.forall_mem_cons.2
      ⟨hk.made.mono hrest.learns.later, hrest.made⟩⟩

end Vocabulary

/-! ## Option tables -/

namespace OptionTable

/-- Candidates over the signature, in arenas that hold together. -/
def Fits (σ : Signature) (t : OptionTable) : Prop :=
  ∀ e ∈ t.entries, ∀ s ∈ e.2, s.arena.Over σ ∧ s.arena.Sound fun _ => False

variable {σ τ : Signature} {t : OptionTable} {i : SlotIndex} {s : FeatureStructure}

theorem fits_empty : Fits σ .empty := fun _ he => absurd he List.not_mem_nil

theorem Fits.mono (ht : t.Fits σ) (h : σ.Extends τ) : t.Fits τ :=
  fun e he s hs => (ht e he s hs).imp_left (Arena.Over.mono · h)

theorem Fits.insert (ht : t.Fits σ) {column : OptionColumn}
    (hc : ∀ s ∈ column, s.arena.Over σ ∧ s.arena.Sound fun _ => False) :
    Fits σ (SortedMap.insert t i column) := by
  intro e he
  rcases mem_insertEntry he with rfl | he
  · exact hc
  · exact ht e he

theorem Fits.push (ht : t.Fits σ) (hs : s.arena.Over σ) (hsound : s.arena.Sound fun _ => False) :
    (t.push i s).Fits σ := by
  refine ht.insert fun u hu => ?_
  rcases List.mem_append.1 hu with hu | hu
  · cases hcolumn : t.get? i with
    | none => simp [hcolumn] at hu
    | some column =>
      rw [hcolumn] at hu
      exact ht (i, column) ((SortedMap.get?_eq_some_iff t).1 hcolumn) u hu
  · obtain rfl := List.mem_singleton.1 hu
    exact ⟨hs, hsound⟩

theorem Fits.addWildcards [Weight W] (ht : t.Fits σ) (hnull : σ.atom .null)
    (cs : ConstraintSet W) : (t.addWildcards cs).Fits σ := by
  unfold OptionTable.addWildcards
  induction t.uncovered cs generalizing t with
  | nil => exact ht
  | cons i slots ih =>
    refine ih (ht.insert fun s hs => ?_)
    obtain rfl := List.mem_singleton.1 hs
    exact ⟨FeatureStructure.over_empty hnull, (FeatureStructure.sound_atomic .null).arena⟩

end OptionTable

/-! ## Compiling -/

namespace Problem
open Vocabulary

variable [Weight W] {features atoms : List String} {t t' : OptionTable} {v v' : Vocabulary}

theorem compileOptions_fits {index : SlotIndex} {cs : List Document.Candidate}
    (hpaths : ∀ c ∈ cs, ∀ p ∈ c.paths, p ⊆ features) (hatoms : ∀ c ∈ cs, c.atoms ⊆ atoms)
    (ht : t.Fits v.signature) (hrun : compileOptions index cs t v = .ok (t', v')) :
    Learns features atoms v v' ∧ t'.Fits v'.signature := by
  induction cs generalizing t v with
  | nil =>
    cases hrun
    exact ⟨.refl _, ht⟩
  | cons c cs ih =>
    obtain ⟨hpath, hpaths⟩ := List.forall_mem_cons.1 hpaths
    obtain ⟨hatom, hatoms⟩ := List.forall_mem_cons.1 hatoms
    have hd := interns_description v hpath hatom
    rw [compileOptions] at hrun
    dsimp only at hrun
    split at hrun
    · rename_i s hs
      have hs' := FeatureStructure.over_ofDescription hd.made hs
      obtain ⟨hlearns, hfits⟩ := ih hpaths hatoms ((ht.mono hd.learns.later).push hs'
        (FeatureStructure.sound_ofDescription hs).arena) hrun
      exact ⟨hd.learns.trans hlearns, hfits⟩
    · cases hrun

theorem compileSlots_fits {slots : List Document.Slot}
    (hpaths : ∀ c ∈ slots.flatMap (·.options), ∀ p ∈ c.paths, p ⊆ features)
    (hatoms : ∀ c ∈ slots.flatMap (·.options), c.atoms ⊆ atoms) (ht : t.Fits v.signature)
    (hrun : compileSlots slots t v = .ok (t', v')) :
    Learns features atoms v v' ∧ t'.Fits v'.signature := by
  induction slots generalizing t v with
  | nil =>
    cases hrun
    exact ⟨.refl _, ht⟩
  | cons slot slots ih =>
    rw [List.flatMap_cons, List.forall_mem_append] at hpaths hatoms
    rw [compileSlots] at hrun
    split at hrun
    · rename_i t₁ v₁ hoptions
      obtain ⟨hlearns, hfits⟩ := compileOptions_fits hpaths.1 hatoms.1 ht hoptions
      obtain ⟨hlearns', hfits'⟩ := ih hpaths.2 hatoms.2 hfits hrun
      exact ⟨hlearns.trans hlearns', hfits'⟩
    · cases hrun

/-- The vocabulary names all that is in the problem, and has its names from the document. -/
structure Compiled (d : Document W) (p : Problem W) : Prop where
  table : p.table.Fits p.vocabulary.signature
  constraints : ∀ c ∈ p.constraints.toList, c.Over p.vocabulary.signature
  names : p.vocabulary.Within d.featureNames d.atomNames

theorem compiled_ofDocument {d : Document W} {p : Problem W} (hp : ofDocument d = .ok p) :
    Compiled d p := by
  have hpaths : ∀ p ∈ d.candidates.flatMap Document.Candidate.paths ++
      d.constraints.flatMap Document.Requirement.paths, p ⊆ d.featureNames :=
    fun p hp name hn => List.mem_flatten.2 ⟨p, hp, hn⟩
  have hatoms : ∀ name ∈ d.candidates.flatMap Document.Candidate.atoms ++
      d.constraints.flatMap Document.Requirement.atoms, name ∈ d.atomNames := fun _ => id
  simp only [List.forall_mem_append, List.forall_mem_flatMap] at hpaths hatoms
  unfold ofDocument at hp
  split at hp
  · rename_i table v hslots
    cases hp
    obtain ⟨hlearns, hfits⟩ :=
      compileSlots_fits hpaths.1 hatoms.1 OptionTable.fits_empty hslots
    have hks := interns_constraints v hpaths.2 hatoms.2
    have hempty : Vocabulary.empty.Within d.featureNames d.atomNames :=
      ⟨fun h => absurd h (Array.not_mem_empty _), fun h => absurd h (Array.not_mem_empty _),
        .nil, .nil⟩
    exact ⟨hfits.mono hks.learns.later, fun c hc => hks.made c (ConstraintSet.mem_of_mem_ofList hc),
      (hlearns.trans hks.learns).within hempty⟩
  · cases hp

theorem Compiled.addWildcards {d : Document W} {p : Problem W} (hp : Compiled d p) :
    Compiled d p.addWildcards :=
  ⟨hp.table.addWildcards (signature_null _) p.constraints, hp.constraints, hp.names⟩

end Problem

end FeatureLogic
