import FeatureLogic.Proofs.Signature.Spelling
/-!
What a document is compiled to. The vocabulary numbers every name once; the table is filled with
the structures of the candidates in the order in which they are written; and the set spells the
constraints of the document, each class of equal ones once.
-/
set_option autoImplicit false

namespace FeatureLogic

variable {W : Type}

/-! ## Filling tables -/

namespace OptionTable

variable {t : OptionTable} {i : SlotIndex} {es : List (SlotIndex × FeatureStructure)}

def pushAll (t : OptionTable) (es : List (SlotIndex × FeatureStructure)) : OptionTable :=
  es.foldl (fun t e => t.push e.1 e.2) t

def column (t : OptionTable) (i : SlotIndex) : OptionColumn := (t.get? i).getD []

theorem pushAll_append (t : OptionTable) (es fs : List (SlotIndex × FeatureStructure)) :
    t.pushAll (es ++ fs) = (t.pushAll es).pushAll fs := List.foldl_append

theorem column_push (t : OptionTable) (i j : SlotIndex) (s : FeatureStructure) :
    (t.push j s).column i = if j = i then t.column i ++ [s] else t.column i := by
  rw [column, push, SortedMap.get?_insert]
  split
  · rename_i h
    rw [h]
    rfl
  · rfl

/-- A column goes on with what is pushed to it, in that order. -/
theorem column_pushAll (t : OptionTable) (es : List (SlotIndex × FeatureStructure))
    (i : SlotIndex) : (t.pushAll es).column i =
      t.column i ++ (es.filter fun e => e.1 = i).map (·.2) := by
  induction es generalizing t with
  | nil => simp [pushAll]
  | cons e es ih =>
    change ((t.push e.1 e.2).pushAll es).column i = _
    rw [ih, column_push]
    by_cases h : e.1 = i <;> simp [h]

theorem contains_pushAll : (t.pushAll es).contains i = true ↔
    t.contains i = true ∨ i ∈ es.map (·.1) := by
  induction es generalizing t with
  | nil => simp [pushAll]
  | cons e es ih =>
    change ((t.push e.1 e.2).pushAll es).contains i = true ↔ _
    rw [ih, push, SortedMap.contains_insert, Bool.or_eq_true, decide_eq_true_eq, List.map_cons,
      List.mem_cons, or_assoc, or_left_comm, @eq_comm _ i]

end OptionTable

namespace Document

/-- The candidates with their slots, in the order in which they are written. -/
def entries (d : Document W) : List (SlotIndex × Candidate) :=
  d.slots.flatMap fun slot => slot.options.map (slot.index, ·)

/-- The candidates for one slot, from all its entries. -/
def listed (d : Document W) (i : SlotIndex) : List Candidate :=
  (d.slots.filter fun slot => slot.index = i).flatMap (·.options)

/-- The structure is that of a description that the vocabulary spells as the candidate. -/
def Candidate.Compiles (v : Vocabulary) (c : Candidate) (s : FeatureStructure) : Prop :=
  ∃ δ, v.description c = (δ, v) ∧ v.spellDescription δ = .ok c ∧
    FeatureStructure.ofDescription δ = .ok s

theorem listed_eq (d : Document W) (i : SlotIndex) :
    (d.entries.filter fun e => e.1 = i).map (·.2) = d.listed i := by
  unfold entries listed
  induction d.slots with
  | nil => rfl
  | cons slot slots ih =>
    rw [List.flatMap_cons, List.filter_append, List.map_append, ih, List.filter_cons]
    by_cases h : slot.index = i <;> simp [h, List.filter_map, Function.comp_def]

theorem mem_map_entries_iff {d : Document W} {i : SlotIndex} :
    i ∈ d.entries.map (·.1) ↔ ∃ slot ∈ d.slots, slot.index = i ∧ slot.options ≠ [] := by
  simp only [entries, List.mem_map, List.mem_flatMap]
  constructor
  · rintro ⟨_, ⟨slot, hslot, c, hc, rfl⟩, rfl⟩
    exact ⟨slot, hslot, rfl, List.ne_nil_of_mem hc⟩
  · rintro ⟨slot, hslot, rfl, hne⟩
    obtain ⟨c, hc⟩ := List.exists_mem_of_ne_nil _ hne
    exact ⟨_, ⟨slot, hslot, c, hc, rfl⟩, rfl⟩

end Document

/-- The column for a slot has what is pushed for it. -/
theorem Document.forall₂_column {d : Document W} {v : Vocabulary}
    {es : List (SlotIndex × FeatureStructure)}
    (hes : List.Forall₂ (fun c e => c.1 = e.1 ∧ Candidate.Compiles v c.2 e.2) d.entries es)
    (i : SlotIndex) : List.Forall₂ (Candidate.Compiles v) (d.listed i)
      ((OptionTable.pushAll .empty es).column i) := by
  have hempty : OptionTable.column .empty i = [] := rfl
  rw [OptionTable.column_pushAll, ← listed_eq, hempty, List.nil_append]
  refine List.forall₂_map_left_iff.2 (List.forall₂_map_right_iff.2 ?_)
  refine (List.rel_filter (fun c e h => ?_) hes).imp fun _ _ => And.right
  change decide (c.1 = i) = true ↔ decide (e.1 = i) = true
  rw [h.1]

theorem Document.contains_iff {d : Document W} {v : Vocabulary}
    {es : List (SlotIndex × FeatureStructure)}
    (hes : List.Forall₂ (fun c e => c.1 = e.1 ∧ Candidate.Compiles v c.2 e.2) d.entries es)
    {i : SlotIndex} : (OptionTable.pushAll .empty es).contains i = true ↔
      ∃ slot ∈ d.slots, slot.index = i ∧ slot.options ≠ [] := by
  have hslots : d.entries.map (·.1) = es.map (·.1) := by
    rw [← List.forall₂_eq_eq_eq]
    exact List.forall₂_map_left_iff.2 (List.forall₂_map_right_iff.2 (hes.imp fun _ _ => And.left))
  rw [OptionTable.contains_pushAll, ← hslots, mem_map_entries_iff]
  simp [SortedMap.contains]

/-! ## Compiling -/

namespace Problem
open Document Vocabulary

variable {t t' : OptionTable} {v v' w : Vocabulary}

section Tables
variable [Weight W]

/-- All candidates are pushed as the later vocabulary `w` describes them. -/
theorem compileOptions_eq (hw : w.OneToOne) {i : SlotIndex} {cs : List Candidate}
    (hrun : compileOptions i cs t v = .ok (t', v')) (hlater : v'.Keeps w) :
    v.Keeps w ∧ ∃ ss, List.Forall₂ (Candidate.Compiles w) cs ss ∧
      t' = t.pushAll (ss.map (i, ·)) := by
  induction cs generalizing t v with
  | nil =>
    cases hrun
    exact ⟨hlater, [], .nil, rfl⟩
  | cons c cs ih =>
    rw [compileOptions] at hrun
    dsimp only at hrun
    split at hrun
    · rename_i s hs
      obtain ⟨hkeeps, ss, hss, rfl⟩ := ih hrun
      refine ⟨((steady_description c).keeps v).trans hkeeps, s :: ss, .cons ?_ hss, rfl⟩
      exact ⟨_, (steady_description c).again hkeeps, spellDescription_description hw hkeeps, hs⟩
    · cases hrun

theorem compileSlots_eq (hw : w.OneToOne) {slots : List Slot}
    (hrun : compileSlots slots t v = .ok (t', v')) (hlater : v'.Keeps w) :
    v.Keeps w ∧ ∃ es, List.Forall₂ (fun c e => c.1 = e.1 ∧ Candidate.Compiles w c.2 e.2)
      (slots.flatMap fun slot => slot.options.map (slot.index, ·)) es ∧ t' = t.pushAll es := by
  induction slots generalizing t v with
  | nil =>
    cases hrun
    exact ⟨hlater, [], .nil, rfl⟩
  | cons slot slots ih =>
    rw [compileSlots] at hrun
    split at hrun
    · rename_i t₁ v₁ hoptions
      obtain ⟨hkeeps, es, hes, rfl⟩ := ih hrun
      obtain ⟨hkeeps, ss, hss, rfl⟩ := compileOptions_eq hw hoptions hkeeps
      refine ⟨hkeeps, ss.map (slot.index, ·) ++ es, ?_, (t.pushAll_append _ _).symm⟩
      refine List.rel_append ?_ hes
      refine List.forall₂_map_left_iff.2 (List.forall₂_map_right_iff.2 ?_)
      exact hss.imp fun _ _ h => ⟨rfl, h⟩
    · cases hrun

/-- The candidates and the structures that are pushed, in the same order and for the same slots. -/
theorem ofDocument_eq {d : Document W} {p : Problem W} (hp : ofDocument d = .ok p)
    (hone : p.vocabulary.OneToOne) :
    (∃ es, List.Forall₂ (fun c e => c.1 = e.1 ∧ Candidate.Compiles p.vocabulary c.2 e.2)
      d.entries es ∧ p.table = OptionTable.pushAll .empty es) ∧
    p.constraints = p.vocabulary.numbered d.constraints ∧
    ∀ k ∈ d.constraints, (p.vocabulary.constraint k).2 = p.vocabulary := by
  unfold ofDocument at hp
  split at hp
  · rename_i table v hslots
    cases hp
    obtain ⟨hks, hknown⟩ := constraints_eq_map (Keeps.refl (v.constraints d.constraints).2)
    obtain ⟨-, hes⟩ := compileSlots_eq hone hslots ((steady_constraints d.constraints).keeps v)
    exact ⟨hes, congrArg ConstraintSet.ofList hks, hknown⟩
  · cases hp

end Tables

/-- Nothing of the document is lost or mixed up. -/
structure Faithful [Weight W] (d : Document W) (p : Problem W) : Prop where
  symbols : p.vocabulary.OneToOne
  /-- A name has a number from which the vocabulary gives it back, and one more has too. -/
  feature (name : String) : (p.vocabulary.feature name).2.OneToOne ∧
    (p.vocabulary.feature name).2.featureName (p.vocabulary.feature name).1 = .ok name
  atom (name : String) : (p.vocabulary.atom name).2.OneToOne ∧
    (p.vocabulary.atom name).1 ≠ .null ∧
    (p.vocabulary.atom name).2.atomName (p.vocabulary.atom name).1 = .ok name
  contains (i : SlotIndex) : p.table.contains i = true ↔
    ∃ slot ∈ d.slots, slot.index = i ∧ slot.options ≠ []
  column (i : SlotIndex) :
    List.Forall₂ (Candidate.Compiles p.vocabulary) (d.listed i) (p.table.column i)
  constraints : ∃ ks, p.constraints.toList.mapM p.vocabulary.spellConstraint = .ok ks ∧
    Requirement.Distinct d.constraints ks

variable [Weight W] {d : Document W} {p : Problem W}

/-- A problem is faithful to its document if the numbers suffice for all names, and no number
changes when names are added. -/
theorem ofDocument_faithful (hp : ofDocument d = .ok p)
    (hfeatures : d.featureNames.dedup.length < 2 ^ 32 - 1)
    (hatoms : d.atomNames.dedup.length < 2 ^ 32 - 1) :
    Faithful d p ∧
    ∀ (v : Vocabulary) (name : String), v.Keeps (v.feature name).2 ∧ v.Keeps (v.atom name).2 := by
  refine ⟨?_, fun v name => ⟨keeps_feature v name, keeps_atom v name⟩⟩
  have hnames := (compiled_ofDocument hp).names
  have hone : p.vocabulary.OneToOne := hnames.oneToOne (by omega) (by omega)
  have hfeature := hnames.oneToOne_feature (by omega) (by omega)
  have hatom := hnames.oneToOne_atom (by omega) hatoms
  obtain ⟨⟨es, hes, htable⟩, hconstraints, hknown⟩ := ofDocument_eq hp hone
  exact {
    symbols := hone
    feature name := ⟨hfeature name, featureName_feature (hfeature name) (.refl _)⟩
    atom name := ⟨hatom name, atom_ne_null (hatom name) (.refl _),
      atomName_atom (hatom name) (.refl _)⟩
    contains i := by
      rw [htable]
      exact contains_iff hes
    column i := by
      rw [htable]
      exact forall₂_column hes i
    constraints := by
      rw [hconstraints]
      exact exists_spell_numbered hone hknown }

/-- Two entries for one slot, a choice, and a pair of terms both ways round. -/
def draft : Document Float where
  slots := [⟨1, [⟨[⟨["F"], some "a"⟩], []⟩]⟩, ⟨2, []⟩, ⟨1, [⟨[⟨["G"], none⟩], [(["G"], ["F"])]⟩]⟩]
  constraints := [.choice ⟨1, ["F"]⟩ (.ofList [("b", 0.25), ("a", 0.75)]),
    .relative ⟨2, ["F"]⟩ ⟨1, ["G"]⟩, .relative ⟨1, ["G"]⟩ ⟨2, ["F"]⟩]

theorem ofDocument_faithful_draft : ∃ p, ofDocument draft = .ok p ∧ Faithful draft p := by
  have hrun : (ofDocument draft).isOk = true := by decide +kernel
  cases hp : ofDocument draft with
  | error e =>
    rw [hp] at hrun
    cases hrun
  | ok p => exact ⟨p, rfl, (ofDocument_faithful hp (by decide +kernel) (by decide +kernel)).1⟩

/-- Slot 1 has both candidates and slot 2 no column; of the pair the first way round is kept. -/
example : (match ofDocument draft with
    | .ok p => (p.table.entries.map fun e => (e.1, e.2.length),
        (p.constraints.relatives.toList.map (·.lhs.slot)), p.constraints.size)
    | .error _ => ([], [], 0)) = ([(1, 2)], [2], 2) := by decide +kernel

end Problem

end FeatureLogic
