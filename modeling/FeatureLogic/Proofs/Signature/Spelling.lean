import FeatureLogic.Proofs.Constraint.Deduplication
import FeatureLogic.Proofs.Signature.Interning
/-!
Spelling out: from numbers back to names. What a vocabulary numbers part by part, every later one in
which names and numbers determine each other spells as it was written.
-/
set_option autoImplicit false

namespace FeatureLogic

variable {W : Type}

namespace Document.Requirement

/-- The constraint the other way round, if it has two sides. -/
def flip : Requirement W → Requirement W
  | relative lhs rhs => relative rhs lhs
  | k => k

/-- The same, up to the order of two sides. -/
def Same (k l : Requirement W) : Prop := l = k ∨ l = k.flip

/-- The first of each class in `ks`, in some order. -/
structure Distinct (ks ls : List (Requirement W)) : Prop where
  first {k : Requirement W} : k ∈ ls ↔
    ∃ before after, ks = before ++ k :: after ∧ ∀ l ∈ before, ¬ k.Same l
  once : ls.Pairwise fun k l => ¬ k.Same l
  every : ∀ k ∈ ks, ∃ l ∈ ls, k.Same l

end Document.Requirement

theorem mapM_eq_ok {ε α β : Type} {f : α → Except ε β} {as : List α} {bs : List β}
    (h : List.Forall₂ (fun a b => f a = .ok b) as bs) : as.mapM f = .ok bs := by
  induction h with
  | nil => rfl
  | cons hab _ ih =>
    rw [List.mapM_cons, hab, ih]
    rfl

namespace Vocabulary

def spellPath (v : Vocabulary) (p : Path) : Except UnknownSymbol (List String) :=
  p.mapM v.featureName

def spellTerm (v : Vocabulary) (t : PathTerm) : Except UnknownSymbol Document.Term := do
  return ⟨t.slot, ← v.spellPath t.path⟩

def spellAtom? (v : Vocabulary) (a : Atom) : Except UnknownSymbol (Option String) :=
  if a.isNull then .ok none else some <$> v.atomName a

def spellValue (v : Vocabulary) (e : Path × Atom) : Except UnknownSymbol Document.Value := do
  return ⟨← v.spellPath e.1, ← v.spellAtom? e.2⟩

def spellPaths (v : Vocabulary) (e : Path × Path) :
    Except UnknownSymbol (List String × List String) := do
  return (← v.spellPath e.1, ← v.spellPath e.2)

def spellDescription (v : Vocabulary) (δ : Description) :
    Except UnknownSymbol Document.Candidate := do
  return ⟨← δ.values.mapM v.spellValue, ← δ.equivalences.mapM v.spellPaths⟩

def spellWeight (v : Vocabulary) (e : Atom × W) : Except UnknownSymbol (String × W) := do
  return (← v.atomName e.1, e.2)

def spellDistribution (v : Vocabulary) (m : Distribution W) :
    Except UnknownSymbol (SortedMap String W) := do
  return .ofList (← m.entries.mapM v.spellWeight)

def spellConstraint (v : Vocabulary) :
    Constraint W → Except UnknownSymbol (Document.Requirement W)
  | .absolute c => do return .absolute (← v.spellTerm c.term) (← v.atomName c.value)
  | .relative c => do return .relative (← v.spellTerm c.lhs) (← v.spellTerm c.rhs)
  | .choice c => do return .choice (← v.spellTerm c.term) (← v.spellDistribution c.distribution)

variable {v w : Vocabulary} {name : String}

section OneToOne
variable (hw : w.OneToOne)
include hw

theorem featureName_feature (h : (v.feature name).2.Keeps w) :
    w.featureName (v.feature name).1 = .ok name :=
  hw.feature.2 (h.feature (featureId?_feature v name))

theorem atom_ne_null (h : (v.atom name).2.Keeps w) : (v.atom name).1 ≠ .null := fun hnull =>
  hw.not_null name (hnull ▸ h.atom (atomId?_atom v name))

theorem atomName_atom (h : (v.atom name).2.Keeps w) : w.atomName (v.atom name).1 = .ok name :=
  (hw.atom (atom_ne_null hw h)).2 (h.atom (atomId?_atom v name))

theorem spellPath_path {names : List String} (h : (v.path names).2.Keeps w) :
    w.spellPath (v.path names).1 = .ok names := by
  induction names generalizing v with
  | nil => rfl
  | cons name names ih =>
    have hrest : ((v.feature name).2.path names).2.Keeps w := h
    have hname : w.featureName (v.feature name).1 = .ok name :=
      featureName_feature hw (((steady_path names).keeps _).trans hrest)
    have hnames := ih hrest
    rw [spellPath] at hnames ⊢
    change List.mapM w.featureName ((v.feature name).1 :: ((v.feature name).2.path names).1) = _
    rw [List.mapM_cons, hname, hnames]
    rfl

theorem spellTerm_term {t : Document.Term} (h : (v.term t).2.Keeps w) :
    w.spellTerm (v.term t).1 = .ok t := by
  change w.spellTerm ⟨t.index, (v.path t.path).1⟩ = _
  rw [spellTerm, spellPath_path hw h]
  rfl

theorem spellAtom?_atom? {name? : Option String} (h : (v.atom? name?).2.Keeps w) :
    w.spellAtom? (v.atom? name?).1 = .ok name? := by
  cases name? with
  | none => rfl
  | some name =>
    have hname : (v.atom name).2.Keeps w := h
    change w.spellAtom? (v.atom name).1 = _
    rw [spellAtom?, Atom.isNull, decide_eq_false (atom_ne_null hw hname), atomName_atom hw hname]
    rfl

theorem spellValues_values {values : List Document.Value} (h : (v.values values).2.Keeps w) :
    List.Forall₂ (fun e value => w.spellValue e = .ok value) (v.values values).1 values := by
  induction values generalizing v with
  | nil => exact .nil
  | cons value values ih =>
    rw [values_cons] at h ⊢
    have hatom := ((steady_values values).keeps _).trans h
    have hpath := ((steady_atom? value.atom).keeps _).trans hatom
    refine .cons ?_ (ih h)
    rw [spellValue, spellPath_path hw hpath, spellAtom?_atom? hw hatom]
    rfl

theorem spellPaths_equivalences {pairs : List (List String × List String)}
    (h : (v.equivalences pairs).2.Keeps w) :
    List.Forall₂ (fun e pair => w.spellPaths e = .ok pair) (v.equivalences pairs).1 pairs := by
  induction pairs generalizing v with
  | nil => exact .nil
  | cons pair pairs ih =>
    have hrest : (((v.path pair.1).2.path pair.2).2.equivalences pairs).2.Keeps w := h
    have hright := ((steady_equivalences pairs).keeps _).trans hrest
    have hleft := ((steady_path pair.2).keeps _).trans hright
    have hpair :
        w.spellPaths ((v.path pair.1).1, ((v.path pair.1).2.path pair.2).1) = .ok pair := by
      rw [spellPaths, spellPath_path hw hleft, spellPath_path hw hright]
      rfl
    exact .cons hpair (ih hrest)

theorem spellDescription_description {c : Document.Candidate} (h : (v.description c).2.Keeps w) :
    w.spellDescription (v.description c).1 = .ok c := by
  have hpairs : ((v.values c.values).2.equivalences c.equivalences).2.Keeps w := h
  have hvalues := ((steady_equivalences c.equivalences).keeps _).trans hpairs
  change w.spellDescription
    ⟨(v.values c.values).1, ((v.values c.values).2.equivalences c.equivalences).1⟩ = _
  rw [spellDescription, mapM_eq_ok (spellValues_values hw hvalues),
    mapM_eq_ok (spellPaths_equivalences hw hpairs)]
  rfl

theorem atomNames_weights {es : List (String × W)} (h : (v.weights es).2.Keeps w) :
    List.Forall₂ (fun e named => w.atomName e.1 = .ok named.1 ∧ e.2 = named.2)
      (v.weights es).1 es := by
  induction es generalizing v with
  | nil => exact .nil
  | cons e es ih =>
    have hrest : ((v.atom e.1).2.weights es).2.Keeps w := h
    have hname : w.atomName (v.atom e.1).1 = .ok e.1 :=
      atomName_atom hw (((steady_weights es).keeps _).trans hrest)
    exact .cons ⟨hname, rfl⟩ (ih hrest)

/-- Different names have different atoms, so no entry is lost. They may come in another order. -/
theorem spellDistribution_weights {m : SortedMap String W} (h : (v.weights m.entries).2.Keeps w) :
    w.spellDistribution (.ofList (v.weights m.entries).1) = .ok m := by
  have hnames := atomNames_weights hw h
  have hkeys : ((v.weights m.entries).1.map (·.1)).map w.atomName = m.keys.map .ok := by
    rw [← List.forall₂_eq_eq_eq, List.map_map, SortedMap.keys, List.map_map,
      List.forall₂_map_left_iff, List.forall₂_map_right_iff]
    exact hnames.imp fun _ _ => And.left
  have hnodup : ((v.weights m.entries).1.map (·.1)).Nodup := by
    refine List.Nodup.of_map w.atomName ?_
    rw [hkeys]
    exact m.ascending.nodup_keys.map fun _ _ => Except.ok.inj
  obtain ⟨es, hes, hperm⟩ :=
    List.perm_comp_forall₂ (SortedMap.entries_ofList_perm hnodup) hnames
  have hspell : (SortedMap.ofList (v.weights m.entries).1).entries.mapM w.spellWeight = .ok es := by
    refine mapM_eq_ok (hes.imp fun e named he => ?_)
    rw [spellWeight, he.1, he.2]
    rfl
  rw [spellDistribution, hspell]
  exact congrArg Except.ok (SortedMap.ofList_eq_of_perm hperm)

theorem spellConstraint_constraint {k : Document.Requirement W}
    (h : (v.constraint k).2.Keeps w) : w.spellConstraint (v.constraint k).1 = .ok k := by
  cases k with
  | absolute t value =>
    have hvalue : ((v.term t).2.atom value).2.Keeps w := h
    have hterm := ((steady_atom value).keeps _).trans hvalue
    change w.spellConstraint (.absolute ⟨(v.term t).1, ((v.term t).2.atom value).1⟩) = _
    rw [spellConstraint, spellTerm_term hw hterm, atomName_atom hw hvalue]
    rfl
  | relative lhs rhs =>
    have hright : ((v.term lhs).2.term rhs).2.Keeps w := h
    have hleft := ((steady_term rhs).keeps _).trans hright
    change w.spellConstraint (.relative ⟨(v.term lhs).1, ((v.term lhs).2.term rhs).1⟩) = _
    rw [spellConstraint, spellTerm_term hw hleft, spellTerm_term hw hright]
    rfl
  | choice t distribution =>
    have hweights : ((v.term t).2.weights distribution.entries).2.Keeps w := h
    have hterm := ((steady_weights distribution.entries).keeps _).trans hweights
    change w.spellConstraint (.choice
      ⟨(v.term t).1, .ofList ((v.term t).2.weights distribution.entries).1⟩) = _
    rw [spellConstraint, spellTerm_term hw hterm, spellDistribution_weights hw hweights]
    rfl

end OneToOne

/-! ## Sets of constraints -/

variable {k l : Document.Requirement W} {c e : Constraint W} {ks : List (Document.Requirement W)}

/-- The set of the constraints as `w` numbers them. -/
def numbered [Weight W] (w : Vocabulary) (ks : List (Document.Requirement W)) : ConstraintSet W :=
  .ofList (ks.map fun k => (w.constraint k).1)

theorem constraints_eq_map (h : (v.constraints ks).2.Keeps w) :
    (v.constraints ks).1 = ks.map (fun k => (w.constraint k).1) ∧
    ∀ k ∈ ks, (w.constraint k).2 = w := by
  induction ks generalizing v with
  | nil => exact ⟨rfl, by simp⟩
  | cons k ks ih =>
    have hrest : ((v.constraint k).2.constraints ks).2.Keeps w := h
    obtain ⟨hmap, hknown⟩ := ih hrest
    have hk : w.constraint k = ((v.constraint k).1, w) :=
      (steady_constraint k).again (((steady_constraints ks).keeps _).trans hrest)
    refine ⟨?_, List.forall_mem_cons.2 ⟨congrArg Prod.snd hk, hknown⟩⟩
    rw [List.map_cons, ← hmap, hk]
    rfl

theorem constraint_flip (h : (w.constraint k).2 = w) :
    w.constraint k.flip = ((w.constraint k).1.flip, w) := by
  cases k with
  | absolute t value => exact Prod.ext rfl h
  | choice t distribution => exact Prod.ext rfl h
  | relative lhs rhs =>
    have hboth : ((w.term lhs).2.term rhs).2 = w := h
    have hkeeps := (steady_term rhs).keeps (w.term lhs).2
    rw [hboth] at hkeeps
    have hleft : w.term lhs = ((w.term lhs).1, w) := (steady_term lhs).again hkeeps
    have hright : w.term rhs = ((w.term rhs).1, w) := by
      rw [hleft] at hboth
      exact Prod.ext rfl hboth
    change (Constraint.relative ⟨(w.term rhs).1, ((w.term rhs).2.term lhs).1⟩,
      ((w.term rhs).2.term lhs).2) =
        (Constraint.relative ⟨((w.term lhs).2.term rhs).1, (w.term lhs).1⟩, w)
    rw [hleft, hright, hleft]

section OneToOne
variable (hw : w.OneToOne)
include hw

theorem spellConstraint_known (hk : (w.constraint k).2 = w) :
    w.spellConstraint (w.constraint k).1 = .ok k :=
  spellConstraint_constraint hw (hk.symm ▸ .refl w)

theorem constraint_injective (hk : (w.constraint k).2 = w) (hl : (w.constraint l).2 = w)
    (h : (w.constraint k).1 = (w.constraint l).1) : k = l := by
  have hspell := spellConstraint_known hw hk
  rw [h, spellConstraint_known hw hl] at hspell
  exact (Except.ok.inj hspell).symm

variable [Weight W]

theorem same_constraint_iff (hk : (w.constraint k).2 = w) (hl : (w.constraint l).2 = w) :
    (w.constraint k).1.Same (w.constraint l).1 ↔ k.Same l := by
  have hflip := constraint_flip hk
  rw [← Constraint.compare_eq_iff_same, Constraint.compare_eq_iff]
  constructor
  · rintro (h | h)
    · exact .inl (constraint_injective hw hl hk h)
    · refine .inr (constraint_injective hw hl (congrArg Prod.snd hflip) ?_)
      rw [h, hflip]
  · rintro (rfl | rfl)
    · exact .inl rfl
    · exact .inr (congrArg Prod.fst hflip)

/-- A constraint is in the set if it is the first of its class. -/
theorem constraint_mem_numbered_iff (hks : ∀ k ∈ ks, (w.constraint k).2 = w) (hk : k ∈ ks) :
    (w.constraint k).1 ∈ (w.numbered ks).toList ↔
      ∃ before after, ks = before ++ k :: after ∧ ∀ l ∈ before, ¬ k.Same l := by
  rw [numbered, ConstraintSet.mem_ofList]
  constructor
  · rintro ⟨before, after, hsplit, hfirst⟩
    obtain ⟨before, rest, rfl, rfl, hrest⟩ := List.map_eq_append_iff.1 hsplit
    obtain ⟨l, after, rfl, hl, rfl⟩ := List.map_eq_cons_iff.1 hrest
    obtain rfl : l = k :=
      constraint_injective hw (hks l (List.mem_append_right _ List.mem_cons_self)) (hks k hk) hl
    refine ⟨before, after, rfl, fun m hm hsame => ?_⟩
    refine hfirst _ (List.mem_map_of_mem hm) ((same_constraint_iff hw (hks l hk) ?_).2 hsame)
    exact hks m (List.mem_append_left _ hm)
  · rintro ⟨before, after, rfl, hfirst⟩
    refine ⟨_, _, List.map_append.trans (congrArg _ List.map_cons), List.forall_mem_map.2 ?_⟩
    intro m hm hsame
    have hm' := hks m (List.mem_append_left _ hm)
    exact hfirst m hm ((same_constraint_iff hw (hks k hk) hm').1 hsame)

theorem exists_spell_numbered (hks : ∀ k ∈ ks, (w.constraint k).2 = w) :
    ∃ ls, (w.numbered ks).toList.mapM w.spellConstraint = .ok ls ∧
      Document.Requirement.Distinct ks ls := by
  have hspell : ∀ c ∈ (w.numbered ks).toList,
      ∃ k, w.spellConstraint c = .ok k ∧ k ∈ ks ∧ (w.constraint k).1 = c := by
    intro c hc
    obtain ⟨k, hk, rfl⟩ := List.mem_map.1 (ConstraintSet.mem_of_mem_ofList hc)
    exact ⟨k, spellConstraint_known hw (hks k hk), hk, rfl⟩
  obtain ⟨ls, hrun, hls⟩ := exists_mapM_eq_ok hspell
  obtain ⟨hsub, hls⟩ := (List.forall₂_and_left ls _).1 hls.flip
  have hlist : ls.map (fun k => (w.constraint k).1) = (w.numbered ks).toList := by
    rw [← List.forall₂_eq_eq_eq]
    exact List.forall₂_map_left_iff.2 hls
  have hmem : ∀ {k}, k ∈ ks → ((w.constraint k).1 ∈ (w.numbered ks).toList ↔ k ∈ ls) := by
    intro k hk
    rw [← hlist, List.mem_map]
    refine ⟨?_, fun h => ⟨k, h, rfl⟩⟩
    rintro ⟨l, hl, he⟩
    rwa [← constraint_injective hw (hks l (hsub l hl)) (hks k hk) he]
  refine ⟨ls, hrun, fun {k} => ⟨fun hk => ?_, ?_⟩, ?_, fun k hk => ?_⟩
  · have hks' := hsub k hk
    exact (constraint_mem_numbered_iff hw hks hks').1 ((hmem hks').2 hk)
  · intro h
    have hk : k ∈ ks := by
      obtain ⟨before, after, rfl, -⟩ := h
      exact List.mem_append_right _ List.mem_cons_self
    exact (hmem hk).1 ((constraint_mem_numbered_iff hw hks hk).2 h)
  · have honce := (w.numbered ks).pairwise_not_same
    rw [← hlist, List.pairwise_map] at honce
    refine honce.imp_of_mem fun {k l} hk hl hne hsame => hne ?_
    exact (same_constraint_iff hw (hks k (hsub k hk)) (hks l (hsub l hl))).2 hsame
  · have hclass : ∃ c ∈ ks.map (fun k => (w.constraint k).1), (w.constraint k).1.Same c :=
      ⟨_, List.mem_map_of_mem hk, Constraint.compare_eq_iff_same.1 Std.ReflCmp.compare_self⟩
    obtain ⟨c, hc, hsame⟩ := ConstraintSet.exists_mem_ofList_iff.2 hclass
    obtain ⟨l, hl, rfl⟩ := List.mem_map.1 (ConstraintSet.mem_of_mem_ofList hc)
    exact ⟨l, (hmem hl).1 hc, (same_constraint_iff hw (hks k hk) (hks l hl)).1 hsame⟩

end OneToOne

end Vocabulary

end FeatureLogic
