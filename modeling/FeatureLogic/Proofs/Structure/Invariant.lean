import FeatureLogic.Proofs.Arena.Runs
import FeatureLogic.Proofs.Structure.Merging
import FeatureLogic.Structure.Description
/-!
The arenas of feature structures. A structure lives in an arena made by copying, so nothing in it
forwards; it is merged and described in arenas that are thrown away.
-/
set_option autoImplicit false

namespace FeatureLogic

open Arena (Adds Builds Follows)

variable {given : Content → Prop} {g h : Arena} {n root : NodeId} {p q : Path} {a : Atom}

/-- A copy into an arena of its own: nothing forwards there. -/
theorem Copying.copy_alone (hg : g.Sound given) (s : Selection) (n : NodeId) :
    ((start .empty).select g s n).2.target.Sound given ∧
      ((start .empty).select g s n).1 < ((start .empty).select g s n).2.target.size ∧
      ∀ m, ((start .empty).select g s n).2.target.resolve m = m := by
  have hin : InRange (start .empty).copies (start .empty).target := fun k v hv => by cases hv
  obtain ⟨hgain, hlt⟩ := select_gains (c := start .empty) hg Arena.Sound.start hin s n
  refine ⟨hgain.builds.sound, hlt, fun m => ?_⟩
  rw [hgain.builds.resolve]
  exact Arena.resolve_of_size_le (Nat.zero_le m)

namespace FeatureStructure

variable {s t u : FeatureStructure}

/-- A structure in a sound arena of its own, in which nothing forwards. -/
structure Sound (given : Content → Prop) (s : FeatureStructure) : Prop where
  arena : s.arena.Sound given
  root_lt : s.root < s.arena.size
  resolve (n : NodeId) : s.arena.resolve n = n

theorem Sound.not_forwards (hs : s.Sound given) (n t : NodeId) :
    s.arena.cells[n]? ≠ some (.forwards t) :=
  fun ht => hs.arena.settled.forwards_iff.1 ⟨t, ht⟩ (hs.resolve n)

theorem sound_atomic (a : Atom) : (atomic a).Sound given := by
  have hb : Builds given .empty (Arena.empty.alloc (.leaf a)).2 :=
    .alloc .start (Content.allowed_leaf a)
  refine ⟨hb.sound, by simp [atomic, Arena.alloc, Arena.size], fun n => ?_⟩
  have hres : (atomic a).arena.resolve n = Arena.empty.resolve n := congrFun hb.resolve n
  rw [hres]
  exact Arena.resolve_of_size_le (Nat.zero_le n)

theorem sound_compact (hg : g.Sound given) (n : NodeId) : (compact ⟨g, n⟩).Sound given := by
  obtain ⟨hsound, hlt, hres⟩ := Copying.copy_alone hg .everything n
  exact ⟨hsound, hlt, hres⟩

namespace Sound

theorem select (hs : s.Sound given) (tree : FeatureTree) : (s.select tree).Sound given := by
  obtain ⟨hsound, hlt, hres⟩ := Copying.copy_alone hs.arena (.named tree) s.root
  exact ⟨hsound, hlt, hres⟩

/-- Refused or not. -/
theorem createValue (hs : s.Sound given) (p : Path) (a : Atom) :
    (s.createValue p a).2.Sound given := by
  have hb := Adds.createValue (p := p) hs.arena hs.root_lt a rfl
  refine ⟨hb.sound, Nat.lt_of_lt_of_le hs.root_lt hb.size_le, fun n => ?_⟩
  exact (congrFun hb.resolve n).trans (hs.resolve n)

theorem unify (hs : s.Sound given) (ht : t.Sound given) (hu : s.unify? t = some u) :
    u.Sound given := by
  have hin : Copying.InRange (Copying.start s.arena).copies (Copying.start s.arena).target :=
    fun k v hv => by cases hv
  obtain ⟨hgain, hlt⟩ :=
    Copying.select_gains (c := .start s.arena) ht.arena hs.arena hin .everything t.root
  have hf := Follows.unify hgain.builds.sound (hgain.lt hs.root_lt) hlt
  unfold unify? Copying.copy at hu
  dsimp only at hu
  split at hu
  · rename_i g hg
    cases hu
    rw [hg] at hf
    exact sound_compact hf.sound s.root
  · cases hu

theorem coindex (hs : s.Sound given) (ht : s.coindex p q = .ok (some t)) : t.Sound given := by
  unfold FeatureStructure.coindex at ht
  split at ht
  · cases ht
  · rename_i l g₁ hl
    obtain ⟨h₁, hl⟩ := Adds.materialize hs.arena hs.root_lt hl
    split at ht
    · cases ht
    · rename_i r g₂ hr
      obtain ⟨h₂, hr⟩ :=
        Adds.materialize h₁.sound (Nat.lt_of_lt_of_le hs.root_lt h₁.size_le) hr
      have hf := Follows.unify h₂.sound (Nat.lt_of_lt_of_le (hl l rfl).1 h₂.size_le) (hr r rfl).1
      split at ht
      · rename_i g₃ hg
        cases ht
        rw [hg] at hf
        exact sound_compact hf.sound s.root
      · cases ht

end Sound

end FeatureStructure

/-! ## Descriptions -/

namespace Description

variable {values : List (Path × Atom)} {pairs : List (Path × Path)}

theorem follows_placeRootValue (hg : g.Sound given) (hr : root < g.size)
    (hrun : placeRootValue root values g = .ok h) : Follows given g h := by
  unfold placeRootValue at hrun
  split at hrun
  · cases hrun
    exact .refl hg
  · split at hrun
    · rename_i hassign
      cases hrun
      exact (Adds.assignAtom hg hr _ hassign).follows hg
    · cases hrun
  · cases hrun

theorem follows_placeValues (hg : g.Sound given) (hr : root < g.size)
    (hrun : placeValues root values g = .ok h) : Follows given g h := by
  induction values generalizing g with
  | nil =>
    cases hrun
    exact .refl hg
  | cons e values ih =>
    rw [placeValues] at hrun
    split at hrun
    · rename_i hcreate
      have hstep := (Adds.createValue hg hr _ hcreate).follows hg
      exact hstep.trans (ih hstep.sound (hstep.lt hr) hrun)
    · cases hrun

theorem follows_link (hg : g.Sound given) (hr : root < g.size) {t : NodeId} (ht : t < g.size)
    (hrun : (match g.linkPath root p t with
      | (.ok (), g) => Except.ok g
      | (.error e, _) => .error e) = .ok h) : Follows given g h := by
  split at hrun
  · rename_i hlink
    cases hrun
    exact (Adds.linkPath hg hr ht hlink).follows hg
  · cases hrun

theorem follows_placeEquivalence (hg : g.Sound given) (hr : root < g.size)
    (hrun : placeEquivalence root p q g = .ok h) : Follows given g h := by
  have hlt : ∀ {p n}, g.lookup root p = .found n → n < g.size := hg.lookup_lt hr
  unfold placeEquivalence at hrun
  split at hrun
  · cases hrun
  · cases hrun
  · rename_i l r hl hr
    have hf := Follows.unify hg (hlt hl) (hlt hr)
    split at hrun
    · rename_i g' hunify
      cases hrun
      rw [hunify] at hf
      exact hf
    · cases hrun
  · rename_i hl _
    exact follows_link hg hr (hlt hl) hrun
  · rename_i _ hl
    exact follows_link hg hr (hlt hl) hrun
  · cases hrun

theorem follows_placeEquivalences (hg : g.Sound given) (hr : root < g.size)
    (hrun : placeEquivalences root pairs g = .ok h) : Follows given g h := by
  induction pairs generalizing g with
  | nil =>
    cases hrun
    exact .refl hg
  | cons e pairs ih =>
    rw [placeEquivalences] at hrun
    split at hrun
    · rename_i hplace
      have hstep := follows_placeEquivalence hg hr hplace
      exact hstep.trans (ih hstep.sound (hstep.lt hr) hrun)
    · cases hrun

end Description

theorem FeatureStructure.sound_ofDescription {d : Description} {s : FeatureStructure}
    (h : ofDescription d = .ok s) : s.Sound given := by
  have hroot : Builds given .empty (Arena.empty.alloc .empty).2 :=
    .alloc .start Content.allowed_empty
  have hlt : 0 < (Arena.empty.alloc .empty).2.size := by simp
  unfold ofDescription at h
  simp only [bind, Except.bind, pure, Except.pure] at h
  split at h
  · cases h
  · rename_i g₁ hrun₁
    have h₁ := Description.follows_placeRootValue hroot.sound hlt hrun₁
    split at h
    · cases h
    · rename_i g₂ hrun₂
      have h₂ := h₁.trans (Description.follows_placeValues h₁.sound (h₁.lt hlt) hrun₂)
      split at h
      · cases h
      · rename_i g₃ hrun₃
        have h₃ := Description.follows_placeEquivalences h₂.sound (h₂.lt hlt) hrun₃
        cases h
        exact sound_compact h₃.sound _

end FeatureLogic
