import FeatureLogic.Proofs.Facts
import Mathlib.Logic.Relation
/-!
Renaming of features and atoms. Facts under new names are the facts there were, path by path, so
what facts force and everything that is said about them goes through a renaming unchanged.
-/
set_option autoImplicit false

namespace FeatureLogic

/-- New names, no two of them the same. The null atom is no name and stays. -/
structure Renaming where
  feature : Feature → Feature
  atom : Atom → Atom
  feature_injective : Function.Injective feature
  atom_injective : Function.Injective atom
  atom_null : atom .null = .null

namespace Renaming

def path (ρ : Renaming) (p : Path) : Path := p.map ρ.feature

def term (ρ : Renaming) (t : PathTerm) : PathTerm := { t with path := ρ.path t.path }

variable {ρ : Renaming} {t u : PathTerm} {q : Path} {f : Feature} {a : Atom}

theorem atom_eq_null : ρ.atom a = .null ↔ a = .null := by
  rw [← ρ.atom_injective.eq_iff (a := a) (b := .null), ρ.atom_null]

theorem path_injective : Function.Injective ρ.path :=
  List.map_injective_iff.2 ρ.feature_injective

theorem term_injective : Function.Injective ρ.term := by
  rintro ⟨i, p⟩ ⟨j, q⟩ h
  obtain ⟨hslot, hpath⟩ := PathTerm.mk.inj h
  exact congrArg₂ PathTerm.mk hslot (path_injective hpath)

@[simp] theorem term_below (t : PathTerm) (q : Path) :
    ρ.term (t.below q) = (ρ.term t).below (ρ.path q) := by
  simp [term, PathTerm.below, path]

/-- What lies above a renamed term is renamed, and so is the way down. -/
theorem term_eq_below : ρ.term u = t.below q ↔
    ∃ v r, u = PathTerm.below v r ∧ ρ.term v = t ∧ ρ.path r = q := by
  constructor
  · intro h
    obtain ⟨hslot, hpath⟩ := PathTerm.mk.inj h
    obtain ⟨p, r, hp, hp', hr⟩ := List.map_eq_append_iff.1 hpath
    exact ⟨⟨u.slot, p⟩, r, congrArg (PathTerm.mk u.slot) hp, congrArg₂ PathTerm.mk hslot hp', hr⟩
  · rintro ⟨v, r, rfl, rfl, rfl⟩
    exact term_below v r

theorem term_eq_child : ρ.term u = t.below [f] ↔
    ∃ v g, u = PathTerm.below v [g] ∧ ρ.term v = t ∧ ρ.feature g = f := by
  rw [term_eq_below]
  constructor
  · rintro ⟨v, r, rfl, rfl, hr⟩
    obtain ⟨g, rfl, hg⟩ := List.map_eq_singleton_iff.1 hr
    exact ⟨v, g, rfl, rfl, hg⟩
  · rintro ⟨v, g, rfl, rfl, rfl⟩
    exact ⟨v, [g], rfl, rfl, rfl⟩

end Renaming

namespace Facts
open Renaming (term_injective term_below term_eq_below term_eq_child)

variable {ρ : Renaming} {F G : Facts} {t u : PathTerm} {a : Atom} {f : Feature}

def rename (F : Facts) (ρ : Renaming) : Facts where
  same := Relation.Map F.same ρ.term ρ.term
  value := Relation.Map F.value ρ.term ρ.atom

/-- The facts that a renaming takes into `G`. -/
def beforeRename (G : Facts) (ρ : Renaming) : Facts where
  same t u := G.same (ρ.term t) (ρ.term u)
  value t a := G.value (ρ.term t) (ρ.atom a)

theorem rename_le : F.rename ρ ≤ G ↔ F ≤ G.beforeRename ρ := by
  constructor
  · exact fun h => ⟨fun t u hs => h.1 _ _ ⟨t, u, hs, rfl, rfl⟩,
      fun t a ha => h.2 _ _ ⟨t, a, ha, rfl, rfl⟩⟩
  · rintro ⟨hsame, hvalue⟩
    refine ⟨?_, ?_⟩
    · rintro _ _ ⟨t, u, hs, rfl, rfl⟩
      exact hsame t u hs
    · rintro _ _ ⟨t, a, ha, rfl, rfl⟩
      exact hvalue t a ha

theorem rename_mono (h : F ≤ G) : F.rename ρ ≤ G.rename ρ :=
  rename_le.2 (h.trans (rename_le.1 le_rfl))

@[simp] theorem rename_same : (F.rename ρ).same (ρ.term t) (ρ.term u) ↔ F.same t u := by
  refine ⟨?_, fun h => ⟨t, u, h, rfl, rfl⟩⟩
  rintro ⟨t', u', h, ht, hu⟩
  rwa [← term_injective ht, ← term_injective hu]

@[simp] theorem rename_value : (F.rename ρ).value (ρ.term t) (ρ.atom a) ↔ F.value t a := by
  refine ⟨?_, fun h => ⟨t, a, h, rfl, rfl⟩⟩
  rintro ⟨t', a', h, ht, ha⟩
  rwa [← term_injective ht, ← ρ.atom_injective ha]

@[simp] theorem rename_has : (F.rename ρ).Has (ρ.term t) ↔ F.Has t := rename_same

theorem exists_of_has_rename (h : (F.rename ρ).Has t) : ∃ u, ρ.term u = t ∧ F.Has u := by
  obtain ⟨u, v, hs, rfl, hv⟩ := h
  rw [term_injective hv] at hs
  exact ⟨u, rfl, hs⟩

@[simp] theorem rename_has_child :
    (F.rename ρ).Has ((ρ.term t).below [f]) ↔ ∃ g, ρ.feature g = f ∧ F.Has (t.below [g]) := by
  constructor
  · intro h
    obtain ⟨u, hu, hhas⟩ := exists_of_has_rename h
    obtain ⟨v, g, rfl, hv, hg⟩ := term_eq_child.1 hu
    rw [term_injective hv] at hhas
    exact ⟨g, hg, hhas⟩
  · rintro ⟨g, rfl, hhas⟩
    have hchild : ρ.term (t.below [g]) = (ρ.term t).below [ρ.feature g] := term_below t [g]
    exact hchild ▸ rename_has.2 hhas

@[simp] theorem rename_bot (ρ : Renaming) : (⊥ : Facts).rename ρ = ⊥ :=
  le_bot_iff.1 (rename_le.2 bot_le)

theorem rename_sup (F G : Facts) : (F ⊔ G).rename ρ = F.rename ρ ⊔ G.rename ρ :=
  le_antisymm
    (rename_le.2 (sup_le (rename_le.1 le_sup_left) (rename_le.1 le_sup_right)))
    (sup_le (rename_mono le_sup_left) (rename_mono le_sup_right))

theorem rename_all (Fs : List Facts) : (all Fs).rename ρ = all (Fs.map (rename · ρ)) := by
  induction Fs with
  | nil => simp
  | cons F Fs ih => simp only [List.map_cons, all_cons, rename_sup, ih]

/-! ## Closed facts -/

theorem Closed.rename (hF : F.Closed) : (F.rename ρ).Closed where
  symm := by
    rintro _ _ ⟨t, u, hs, rfl, rfl⟩
    exact rename_same.2 (hF.symm hs)
  trans := by
    rintro _ _ _ ⟨t, u, hs, rfl, rfl⟩ ⟨u', v, hs', hu, rfl⟩
    rw [term_injective hu] at hs'
    exact rename_same.2 (hF.trans hs hs')
  up := by
    intro t q h
    obtain ⟨u, hu, hhas⟩ := exists_of_has_rename h
    obtain ⟨v, r, rfl, rfl, -⟩ := term_eq_below.1 hu
    exact rename_has.2 (hF.up hhas)
  congr := by
    rintro _ _ q ⟨t, u, hs, rfl, rfl⟩ h
    obtain ⟨v, hv, hhas⟩ := exists_of_has_rename h
    obtain ⟨w, r, rfl, hw, rfl⟩ := term_eq_below.1 hv
    rw [term_injective hw] at hhas
    rw [← term_below, ← term_below]
    exact rename_same.2 (hF.congr hs hhas)
  has_of_value := by
    rintro _ _ ⟨t, a, ha, rfl, rfl⟩
    exact rename_has.2 (hF.has_of_value ha)
  value_congr := by
    rintro _ _ _ ⟨t, u, hs, rfl, rfl⟩ ⟨t', a, ha, ht, rfl⟩
    rw [term_injective ht] at ha
    exact rename_value.2 (hF.value_congr hs ha)

theorem Closed.beforeRename (hG : G.Closed) : (G.beforeRename ρ).Closed where
  symm := hG.symm
  trans := hG.trans
  up {t q} h := by
    have h : G.Has (ρ.term (t.below q)) := h
    rw [term_below] at h
    exact hG.up h
  congr {t u q} hs h := by
    have h : G.Has (ρ.term (t.below q)) := h
    rw [term_below] at h
    have hcongr := hG.congr hs h
    rwa [← term_below, ← term_below] at hcongr
  has_of_value := hG.has_of_value
  value_congr := hG.value_congr

/-- Facts under new names force what they force, under new names. -/
theorem closure_rename (F : Facts) : (F.rename ρ).closure = F.closure.rename ρ :=
  le_antisymm
    (closure_le (closed_closure F).rename (rename_mono F.le_closure))
    (rename_le.2 (closure_le (closed_closure _).beforeRename (rename_le.1 (le_closure _))))

/-! ## What is said about facts -/

theorem Acyclic.rename (hF : F.Acyclic) : (F.rename ρ).Acyclic := by
  rintro _ q ⟨t, u, hs, rfl, hu⟩
  obtain ⟨v, r, rfl, hv, rfl⟩ := term_eq_below.1 hu
  rw [term_injective hv] at hs
  rw [hF _ _ hs]
  rfl

theorem consistent_rename : (F.rename ρ).Consistent ↔ F.Consistent := by
  constructor
  · intro h
    refine ⟨fun ha hb => ?_, fun {t a f} ha hf => ?_⟩
    · exact ρ.atom_injective (h.value_unique (rename_value.2 ha) (rename_value.2 hb))
    · exact h.not_has_below (rename_value.2 ha) (rename_has_child.2 ⟨f, rfl, hf⟩)
  · intro h
    refine ⟨?_, ?_⟩
    · rintro _ _ _ ⟨t, a, ha, rfl, rfl⟩ ⟨t', b, hb, ht, rfl⟩
      rw [term_injective ht] at hb
      rw [h.value_unique ha hb]
    · rintro _ _ f ⟨t, a, ha, rfl, rfl⟩ hf
      obtain ⟨g, -, hg⟩ := rename_has_child.1 hf
      exact h.not_has_below ha hg

theorem emptyAt_rename : (F.rename ρ).EmptyAt (ρ.term t) ↔ F.EmptyAt t := by
  constructor
  · intro h
    exact ⟨rename_has.1 h.has, fun a ha => h.not_value _ (rename_value.2 ha),
      fun f hf => h.not_has_below _ (rename_has_child.2 ⟨f, rfl, hf⟩)⟩
  · intro h
    refine ⟨rename_has.2 h.has, ?_, fun f hf => ?_⟩
    · rintro _ ⟨u, a, ha, hu, rfl⟩
      rw [term_injective hu] at ha
      exact h.not_value a ha
    · obtain ⟨g, -, hg⟩ := rename_has_child.1 hf
      exact h.not_has_below g hg

theorem admits_rename {ok : Atom → Prop} :
    (F.rename ρ).Admits (ρ.term t) ok ↔ F.Admits t fun a => ok (ρ.atom a) := by
  constructor
  · intro h
    refine ⟨fun ha => h.value (rename_value.2 ha),
      fun f hf => h.not_has_below _ (rename_has_child.2 ⟨f, rfl, hf⟩), ?_⟩
    rintro u f q a rfl ha
    exact h.not_value_above (term_below u (f :: q)) (rename_value.2 ha)
  · intro h
    refine ⟨?_, fun f hf => ?_, ?_⟩
    · rintro _ ⟨u, a, ha, hu, rfl⟩
      rw [term_injective hu] at ha
      exact h.value ha
    · obtain ⟨g, -, hg⟩ := rename_has_child.1 hf
      exact h.not_has_below g hg
    · rintro _ f q _ ht ⟨u, a, ha, rfl, rfl⟩
      obtain ⟨v, r, rfl, hv, hr⟩ := term_eq_below.1 ht
      rw [term_injective hv] at h
      obtain ⟨g, r, rfl, -, -⟩ := List.map_eq_cons_iff.1 hr
      exact h.not_value_above rfl ha

end Facts

end FeatureLogic
