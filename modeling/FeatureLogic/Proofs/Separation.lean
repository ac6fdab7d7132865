import FeatureLogic.Proofs.Facts
/-!
Facts about slots that have nothing to do with each other. Put together they force what each of them
forces, and at a path of one side there is nothing to see of the other.
-/
set_option autoImplicit false

namespace FeatureLogic.Facts

variable {F G : Facts} {P Q R : SlotIndex → Prop} {t u : PathTerm} {a : Atom} {ok : Atom → Prop}

/-- All there could be to say about some slots. -/
def about (P : SlotIndex → Prop) : Facts where
  same t u := P t.slot ∧ P u.slot
  value t _ := P t.slot

theorem closed_about (P : SlotIndex → Prop) : (about P).Closed where
  symm := And.symm
  trans h h' := ⟨h.1, h'.2⟩
  up h := h
  congr h _ := h
  has_of_value h := ⟨h, h⟩
  value_congr h _ := h.2

theorem about_mono (h : ∀ s, P s → Q s) : about P ≤ about Q :=
  ⟨fun _ _ hs => ⟨h _ hs.1, h _ hs.2⟩, fun _ _ hs => h _ hs⟩

theorem closure_le_about (hF : F ≤ about P) : F.closure ≤ about P :=
  closure_le (closed_about P) hF

theorem Acyclic.sup (hF : F.Acyclic) (hG : G.Acyclic) : (F ⊔ G).Acyclic :=
  fun t q => Or.rec (hF t q) (hG t q)

/-! ## Seen from one side -/

section OneSide
variable (hG : G ≤ about Q)
include hG

theorem same_sup_iff (h : ¬ (Q t.slot ∧ Q u.slot)) : (F ⊔ G).same t u ↔ F.same t u :=
  or_iff_left fun hs => h (hG.1 t u hs)

theorem has_sup_iff (ht : ¬ Q t.slot) : (F ⊔ G).Has t ↔ F.Has t :=
  same_sup_iff hG fun h => ht h.1

theorem has_below_sup_iff (ht : ¬ Q t.slot) (q : Path) :
    (F ⊔ G).Has (t.below q) ↔ F.Has (t.below q) :=
  has_sup_iff (t := t.below q) hG ht

theorem value_sup_iff (ht : ¬ Q t.slot) : (F ⊔ G).value t a ↔ F.value t a :=
  or_iff_left fun ha => ht (hG.2 t a ha)

theorem emptyAt_sup_iff (ht : ¬ Q t.slot) : (F ⊔ G).EmptyAt t ↔ F.EmptyAt t := by
  constructor
  · intro h
    refine ⟨(has_sup_iff hG ht).1 h.has, fun a ha => h.not_value a ?_, fun f hf => ?_⟩
    · exact (value_sup_iff hG ht).2 ha
    · exact h.not_has_below f ((has_below_sup_iff hG ht [f]).2 hf)
  · intro h
    refine ⟨(has_sup_iff hG ht).2 h.has, fun a ha => h.not_value a ?_, fun f hf => ?_⟩
    · exact (value_sup_iff hG ht).1 ha
    · exact h.not_has_below f ((has_below_sup_iff hG ht [f]).1 hf)

theorem admits_sup_iff (ht : ¬ Q t.slot) : (F ⊔ G).Admits t ok ↔ F.Admits t ok := by
  refine ⟨fun h => h.anti le_sup_left, fun h => ?_⟩
  refine ⟨fun ha => h.value ((value_sup_iff hG ht).1 ha), fun f hf => ?_, ?_⟩
  · exact h.not_has_below f ((has_below_sup_iff hG ht [f]).1 hf)
  · rintro u f q a rfl ha
    exact h.not_value_above rfl ((value_sup_iff (t := u) hG ht).1 ha)

end OneSide

/-! ## Both sides -/

section BothSides
variable (hF : F ≤ about P) (hG : G ≤ about Q) (hPQ : ∀ s, P s → ¬ Q s)
include hF hG hPQ

theorem Closed.sup (hFc : F.Closed) (hGc : G.Closed) : (F ⊔ G).Closed where
  symm := Or.imp hFc.symm hGc.symm
  trans := by
    rintro t u v (h | h) (h' | h')
    · exact .inl (hFc.trans h h')
    · exact absurd (hG.1 _ _ h').1 (hPQ _ (hF.1 _ _ h).2)
    · exact absurd (hG.1 _ _ h).2 (hPQ _ (hF.1 _ _ h').1)
    · exact .inr (hGc.trans h h')
  up := Or.imp hFc.up hGc.up
  congr := by
    rintro t u q (h | h) (h' | h')
    · exact .inl (hFc.congr h h')
    · exact absurd (hG.1 _ _ h').1 (hPQ t.slot (hF.1 _ _ h).1)
    · exact absurd (hG.1 _ _ h).1 (hPQ t.slot (hF.1 _ _ h').1)
    · exact .inr (hGc.congr h h')
  has_of_value := Or.imp hFc.has_of_value hGc.has_of_value
  value_congr := by
    rintro t u a (h | h) (h' | h')
    · exact .inl (hFc.value_congr h h')
    · exact absurd (hG.2 _ _ h') (hPQ t.slot (hF.1 _ _ h).1)
    · exact absurd (hG.1 _ _ h).1 (hPQ t.slot (hF.2 _ _ h'))
    · exact .inr (hGc.value_congr h h')

/-- Facts about slots apart force nothing together. -/
theorem closure_sup_of_apart : (F ⊔ G).closure = F.closure ⊔ G.closure := by
  have hclosed : (F.closure ⊔ G.closure).Closed :=
    Closed.sup (closure_le_about hF) (closure_le_about hG) hPQ (closed_closure F) (closed_closure G)
  refine le_antisymm (closure_le hclosed (sup_le_sup F.le_closure G.le_closure)) (sup_le ?_ ?_)
  · exact closure_mono le_sup_left
  · exact closure_mono le_sup_right

theorem consistent_sup_iff : (F ⊔ G).Consistent ↔ F.Consistent ∧ G.Consistent := by
  refine ⟨fun h => ⟨h.mono le_sup_left, h.mono le_sup_right⟩, fun ⟨hFc, hGc⟩ => ⟨?_, ?_⟩⟩
  · rintro t a b (ha | ha) (hb | hb)
    · exact hFc.value_unique ha hb
    · exact absurd (hG.2 _ _ hb) (hPQ _ (hF.2 _ _ ha))
    · exact absurd (hG.2 _ _ ha) (hPQ _ (hF.2 _ _ hb))
    · exact hGc.value_unique ha hb
  · rintro t a f (ha | ha) (hf | hf)
    · exact hFc.not_has_below ha hf
    · exact absurd (hG.1 _ _ hf).1 (hPQ t.slot (hF.2 _ _ ha))
    · exact absurd (hG.2 _ _ ha) (hPQ t.slot (hF.1 _ _ hf).1)
    · exact hGc.not_has_below ha hf

end BothSides

/-! ## Some slots out of all -/

/-- What is said about some slots. -/
def on (F : Facts) (P : SlotIndex → Prop) : Facts where
  same t u := F.same t u ∧ P t.slot ∧ P u.slot
  value t a := F.value t a ∧ P t.slot

theorem on_le (F : Facts) (P : SlotIndex → Prop) : F.on P ≤ F :=
  ⟨fun _ _ => And.left, fun _ _ => And.left⟩

theorem on_on (F : Facts) (h : ∀ s, Q s → P s) : (F.on P).on Q = F.on Q := by
  ext t u
  · exact ⟨fun hs => ⟨hs.1.1, hs.2⟩, fun hs => ⟨⟨hs.1, h _ hs.2.1, h _ hs.2.2⟩, hs.2⟩⟩
  · exact ⟨fun ha => ⟨ha.1.1, ha.2⟩, fun ha => ⟨⟨ha.1, h _ ha.2⟩, ha.2⟩⟩

theorem sup_on (hF : F ≤ about P) (hG : G ≤ about Q) (hP : ∀ s, P s → R s)
    (hQ : ∀ s, Q s → ¬ R s) : (F ⊔ G).on R = F := by
  ext t u
  · refine ⟨fun ⟨hs, hR, _⟩ => hs.resolve_right fun hs => hQ _ (hG.1 _ _ hs).1 hR, fun hs => ?_⟩
    exact ⟨.inl hs, hP _ (hF.1 _ _ hs).1, hP _ (hF.1 _ _ hs).2⟩
  · refine ⟨fun ⟨ha, hR⟩ => ha.resolve_right fun ha => hQ _ (hG.2 _ _ ha) hR, fun ha => ?_⟩
    exact ⟨.inl ha, hP _ (hF.2 _ _ ha)⟩

end FeatureLogic.Facts
