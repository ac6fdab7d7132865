import FeatureLogic.Proofs.Interpretation.Facts
/-!
Single checks. A check that passes adds what the constraint asks for and what this forces, and
nothing else; the paths of values and choices are read before anything is added.
-/
set_option autoImplicit false

namespace FeatureLogic.Interpretation

variable {W : Type} {i j k : Interpretation W} {F G V : Facts} {s : SlotIndex} {l r n : NodeId}

/-- `j` has the slots of `i`, the facts of `i` and more, all of them in `F`. -/
structure Evolves (F : Facts) (i j : Interpretation W) : Prop where
  wellFormed : j.WellFormed
  slots : j.slots = i.slots
  facts_le : i.facts ≤ j.facts
  le : j.facts ≤ F

theorem Evolves.refl (hi : i.WellFormed) (hle : i.facts ≤ F) : Evolves F i i :=
  ⟨hi, rfl, le_rfl, hle⟩

theorem Evolves.trans (h : Evolves F i j) (h' : Evolves F j k) : Evolves F i k :=
  ⟨h'.wellFormed, h'.slots.trans h.slots, h.facts_le.trans h'.facts_le, h'.le⟩

theorem Evolves.assigned (h : Evolves F i j) : j.Assigned = i.Assigned := by
  unfold Assigned
  rw [h.slots]

theorem WellFormed.evolves (hi : i.WellFormed) {h : Arena}
    (he : Arena.Extends i.slots.get? F i.arena h) : Evolves F i { i with arena := h } where
  wellFormed := ⟨he.wellFormed, he.roots_lt hi.root_lt⟩
  slots := rfl
  facts_le := he.facts_le
  le := he.le

theorem exists_eq_true {p : Bool × Interpretation W} (h : p.1 = true) : ∃ j, p = (true, j) :=
  ⟨p.2, Prod.ext h rfl⟩

section Relative
variable {c : Relative}

theorem checkRelative_of_roots (hl : i.slots.get? c.lhs.slot = some l)
    (hr : i.slots.get? c.rhs.slot = some r) :
    i.checkRelative c = match i.arena.equate l c.lhs.path r c.rhs.path with
      | (.ok true, arena) => (true, { i with arena })
      | (.ok false, arena) => (false, fail { i with arena })
      | (.error _, arena) => (false, { i with arena }) := by
  unfold checkRelative Arena.equate
  rw [hl, hr]
  dsimp only
  rcases i.arena.materialize l c.lhs.path with ⟨e | m, g⟩
  · rfl
  · dsimp only
    rcases g.materialize r c.rhs.path with ⟨e | n, g⟩
    · rfl
    · dsimp only
      rcases g.unify m n with ⟨_ | _, g⟩ <;> rfl

theorem checkRelative_of_unassigned (h : ¬ (i.Assigned c.lhs.slot ∧ i.Assigned c.rhs.slot)) :
    i.checkRelative c = (true, i) := by
  unfold checkRelative
  cases hl : i.slots.get? c.lhs.slot with
  | none => rfl
  | some l =>
    cases hr : i.slots.get? c.rhs.slot with
    | none => rfl
    | some r => exact absurd ⟨⟨l, hl⟩, ⟨r, hr⟩⟩ h

theorem checkRelative_spec (hi : i.WellFormed) (hF : F.Closed) (hA : F.Acyclic)
    (hle : i.facts ≤ F) (hc : c.factsOn i.Assigned ≤ F) :
    (∀ j, i.checkRelative c = (true, j) → Evolves F i j ∧ c.factsOn i.Assigned ≤ j.facts) ∧
      (F.Consistent → (i.checkRelative c).1 = true) := by
  by_cases h : i.Assigned c.lhs.slot ∧ i.Assigned c.rhs.slot
  · obtain ⟨⟨l, hl⟩, ⟨r, hr⟩⟩ := h
    have hs := Relative.factsOn_le.1 hc ⟨l, hl⟩ ⟨r, hr⟩
    obtain ⟨hok, hcons⟩ := Arena.equate_facts hi.arena hi.root_lt hl hr hF hA hle hs
    rw [checkRelative_of_roots hl hr]
    generalize i.arena.equate l c.lhs.path r c.rhs.path = e at *
    rcases e with ⟨e | _ | _, g⟩
    · exact ⟨fun j hj => (by cases hj), fun hc => by cases hcons hc⟩
    · exact ⟨fun j hj => (by cases hj), fun hc => by cases hcons hc⟩
    · obtain ⟨hext, hsame⟩ := hok rfl
      refine ⟨?_, fun _ => rfl⟩
      rintro j ⟨⟩
      exact ⟨hi.evolves hext, Relative.factsOn_le.2 fun _ _ => hsame⟩
  · rw [checkRelative_of_unassigned h]
    refine ⟨?_, fun _ => rfl⟩
    rintro j ⟨⟩
    exact ⟨.refl hi hle, Relative.factsOn_le.2 fun hl hr => absurd ⟨hl, hr⟩ h⟩

/-- Paths of one length can be made one without a cycle. -/
theorem checkRelative_graded (hi : i.WellFormed)
    (hgraded : i.facts.Graded) (hlen : c.lhs.path.length = c.rhs.path.length)
    (hpass : (i.checkRelative c).1 = true) :
    (i.checkRelative c).2.WellFormed ∧ (i.checkRelative c).2.facts.Graded ∧
      c.factsOn i.Assigned ≤ (i.checkRelative c).2.facts := by
  have hlink : (c.factsOn i.Assigned).Graded := by
    rintro _ _ ⟨⟨rfl, rfl⟩, -⟩
    exact hlen
  have hF := (hgraded.sup hlink).closure
  have hle := Facts.le_closure (i.facts ⊔ c.factsOn i.Assigned)
  obtain ⟨hev, hshared⟩ := (checkRelative_spec hi (Facts.closed_closure _) hF.acyclic
    (le_sup_left.trans hle) (le_sup_right.trans hle)).1 _ (Prod.ext hpass rfl)
  exact ⟨hev.wellFormed, fun t u h => hF t u (hev.le.1 t u h), hshared⟩

theorem checkRelative_probability (i : Interpretation W) (c : Relative) :
    (i.checkRelative c).2.probability = i.probability := by
  unfold checkRelative
  repeat' split
  all_goals rfl

end Relative

section Absolute
variable {c : Absolute}

theorem checkAbsolute_eq_true (hi : i.WellFormed) : (i.checkAbsolute c).1 = true ↔
    (i.Assigned c.term.slot →
      i.facts.Admits c.term (· = c.value) ∧ ¬ i.facts.EmptyAt c.term) := by
  unfold checkAbsolute
  cases hr : i.slots.get? c.term.slot with
  | none =>
    refine ⟨fun _ h => ?_, fun _ => rfl⟩
    obtain ⟨n, hn⟩ := h
    rw [hr] at hn
    cases hn
  | some root =>
    have hassigned : i.Assigned c.term.slot := ⟨root, hr⟩
    have hg := hi.arena
    dsimp only
    cases hl : i.arena.lookup root c.term.path with
    | found n =>
      have hn : i.arena.Leads i.slots.get? c.term n := (Arena.leads_iff hr).2 hl
      simp only [hassigned, forall_const, facts, hn.admits_iff hg, hn.emptyAt_iff hg]
      cases i.arena.content n <;> simp
    | missing =>
      obtain ⟨h, hrun, -⟩ := Arena.createValue_spec hg.bounded (hi.root_lt _ _ hr) c.value hl
      simp only [hrun, hassigned, forall_const, true_iff]
      exact ⟨Arena.admits_of_missing hg.settled hr hl,
        fun he => Arena.not_has_of_missing hr hl he.has⟩
    | blocked =>
      refine ⟨fun h => (by cases h), fun h => ?_⟩
      exact absurd (h hassigned).1 (Arena.not_admits_of_blocked hg.settled hr hl)

theorem checkAbsolute_evolves (hi : i.WellFormed) (hF : F.Closed) (hle : i.facts ≤ F)
    (hc : c.factsOn i.Assigned ≤ F) (hrun : i.checkAbsolute c = (true, j)) :
    Evolves F i j ∧ c.factsOn i.Assigned ≤ j.facts := by
  unfold checkAbsolute at hrun
  cases hr : i.slots.get? c.term.slot with
  | none =>
    rw [hr] at hrun
    cases hrun
    refine ⟨.refl hi hle, Absolute.factsOn_le.2 fun hs => ?_⟩
    obtain ⟨n, hn⟩ := hs
    rw [hr] at hn
    cases hn
  | some root =>
    rw [hr] at hrun
    dsimp only at hrun
    have hg := hi.arena
    cases hl : i.arena.lookup root c.term.path with
    | found n =>
      rw [hl] at hrun
      obtain ⟨hcon, rfl⟩ := Prod.mk.inj hrun
      have hn : i.arena.Leads i.slots.get? c.term n := (Arena.leads_iff hr).2 hl
      refine ⟨.refl hi hle, Absolute.factsOn_le.2 fun _ => ⟨hn.has, fun _ => ?_⟩⟩
      exact hn.value_iff.2 (of_decide_eq_true hcon)
    | missing =>
      obtain ⟨ht, ha⟩ := Absolute.factsOn_le.1 hc ⟨root, hr⟩
      obtain ⟨n, h, hok, hext, hhas, hvalue⟩ :=
        Arena.createValue_facts hg hi.root_lt hF hle hr hl ht ha
      rw [hl] at hrun
      simp only [hok] at hrun
      cases hrun
      exact ⟨hi.evolves hext, Absolute.factsOn_le.2 fun _ => ⟨hhas, hvalue⟩⟩
    | blocked =>
      rw [hl] at hrun
      cases hrun

theorem checkAbsolute_probability (i : Interpretation W) (c : Absolute) :
    (i.checkAbsolute c).2.probability = i.probability := by
  unfold checkAbsolute
  repeat' split
  all_goals rfl

/-- The values `V` that are in place already have not filled nodes of `G`. -/
structure Filled (G V : Facts) : Prop where
  hangsOn : V.HangsOn G
  value {t : PathTerm} : V.Has t → ∃ a, V.value t a
  not_emptyAt {t : PathTerm} {a : Atom} : V.value t a → ¬ G.EmptyAt t

theorem Filled.sup_factsOn (hV : Filled G V) (hroot : ∀ s, i.Assigned s → G.Has ⟨s, []⟩)
    (hne : c.value ≠ .null) (hc : i.Assigned c.term.slot → ¬ G.EmptyAt c.term) :
    Filled G (V ⊔ c.factsOn i.Assigned) where
  hangsOn := hV.hangsOn.sup (.factsOn hroot c)
  value := by
    rintro t (h | ⟨⟨rfl, -⟩, hs⟩)
    · obtain ⟨a, ha⟩ := hV.value h
      exact ⟨a, .inl ha⟩
    · exact ⟨c.value, .inr ⟨⟨rfl, rfl⟩, hne, hs⟩⟩
  not_emptyAt := by
    rintro t a (h | ⟨⟨rfl, -⟩, -, hs⟩)
    · exact hV.not_emptyAt h
    · exact hc hs

theorem checkAbsolute_facts (hi : i.WellFormed) (hfacts : i.facts = (G ⊔ V).closure)
    (hrun : i.checkAbsolute c = (true, j)) :
    Evolves (G ⊔ (V ⊔ c.factsOn i.Assigned)).closure i j ∧
      j.facts = (G ⊔ (V ⊔ c.factsOn i.Assigned)).closure := by
  have hle := Facts.le_closure (G ⊔ (V ⊔ c.factsOn i.Assigned))
  have hi_le : i.facts ≤ (G ⊔ (V ⊔ c.factsOn i.Assigned)).closure := by
    rw [hfacts, ← sup_assoc]
    exact Facts.closure_mono le_sup_left
  obtain ⟨hij, hc⟩ := checkAbsolute_evolves hi (Facts.closed_closure _) hi_le
    (le_sup_right.trans (le_sup_right.trans hle)) hrun
  refine ⟨hij, le_antisymm hij.le (Facts.closure_le hij.wellFormed.closed_facts ?_)⟩
  rw [← sup_assoc]
  exact sup_le ((Facts.le_closure _).trans (hfacts ▸ hij.facts_le)) hc

theorem checkAbsolute_iff (hG : G.Closed) (hi : i.WellFormed)
    (hfacts : i.facts = (G ⊔ V).closure) (hV : Filled G V) (hne : c.value ≠ .null)
    (hcons : (G ⊔ (V ⊔ c.factsOn i.Assigned)).closure.Consistent) :
    (i.checkAbsolute c).1 = true ↔ (i.Assigned c.term.slot → ¬ G.EmptyAt c.term) := by
  have hle := Facts.le_closure (G ⊔ (V ⊔ c.factsOn i.Assigned))
  have hi_le : i.facts ≤ (G ⊔ (V ⊔ c.factsOn i.Assigned)).closure := by
    rw [hfacts, ← sup_assoc]
    exact Facts.closure_mono le_sup_left
  have hG_le : G ≤ i.facts := hfacts ▸ le_sup_left.trans (Facts.le_closure _)
  rw [checkAbsolute_eq_true hi]
  constructor
  · intro h hs he
    obtain ⟨hadm, hnot⟩ := h hs
    refine hnot ⟨hG_le.1 _ _ he.has, fun a ha => ?_, hadm.not_has_below⟩
    rw [hfacts] at ha
    rcases hV.hangsOn.value_of_forces hG ha he.has with ha | ⟨u, hu, ha⟩
    · exact he.not_value a ha
    · exact hV.not_emptyAt ha (he.congr hG (hG.symm hu))
  · intro h hs
    have hvalue := hle.2 _ _ (.inr (.inr ⟨⟨rfl, rfl⟩, hne, hs⟩))
    refine ⟨(hcons.admits (Facts.closed_closure _) hvalue).anti hi_le, fun he => h hs ?_⟩
    exact hV.hangsOn.emptyAt hG (fun _ => hV.value) (hfacts ▸ he)

end Absolute

section Choice
variable {c : Choice W} {a : Atom}

/-- A choice finds one of its atoms, or nothing. -/
def Meets (F : Facts) (c : Choice W) : Prop :=
  F.Admits c.term (fun a => (c.probability? a).isSome = true) ∧ ¬ F.EmptyAt c.term

theorem WellFormed.satisfies_choice (hi : i.WellFormed)
    (hs : i.Assigned c.term.slot) (hc : Meets i.facts c) : i.Satisfies (.choice c) := by
  obtain ⟨root, hr⟩ := hs
  obtain ⟨hadm, hempty⟩ := hc
  have hg := hi.arena
  cases hl : i.arena.lookup root c.term.path with
  | missing => exact .inl ⟨root, hr, hl⟩
  | blocked => exact absurd hadm (Arena.not_admits_of_blocked hg.settled hr hl)
  | found n =>
    have hn : i.arena.Leads i.slots.get? c.term n := (Arena.leads_iff hr).2 hl
    rcases (hn.admits_iff hg).1 hadm with hcon | ⟨a, ha, hok⟩
    · exact absurd ((hn.emptyAt_iff hg).2 hcon) hempty
    · exact .inr ⟨n, a, hn, ha, hok⟩

theorem Meets.not_has_or_value (h : Meets F c) : ¬ F.Has c.term ∨ ∃ a, F.value c.term a := by
  by_contra hno
  obtain ⟨hhas, hvalue⟩ := not_or.1 hno
  exact h.2 ⟨not_not.1 hhas, not_exists.1 hvalue, h.1.not_has_below⟩

variable [Weight W]

theorem weightOf_of_not_has (h : ¬ i.facts.Has c.term) : i.weightOf c = c.maxProbability := by
  unfold weightOf
  cases hr : i.slots.get? c.term.slot with
  | none => rfl
  | some root =>
    dsimp only [Option.map_some]
    cases hl : i.arena.lookup root c.term.path with
    | missing => rfl
    | blocked => rfl
    | found n =>
      have hn : i.Leads c.term n := ⟨root, hr, hl⟩
      exact absurd hn.has h

theorem weightOf_of_value (h : i.facts.value c.term a) :
    i.weightOf c = (c.probability? a).getD Weight.impossible := by
  obtain ⟨n, ⟨root, hr, hl⟩, ha⟩ := h
  unfold weightOf
  rw [hr, Option.map_some, hl]
  dsimp only
  rw [ha]
  rfl

theorem checkChoice_eq_true (hi : i.WellFormed) :
    (i.checkChoice c).1 = true ↔ (i.Assigned c.term.slot → Meets i.facts c) := by
  unfold checkChoice Meets
  cases hr : i.slots.get? c.term.slot with
  | none =>
    refine ⟨fun _ h => ?_, fun _ => rfl⟩
    obtain ⟨n, hn⟩ := h
    rw [hr] at hn
    cases hn
  | some root =>
    have hassigned : i.Assigned c.term.slot := ⟨root, hr⟩
    have hg := hi.arena
    dsimp only
    cases hl : i.arena.lookup root c.term.path with
    | found n =>
      have hn : i.arena.Leads i.slots.get? c.term n := (Arena.leads_iff hr).2 hl
      simp only [hassigned, forall_const, facts, hn.admits_iff hg, hn.emptyAt_iff hg]
      cases i.arena.content n with
      | empty => simp
      | complex children => simp
      | atom a =>
        dsimp only
        cases hp : c.probability? a <;> simp [hp]
    | missing =>
      simp only [hassigned, forall_const, true_iff]
      exact ⟨Arena.admits_of_missing hg.settled hr hl,
        fun he => Arena.not_has_of_missing hr hl he.has⟩
    | blocked =>
      refine ⟨fun h => (by cases h), fun h => ?_⟩
      exact absurd (h hassigned).1 (Arena.not_admits_of_blocked hg.settled hr hl)

theorem checkChoice_arena (i : Interpretation W) (c : Choice W) :
    (i.checkChoice c).2.arena = i.arena ∧ (i.checkChoice c).2.slots = i.slots := by
  unfold checkChoice
  repeat' split
  all_goals exact ⟨rfl, rfl⟩

/-- A choice that passes multiplies the probability by the weight of what it finds. -/
theorem checkChoice_probability (hs : i.Assigned c.term.slot) (hrun : i.checkChoice c = (true, j)) :
    j.probability = Weight.times i.probability (i.weightOf c) := by
  obtain ⟨root, hr⟩ := hs
  unfold checkChoice at hrun
  unfold weightOf
  rw [hr] at hrun ⊢
  dsimp only [Option.map_some] at hrun ⊢
  cases hl : i.arena.lookup root c.term.path with
  | missing =>
    rw [hl] at hrun
    cases hrun
    rfl
  | blocked =>
    rw [hl] at hrun
    cases hrun
  | found n =>
    rw [hl] at hrun
    dsimp only at hrun ⊢
    cases hcon : i.arena.content n with
    | empty =>
      rw [hcon] at hrun
      cases hrun
    | complex children =>
      rw [hcon] at hrun
      cases hrun
    | atom a =>
      rw [hcon] at hrun
      dsimp only [Content.atom?] at hrun ⊢
      cases hp : c.probability? a with
      | none =>
        rw [hp] at hrun
        cases hrun
      | some p =>
        rw [hp] at hrun
        cases hrun
        rfl

theorem checkChoice_of_unassigned (hs : ¬ i.Assigned c.term.slot) :
    i.checkChoice c = (true, i) := by
  unfold checkChoice
  cases hr : i.slots.get? c.term.slot with
  | none => rfl
  | some root => exact absurd ⟨root, hr⟩ hs

end Choice

end FeatureLogic.Interpretation
