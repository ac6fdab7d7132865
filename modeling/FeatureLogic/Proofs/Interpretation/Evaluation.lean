import FeatureLogic.Proofs.Interpretation.Checking
/-!
Evaluation. An interpretation that passes ends up with its facts, those that the constraints ask
for, and what these force. Whether it passes can be told from these facts alone: they must not
clash, no value may be asked of a node that is there but empty, and each choice must find one of its
atoms or nothing at all.
-/
set_option autoImplicit false

namespace FeatureLogic.Interpretation

variable {W : Type} [Weight W] {i j k l : Interpretation W} {cs : ConstraintSet W} {F G V : Facts}

/-- Goes on with what has passed. -/
def andThen (p : Bool × Interpretation W) (f : Interpretation W → Bool × Interpretation W) :
    Bool × Interpretation W :=
  match p with
  | (true, i) => f i
  | (false, i) => (false, i)

omit [Weight W] in
theorem andThen_eq_true {p : Bool × Interpretation W}
    {f : Interpretation W → Bool × Interpretation W} :
    andThen p f = (true, j) ↔ ∃ k, p = (true, k) ∧ f k = (true, j) := by
  rcases p with ⟨_ | _, k⟩ <;> simp [andThen]

theorem checkAll_cons (c : Constraint W) (rest : List (Constraint W)) (i : Interpretation W) :
    checkAll (c :: rest) i = andThen (i.check c) (checkAll rest) := by
  rw [checkAll]
  rcases i.check c with ⟨_ | _, k⟩ <;> rfl

theorem checkAll_append (first rest : List (Constraint W)) (i : Interpretation W) :
    checkAll (first ++ rest) i = andThen (checkAll first i) (checkAll rest) := by
  induction first generalizing i with
  | nil => rfl
  | cons c first ih =>
    rw [List.cons_append, checkAll_cons, checkAll_cons]
    rcases i.check c with ⟨_ | _, k⟩
    · rfl
    · exact ih k

theorem checkAll_cons_eq_true {c : Constraint W} {rest : List (Constraint W)} :
    checkAll (c :: rest) i = (true, j) ↔
      ∃ k, i.check c = (true, k) ∧ checkAll rest k = (true, j) := by
  rw [checkAll_cons, andThen_eq_true]

theorem checkAll_append_eq_true {first rest : List (Constraint W)} :
    checkAll (first ++ rest) i = (true, j) ↔
      ∃ k, checkAll first i = (true, k) ∧ checkAll rest k = (true, j) := by
  rw [checkAll_append, andThen_eq_true]

theorem checkRelatives_spec (hF : F.Closed) (hA : F.Acyclic) (rs : List Relative)
    (hi : i.WellFormed) (hle : i.facts ≤ F)
    (hrs : Facts.all (rs.map (·.factsOn i.Assigned)) ≤ F) :
    (∀ j, checkAll (rs.map .relative) i = (true, j) →
      Evolves F i j ∧ Facts.all (rs.map (·.factsOn i.Assigned)) ≤ j.facts ∧
        j.probability = i.probability) ∧
      (F.Consistent → (checkAll (rs.map .relative) i).1 = true) := by
  induction rs generalizing i with
  | nil =>
    refine ⟨?_, fun _ => rfl⟩
    rintro j ⟨⟩
    exact ⟨.refl hi hle, by simp, rfl⟩
  | cons c rs ih =>
    simp only [List.map_cons, Facts.all_cons, sup_le_iff] at hrs ⊢
    obtain ⟨hstep, hcons⟩ := checkRelative_spec hi hF hA hle hrs.1
    have hrest : ∀ {k}, Evolves F i k → Facts.all (rs.map (·.factsOn k.Assigned)) ≤ F := by
      intro k hk
      rw [hk.assigned]
      exact hrs.2
    refine ⟨fun j hj => ?_, fun hc => ?_⟩
    · obtain ⟨k, hk, hj⟩ := checkAll_cons_eq_true.1 hj
      obtain ⟨hik, hck⟩ := hstep k hk
      obtain ⟨hkj, hrj, hp⟩ := (ih hik.wellFormed hik.le (hrest hik)).1 j hj
      rw [hik.assigned] at hrj
      refine ⟨hik.trans hkj, ⟨hck.trans hkj.facts_le, hrj⟩, hp.trans ?_⟩
      rw [← checkRelative_probability i c, show i.checkRelative c = (true, k) from hk]
    · obtain ⟨k, hk⟩ := exists_eq_true (hcons hc)
      obtain ⟨hik, -⟩ := hstep k hk
      obtain ⟨j, hj⟩ := exists_eq_true ((ih hik.wellFormed hik.le (hrest hik)).2 hc)
      exact congrArg Prod.fst ((checkAll_cons_eq_true (c := .relative c)).2 ⟨k, hk, hj⟩)

theorem checkAbsolutes_spec (hF : F.Closed) (as : List Absolute) (hi : i.WellFormed)
    (hle : i.facts ≤ F) (has : Facts.all (as.map (·.factsOn i.Assigned)) ≤ F)
    (hrun : checkAll (as.map .absolute) i = (true, j)) :
    Evolves F i j ∧ Facts.all (as.map (·.factsOn i.Assigned)) ≤ j.facts ∧
      j.probability = i.probability ∧
      ∀ c ∈ as, i.Assigned c.term.slot → i.facts.Admits c.term (· = c.value) := by
  induction as generalizing i with
  | nil =>
    cases hrun
    exact ⟨.refl hi hle, by simp, rfl, by simp⟩
  | cons c as ih =>
    simp only [List.map_cons, Facts.all_cons, sup_le_iff] at has hrun ⊢
    obtain ⟨k, hk, hrun⟩ := checkAll_cons_eq_true.1 hrun
    change i.checkAbsolute c = (true, k) at hk
    obtain ⟨hik, hck⟩ := checkAbsolute_evolves hi hF hle has.1 hk
    have hrest := ih hik.wellFormed hik.le
    rw [hik.assigned] at hrest
    obtain ⟨hkj, haj, hp, hadm⟩ := hrest has.2 hrun
    refine ⟨hik.trans hkj, ⟨hck.trans hkj.facts_le, haj⟩, hp.trans ?_, ?_⟩
    · rw [← checkAbsolute_probability i c, hk]
    · intro d hd hs
      rcases List.mem_cons.1 hd with rfl | hd
      · exact ((checkAbsolute_eq_true hi).1 (by rw [hk]) hs).1
      · exact (hadm d hd hs).anti hik.facts_le

theorem weightOf_congr (ha : j.arena = i.arena) (hs : j.slots = i.slots) (c : Choice W) :
    j.weightOf c = i.weightOf c := by
  unfold weightOf
  rw [ha, hs]

/-- Choices that pass change nothing but the probability. -/
theorem checkChoices_run (choices : List (Choice W))
    (hrun : checkAll (choices.map .choice) i = (true, j)) :
    j.arena = i.arena ∧ j.slots = i.slots ∧
      j.probability = (choices.filter fun c => i.slots.contains c.term.slot).foldl
        (fun p c => Weight.times p (i.weightOf c)) i.probability := by
  induction choices generalizing i with
  | nil =>
    cases hrun
    exact ⟨rfl, rfl, rfl⟩
  | cons c choices ih =>
    obtain ⟨ha, hs⟩ := checkChoice_arena i c
    obtain ⟨k, hk, hrun⟩ := checkAll_cons_eq_true.1 hrun
    change i.checkChoice c = (true, k) at hk
    rw [hk] at ha hs
    obtain ⟨haj, hsj, hp⟩ := ih hrun
    refine ⟨haj.trans ha, hsj.trans hs, ?_⟩
    rw [hp, List.filter_cons, hs]
    simp only [weightOf_congr ha hs]
    by_cases hassigned : i.Assigned c.term.slot
    · rw [if_pos (contains_iff.2 hassigned), List.foldl_cons, checkChoice_probability hassigned hk]
    · rw [if_neg (mt contains_iff.1 hassigned)]
      rw [checkChoice_of_unassigned hassigned] at hk
      cases hk
      rfl

theorem checkChoices_spec (choices : List (Choice W)) (hi : i.WellFormed) :
    (∀ j, checkAll (choices.map .choice) i = (true, j) →
      j.arena = i.arena ∧ j.slots = i.slots ∧
        j.probability = (choices.filter fun c => i.slots.contains c.term.slot).foldl
          (fun p c => Weight.times p (i.weightOf c)) i.probability) ∧
      ((checkAll (choices.map .choice) i).1 = true ↔
        ∀ c ∈ choices, i.Assigned c.term.slot → Meets i.facts c) := by
  refine ⟨fun j => checkChoices_run choices, ?_⟩
  induction choices generalizing i with
  | nil => simp [checkAll]
  | cons c choices ih =>
    obtain ⟨ha, hs⟩ := checkChoice_arena i c
    have hiff := ih (wellFormed_congr ha hs hi)
    rw [facts_congr ha hs, assigned_congr hs] at hiff
    rw [List.forall_mem_cons, ← hiff, ← checkChoice_eq_true hi]
    constructor
    · intro h
      obtain ⟨j, hj⟩ := exists_eq_true h
      obtain ⟨k, hk, hj⟩ := checkAll_cons_eq_true.1 hj
      change i.checkChoice c = (true, k) at hk
      rw [hk]
      exact ⟨rfl, congrArg Prod.fst hj⟩
    · rintro ⟨hc, hrest⟩
      obtain ⟨k, hk⟩ := exists_eq_true hc
      rw [hk] at hrest
      obtain ⟨j, hj⟩ := exists_eq_true hrest
      exact congrArg Prod.fst ((checkAll_cons_eq_true (c := .choice c)).2 ⟨k, hk, hj⟩)

/-- Evaluation starts with the probability of certainty. -/
def restart (i : Interpretation W) : Interpretation W := { i with probability := Weight.certain }

theorem eval_eq (i : Interpretation W) (cs : ConstraintSet W) : i.eval cs =
    if i.isFailed then (false, i.restart) else checkAll cs.toList i.restart := rfl

theorem eval_eq_true : i.eval cs = (true, j) ↔ i.isFailed = false ∧
    ∃ k l, checkAll (cs.relatives.toList.map .relative) i.restart = (true, k) ∧
      checkAll (cs.absolutes.toList.map .absolute) k = (true, l) ∧
      checkAll (cs.choices.toList.map .choice) l = (true, j) := by
  rw [eval_eq]
  cases i.isFailed with
  | true => simp
  | false =>
    simp only [Bool.false_eq_true, if_false, true_and, ConstraintSet.toList,
      checkAll_append_eq_true]
    constructor
    · rintro ⟨l, ⟨k, hk, hl⟩, hj⟩
      exact ⟨k, l, hk, hl, hj⟩
    · rintro ⟨k, l, hk, hl, hj⟩
      exact ⟨l, ⟨k, hk, hl⟩, hj⟩

/-- What `i` becomes when it satisfies the constraints. -/
structure Evaluates (cs : ConstraintSet W) (i j : Interpretation W) : Prop where
  wellFormed : j.WellFormed
  slots : j.slots = i.slots
  facts : j.facts = (i.facts ⊔ cs.facts i.Assigned).closure
  admits {c : Absolute} : c ∈ cs.absolutes.toList → i.Assigned c.term.slot →
    i.facts.Admits c.term (· = c.value)
  meets {c : Choice W} : c ∈ cs.choices.toList → i.Assigned c.term.slot → Meets j.facts c
  probability : j.probability = (cs.choices.toList.filter fun c =>
    i.slots.contains c.term.slot).foldl (fun p c => Weight.times p (j.weightOf c)) Weight.certain

theorem hangsOn_placing (cs : ConstraintSet W) (hle : i.facts ≤ G) :
    (cs.placing i.Assigned).HangsOn G :=
  .all (fun _ hs => hle.1 _ _ hs.has_root) _

/-- After the relative constraints the facts are those that sharing forces. -/
theorem after_relatives (hi : i.WellFormed)
    (hA : (i.facts ⊔ cs.sharing i.Assigned).closure.Acyclic)
    (hk : checkAll (cs.relatives.toList.map .relative) i.restart = (true, k)) :
    k.WellFormed ∧ k.slots = i.slots ∧ k.probability = Weight.certain ∧
      k.facts = (i.facts ⊔ cs.sharing i.Assigned).closure := by
  have hle := Facts.le_closure (i.facts ⊔ cs.sharing i.Assigned)
  have hi' : i.restart.WellFormed := ⟨hi.arena, hi.root_lt⟩
  obtain ⟨hik, hsharing, hp⟩ := (checkRelatives_spec (Facts.closed_closure _) hA _ hi'
    (le_sup_left.trans hle) (le_sup_right.trans hle)).1 k hk
  refine ⟨hik.wellFormed, hik.slots, hp, le_antisymm hik.le ?_⟩
  exact Facts.closure_le hik.wellFormed.closed_facts (sup_le hik.facts_le hsharing)

/-- After the absolute constraints the values are there as well. -/
theorem after_absolutes (hk : k.WellFormed) (hslots : k.slots = i.slots)
    (hfacts : k.facts = (i.facts ⊔ cs.sharing i.Assigned).closure)
    (hl : checkAll (cs.absolutes.toList.map .absolute) k = (true, l)) :
    l.WellFormed ∧ l.slots = i.slots ∧ l.probability = k.probability ∧
      l.facts = (i.facts ⊔ cs.facts i.Assigned).closure ∧
      ∀ c ∈ cs.absolutes.toList, i.Assigned c.term.slot →
        i.facts.Admits c.term (· = c.value) := by
  have hF : (k.facts ⊔ cs.placing i.Assigned).closure =
      (i.facts ⊔ cs.facts i.Assigned).closure := by
    rw [hfacts, Facts.closure_sup_closure, sup_assoc, ConstraintSet.facts]
  have hle := hF ▸ Facts.le_closure (k.facts ⊔ cs.placing i.Assigned)
  have habs := checkAbsolutes_spec (j := l) (Facts.closed_closure _) cs.absolutes.toList hk
    (le_sup_left.trans hle)
  rw [assigned_congr hslots] at habs
  obtain ⟨hkl, hplacing, hp, hadm⟩ := habs (le_sup_right.trans hle) hl
  refine ⟨hkl.wellFormed, hkl.slots.trans hslots, hp, le_antisymm ?_ ?_, fun c hc hs => ?_⟩
  · exact hkl.le
  · rw [← hF]
    exact Facts.closure_le hkl.wellFormed.closed_facts (sup_le hkl.facts_le hplacing)
  · refine (hadm c hc hs).anti ?_
    rw [hfacts]
    exact le_sup_left.trans (Facts.le_closure _)

theorem eval_sound (hi : i.WellFormed)
    (hA : (i.facts ⊔ cs.sharing i.Assigned).closure.Acyclic) (hrun : i.eval cs = (true, j)) :
    Evaluates cs i j := by
  obtain ⟨-, k, l, hk, hl, hj⟩ := eval_eq_true.1 hrun
  obtain ⟨hkwf, hkslots, hkp, hkfacts⟩ := after_relatives hi hA hk
  obtain ⟨hlwf, hlslots, hlp, hlfacts, hadm⟩ := after_absolutes hkwf hkslots hkfacts hl
  obtain ⟨hstep, hiff⟩ := checkChoices_spec cs.choices.toList hlwf
  obtain ⟨haj, hsj, hpj⟩ := hstep j hj
  have hfacts : j.facts = l.facts := facts_congr haj hsj
  refine ⟨wellFormed_congr haj hsj hlwf, hsj.trans hlslots, hfacts.trans hlfacts, hadm _, ?_, ?_⟩
  · intro c hc hs
    rw [hfacts]
    exact hiff.1 (congrArg Prod.fst hj) c hc (assigned_congr hlslots ▸ hs)
  · rw [hpj, hlp, hkp, hlslots]
    simp only [weightOf_congr haj hsj]

/-! ## When evaluation passes -/

theorem checkAbsolutes_iff (hG : G.Closed) (as : List Absolute) (hne : ∀ c ∈ as, c.value ≠ .null)
    (hi : i.WellFormed) (hfacts : i.facts = (G ⊔ V).closure) (hV : Filled G V)
    (hroot : ∀ s, i.Assigned s → G.Has ⟨s, []⟩) :
    (checkAll (as.map .absolute) i).1 = true ↔
      (G ⊔ (V ⊔ Facts.all (as.map (·.factsOn i.Assigned)))).closure.Consistent ∧
        ∀ c ∈ as, i.Assigned c.term.slot → ¬ G.EmptyAt c.term := by
  induction as generalizing i V with
  | nil => simpa [checkAll, ← hfacts] using hi.consistent_facts
  | cons c as ih =>
    rw [List.forall_mem_cons] at hne
    rw [List.map_cons, List.map_cons, Facts.all_cons, List.forall_mem_cons, ← sup_assoc V]
    have hcons_le : (G ⊔ (V ⊔ c.factsOn i.Assigned)).closure ≤
        (G ⊔ (V ⊔ c.factsOn i.Assigned ⊔ Facts.all (as.map (·.factsOn i.Assigned)))).closure :=
      Facts.closure_mono (sup_le_sup_left le_sup_left G)
    -- once the first value is in place the rest starts from what it added
    have hrest : ∀ {k}, i.checkAbsolute c = (true, k) →
        (i.Assigned c.term.slot → ¬ G.EmptyAt c.term) →
        ((checkAll (as.map .absolute) k).1 = true ↔
          (G ⊔ (V ⊔ c.factsOn i.Assigned ⊔
            Facts.all (as.map (·.factsOn i.Assigned)))).closure.Consistent ∧
          ∀ c ∈ as, i.Assigned c.term.slot → ¬ G.EmptyAt c.term) := by
      intro k hk hc
      obtain ⟨hik, hkfacts⟩ := checkAbsolute_facts hi hfacts hk
      have hk' := ih hne.2 hik.wellFormed hkfacts (hV.sup_factsOn hroot hne.1 hc)
      rw [hik.assigned] at hk'
      exact hk' hroot
    constructor
    · intro h
      obtain ⟨j, hj⟩ := exists_eq_true h
      obtain ⟨k, hk, hj⟩ := checkAll_cons_eq_true.1 hj
      change i.checkAbsolute c = (true, k) at hk
      obtain ⟨hik, hkfacts⟩ := checkAbsolute_facts hi hfacts hk
      have hc := (checkAbsolute_iff hG hi hfacts hV hne.1
        (hkfacts ▸ hik.wellFormed.consistent_facts)).1 (congrArg Prod.fst hk)
      obtain ⟨hcons, has⟩ := (hrest hk hc).1 (congrArg Prod.fst hj)
      exact ⟨hcons, hc, has⟩
    · rintro ⟨hcons, hc, has⟩
      obtain ⟨k, hk⟩ := exists_eq_true
        ((checkAbsolute_iff hG hi hfacts hV hne.1 (hcons.mono hcons_le)).2 hc)
      obtain ⟨j, hj⟩ := exists_eq_true ((hrest hk hc).2 ⟨hcons, has⟩)
      exact congrArg Prod.fst ((checkAll_cons_eq_true (c := .absolute c)).2 ⟨k, hk, hj⟩)

/-- Evaluation passes exactly if nothing clashes, no value is asked of an empty node, and each
choice finds one of its atoms or nothing. -/
theorem eval_iff (hi : i.WellFormed) (hfailed : i.isFailed = false)
    (hA : (i.facts ⊔ cs.sharing i.Assigned).closure.Acyclic)
    (hne : ∀ c ∈ cs.absolutes.toList, c.value ≠ .null) :
    (i.eval cs).1 = true ↔ (i.facts ⊔ cs.facts i.Assigned).closure.Consistent ∧
      (∀ c ∈ cs.absolutes.toList, i.Assigned c.term.slot →
        ¬ (i.facts ⊔ cs.sharing i.Assigned).closure.EmptyAt c.term) ∧
      ∀ c ∈ cs.choices.toList, i.Assigned c.term.slot →
        Meets (i.facts ⊔ cs.facts i.Assigned).closure c := by
  have hG := Facts.closed_closure (i.facts ⊔ cs.sharing i.Assigned)
  have hGle := Facts.le_closure (i.facts ⊔ cs.sharing i.Assigned)
  have hF : ((i.facts ⊔ cs.sharing i.Assigned).closure ⊔ (⊥ ⊔ cs.placing i.Assigned)).closure =
      (i.facts ⊔ cs.facts i.Assigned).closure := by
    rw [bot_sup_eq, Facts.closure_sup_closure, sup_assoc, ConstraintSet.facts]
  have habs : ∀ {k}, checkAll (cs.relatives.toList.map .relative) i.restart = (true, k) →
      ((checkAll (cs.absolutes.toList.map .absolute) k).1 = true ↔
        (i.facts ⊔ cs.facts i.Assigned).closure.Consistent ∧
        ∀ c ∈ cs.absolutes.toList, i.Assigned c.term.slot →
          ¬ (i.facts ⊔ cs.sharing i.Assigned).closure.EmptyAt c.term) := by
    intro k hk
    obtain ⟨hkwf, hkslots, -, hkfacts⟩ := after_relatives hi hA hk
    rw [← hG.closure_eq, ← sup_bot_eq (a := (i.facts ⊔ cs.sharing i.Assigned).closure)] at hkfacts
    have h := checkAbsolutes_iff hG cs.absolutes.toList hne hkwf hkfacts
      ⟨.bot, False.elim, False.elim⟩
    rw [assigned_congr hkslots] at h
    rw [← hF]
    exact h fun s hs => hGle.1 _ _ (.inl hs.has_root)
  constructor
  · intro h
    obtain ⟨j, hj⟩ := exists_eq_true h
    have hev := eval_sound hi hA hj
    obtain ⟨-, k, l, hk, hl, -⟩ := eval_eq_true.1 hj
    obtain ⟨hcons, hempty⟩ := (habs hk).1 (congrArg Prod.fst hl)
    exact ⟨hcons, hempty, fun c hc hs => hev.facts ▸ hev.meets hc hs⟩
  · rintro ⟨hcons, hempty, hmeets⟩
    have hi' : i.restart.WellFormed := ⟨hi.arena, hi.root_lt⟩
    have hrel := (checkRelatives_spec hG hA cs.relatives.toList hi' (le_sup_left.trans hGle)
      (le_sup_right.trans hGle)).2
    obtain ⟨k, hk⟩ := exists_eq_true
      (hrel (hcons.mono (Facts.closure_mono (sup_le_sup_left le_sup_left _))))
    obtain ⟨l, hl⟩ := exists_eq_true ((habs hk).2 ⟨hcons, hempty⟩)
    obtain ⟨hkwf, hkslots, -, hkfacts⟩ := after_relatives hi hA hk
    obtain ⟨hlwf, hlslots, -, hlfacts, -⟩ := after_absolutes hkwf hkslots hkfacts hl
    obtain ⟨j, hj⟩ := exists_eq_true ((checkChoices_spec cs.choices.toList hlwf).2.2
      fun c hc hs => by
        rw [hlfacts]
        exact hmeets c hc (assigned_congr hlslots ▸ hs))
    exact congrArg Prod.fst (eval_eq_true.2 ⟨hfailed, k, l, hk, hl, hj⟩)

end FeatureLogic.Interpretation
