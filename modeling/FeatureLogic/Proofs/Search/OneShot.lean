import FeatureLogic.Proofs.Search.Soundness
/-!
One-shot evaluation: all candidates are placed side by side before any constraint is checked. A
search checks the constraints after every column. Both add the same facts, and they differ only over
empty nodes: a value or a choice asked of an empty node fails, so it matters whether the node is
filled, or put there, before the check or after it.
-/
set_option autoImplicit false

namespace FeatureLogic

namespace ConstraintSet
variable {W : Type} [Weight W]

/-- A value, or one of some values, is asked for at `t`. -/
def AsksAt (cs : ConstraintSet W) (t : PathTerm) : Prop :=
  (∃ c ∈ cs.absolutes.toList, c.term = t) ∨ ∃ c ∈ cs.choices.toList, c.term = t

end ConstraintSet

namespace Search
open Interpretation

variable {W : Type} {columns : List (SlotIndex × OptionColumn)} {i j m r : Interpretation W}
  {picks done rest : List Pick} {pick : Pick} {t : OptionTable}
  {slot : SlotIndex} {s : FeatureStructure}

/-- No slot is picked for twice. -/
def Distinct (picks : List Pick) : Prop := (picks.map (·.1)).Nodup

theorem Distinct.not_slotsOf (h : Distinct (done ++ pick :: rest)) : ¬ slotsOf done pick.1 := by
  unfold Distinct at h
  rw [List.map_append, List.map_cons, List.nodup_append] at h
  exact fun hs => h.2.2 _ hs _ List.mem_cons_self rfl

theorem Picks.distinct (h : Picks t.entries picks) : Distinct picks := by
  rw [Distinct, h.slots]
  exact t.ascending.nodup_keys

theorem Picks.wellFormed (hc : Candidates columns) (h : Picks columns picks) :
    ∀ pick ∈ picks, pick.2.WellFormed := by
  induction h with
  | nil => simp
  | cons hhead _ ih => exact List.forall_mem_cons.2 ⟨hc.head hhead.2, ih hc.tail⟩

/-! ## All candidates at once -/

/-- Further candidates, each in its slot. -/
def place : List Pick → Interpretation W → Interpretation W
  | [], i => i
  | pick :: picks, i => place picks (Extension.merge ⟨i, pick.1, pick.2⟩)

/-- An interpretation of some candidates on which no constraint has been checked. -/
structure Placed (picks : List Pick) (i : Interpretation W) : Prop where
  wellFormed : i.WellFormed
  assigned : i.Assigned = slotsOf picks
  facts : i.facts = (factsOf picks).closure

theorem Placed.place (hd : Placed done i) (hwf : ∀ pick ∈ picks, pick.2.WellFormed)
    (hA : (factsOf (done ++ picks)).closure.Acyclic) (hdistinct : Distinct (done ++ picks)) :
    Placed (done ++ picks) (place picks i) := by
  induction picks generalizing done i with
  | nil => simpa [Search.place] using hd
  | cons pick rest ih =>
    obtain ⟨hpick, hrest⟩ := List.forall_mem_cons.1 hwf
    have hfacts : (i.facts ⊔ pick.2.factsAt pick.1).closure =
        (factsOf (done ++ [pick])).closure := by
      rw [hd.facts, Facts.closure_sup_closure, factsOf_append, factsOf_cons, factsOf_nil,
        sup_bot_eq]
      rfl
    have hle : factsOf (done ++ [pick]) ≤ factsOf (done ++ pick :: rest) := by
      rw [factsOf_append, factsOf_append, factsOf_cons, factsOf_cons]
      exact sup_le_sup_left (sup_le_sup_left (factsOf_nil ▸ bot_le) _) _
    obtain ⟨hm, hpass⟩ := Extension.merge_spec (e := ⟨i, pick.1, pick.2⟩) hd.wellFormed hpick
      (hfacts ▸ hA.mono (Facts.closure_mono hle))
    have hm := hm (hpass fun h => absurd (hd.assigned ▸ h) hdistinct.not_slotsOf)
    have hstep : Placed (done ++ [pick]) (Extension.merge ⟨i, pick.1, pick.2⟩) := by
      refine ⟨hm.wellFormed, funext fun s => ?_, hm.facts.trans hfacts⟩
      rw [propext (hm.assigned s), hd.assigned]
      exact propext slotsOf_concat.symm
    have hplaced := ih hstep hrest (by simpa using hA) (by simpa using hdistinct)
    simpa [Search.place] using hplaced

variable [Weight W] {cs : ConstraintSet W}

theorem Placed.start (hwf : s.WellFormed) (hA : (s.factsAt slot).Acyclic) :
    Placed [(slot, s)] (ofStructure slot s : Interpretation W) := by
  obtain ⟨hi, hassigned, hfacts⟩ := ofStructure_spec (W := W) hwf hA
  refine ⟨hi, funext fun t => propext ((hassigned t).trans ?_), ?_⟩
  · simp [slotsOf]
  · rw [factsOf_cons, factsOf_nil, sup_bot_eq, hfacts]
    exact (hwf.closed_factsAt slot).closure_eq.symm

/-- What one evaluation makes of all candidates together, unless it fails. -/
def oneShot (cs : ConstraintSet W) : List Pick → Option (Interpretation W)
  | [] => none
  | pick :: picks =>
    match (place picks (ofStructure pick.1 pick.2)).eval cs with
    | (true, i) => some i
    | (false, _) => none

theorem oneShot_cons_eq_some : oneShot cs (pick :: picks) = some r ↔
    (place picks (ofStructure pick.1 pick.2)).eval cs = (true, r) := by
  rw [oneShot]
  rcases (place picks (ofStructure pick.1 pick.2)).eval cs with ⟨_ | _, j⟩ <;> simp

/-- The facts of all candidates under the sharing that the relative constraints ask for. -/
def shared (cs : ConstraintSet W) (picks : List Pick) : Facts :=
  (factsOf picks ⊔ cs.sharing (slotsOf picks)).closure

theorem Placed.traced (hi : Placed picks i) (hev : Evaluates cs i r) : Traced cs picks r where
  wellFormed := hev.wellFormed
  assigned := (assigned_congr hev.slots).trans hi.assigned
  facts := by rw [hev.facts, hi.assigned, hi.facts, Facts.closure_sup_closure, forced]
  meets hc hs := hev.meets hc (hi.assigned ▸ hs)
  probability := by rw [hev.probability, hev.slots]

/-! ## Column by column -/

/-- The facts before values are put in place, when `pick` comes after the picks `done`. -/
def stage (cs : ConstraintSet W) (done : List Pick) (pick : Pick) : Facts :=
  ((forced cs done ⊔ pick.facts).closure ⊔ cs.sharing (slotsOf (done ++ [pick]))).closure

/-- The search meets no empty node where a value is asked for, as it adds picks to `done`. -/
def Clear (cs : ConstraintSet W) : List Pick → List Pick → Prop
  | _, [] => True
  | done, pick :: picks =>
    (∀ t, cs.AsksAt t → slotsOf (done ++ [pick]) t.slot → ¬ (stage cs done pick).EmptyAt t) ∧
      Clear cs (done ++ [pick]) picks

/-- Nothing that the picks and the constraints force clashes, with each other or with a choice. -/
structure Compatible (cs : ConstraintSet W) (picks : List Pick) : Prop where
  consistent : (forced cs picks).Consistent
  admits {c : Choice W} : c ∈ cs.choices.toList → slotsOf picks c.term.slot →
    (forced cs picks).Admits c.term fun a => (c.probability? a).isSome = true

theorem forced_mono (cs : ConstraintSet W) (done rest : List Pick) :
    forced cs done ≤ forced cs (done ++ rest) := by
  refine Facts.closure_mono (sup_le_sup ?_ (ConstraintSet.facts_mono fun s hs => ?_))
  · rw [factsOf_append]
    exact le_sup_left
  · unfold slotsOf at hs ⊢
    rw [List.map_append, List.mem_append]
    exact .inl hs

theorem Compatible.of_append (h : Compatible cs (done ++ rest)) : Compatible cs done where
  consistent := h.consistent.mono (forced_mono cs done rest)
  admits hc hs := by
    refine (h.admits hc ?_).anti (forced_mono cs done rest)
    unfold slotsOf at hs ⊢
    rw [List.map_append, List.mem_append]
    exact .inl hs

theorem Traced.compatible (hr : Traced cs picks r) : Compatible cs picks where
  consistent := hr.facts ▸ hr.wellFormed.consistent_facts
  admits hc hs := hr.facts ▸ (hr.meets hc hs).1

theorem Entered.hangsOn (hm : Entered cs done pick m) :
    (cs.placing (slotsOf (done ++ [pick]))).HangsOn (stage cs done pick) := by
  rw [← hm.assigned]
  refine hangsOn_placing cs ?_
  rw [hm.facts]
  exact le_sup_left.trans (Facts.le_closure _)

theorem stage_sup_placing (cs : ConstraintSet W) (done : List Pick) (pick : Pick) :
    (stage cs done pick ⊔ cs.placing (slotsOf (done ++ [pick]))).closure =
      forced cs (done ++ [pick]) := by
  rw [stage, Facts.closure_sup_closure, sup_assoc, ← forced_concat]
  rfl

theorem exists_value_of_placing {assigned : SlotIndex → Prop}
    (hne : ∀ c ∈ cs.absolutes.toList, c.value ≠ .null) (u : PathTerm)
    (hu : (cs.placing assigned).Has u) : ∃ a, (cs.placing assigned).value u a := by
  obtain ⟨F, hF, hu⟩ := hu
  obtain ⟨c, hc, rfl⟩ := List.mem_map.1 hF
  obtain ⟨⟨rfl, -⟩, hs⟩ := hu
  exact ⟨c.value, _, List.mem_map_of_mem hc, ⟨rfl, rfl⟩, hne c hc, hs⟩

/-- One evaluation of a search passes if nothing clashes and no empty node is in the way. -/
theorem Entered.eval_iff (hm : Entered cs done pick m) (hfailed : m.isFailed = false)
    (hA : (m.facts ⊔ cs.sharing m.Assigned).closure.Acyclic)
    (hne : ∀ c ∈ cs.absolutes.toList, c.value ≠ .null) :
    (m.eval cs).1 = true ↔ Compatible cs (done ++ [pick]) ∧
      ∀ t, cs.AsksAt t → slotsOf (done ++ [pick]) t.slot → ¬ (stage cs done pick).EmptyAt t := by
  have hstage : (m.facts ⊔ cs.sharing m.Assigned).closure = stage cs done pick := by
    rw [hm.facts, hm.assigned, stage]
  have hforced : (m.facts ⊔ cs.facts m.Assigned).closure = forced cs (done ++ [pick]) := by
    rw [hm.facts, hm.assigned, forced_concat]
  have hG : (stage cs done pick).Closed := Facts.closed_closure _
  have hle : stage cs done pick ≤ forced cs (done ++ [pick]) := by
    rw [← stage_sup_placing]
    exact le_sup_left.trans (Facts.le_closure _)
  rw [Interpretation.eval_iff hm.wellFormed hfailed hA hne, hstage, hforced, hm.assigned]
  constructor
  · rintro ⟨hcons, habs, hmeets⟩
    refine ⟨⟨hcons, fun hc hs => (hmeets _ hc hs).1⟩, ?_⟩
    rintro t (⟨c, hc, rfl⟩ | ⟨c, hc, rfl⟩) hs he
    · exact habs c hc hs he
    · -- the node was filled by a value that was asked for right there
      obtain ⟨hadm, hempty⟩ := hmeets c hc hs
      refine hempty ⟨hle.1 _ _ he.has, fun a ha => ?_, hadm.not_has_below⟩
      rw [← stage_sup_placing] at ha
      rcases hm.hangsOn.value_of_forces hG ha he.has with ha | ⟨u, hu, F, hF, ha⟩
      · exact he.not_value a ha
      · obtain ⟨d, hd, rfl⟩ := List.mem_map.1 hF
        obtain ⟨⟨rfl, -⟩, -, hs⟩ := ha
        exact habs d hd hs (he.congr hG (hG.symm hu))
  · rintro ⟨hok, hclear⟩
    refine ⟨hok.consistent, fun c hc hs => hclear _ (.inl ⟨c, hc, rfl⟩) hs, fun c hc hs => ?_⟩
    refine ⟨hok.admits hc hs, fun he => hclear _ (.inr ⟨c, hc, rfl⟩) hs ?_⟩
    rw [← stage_sup_placing] at he
    exact hm.hangsOn.emptyAt hG (exists_value_of_placing hne) he

/-- One step of a search, once it is known when the rest of the search goes through. -/
theorem Entered.passes_iff (hm : Entered cs done pick m) (hfailed : m.isFailed = false)
    (hA : (m.facts ⊔ cs.sharing m.Assigned).closure.Acyclic)
    (hne : ∀ c ∈ cs.absolutes.toList, c.value ≠ .null)
    (hrest : ∀ j, m.eval cs = (true, j) → ((∃ r, extend cs rest j = some r) ↔
      Compatible cs (done ++ pick :: rest) ∧ Clear cs (done ++ [pick]) rest)) :
    (∃ r j, m.eval cs = (true, j) ∧ extend cs rest j = some r) ↔
      Compatible cs (done ++ pick :: rest) ∧ Clear cs done (pick :: rest) := by
  have hiff := hm.eval_iff hfailed hA hne
  constructor
  · rintro ⟨r, j, hj, hr⟩
    obtain ⟨hok, hclear⟩ := (hrest j hj).1 ⟨r, hr⟩
    exact ⟨hok, (hiff.1 (congrArg Prod.fst hj)).2, hclear⟩
  · rintro ⟨hok, hclear, hclear'⟩
    have hok' : Compatible cs (done ++ [pick] ++ rest) := by simpa using hok
    obtain ⟨j, hj⟩ := exists_eq_true (hiff.2 ⟨hok'.of_append, hclear⟩)
    obtain ⟨r, hr⟩ := (hrest j hj).2 ⟨hok, hclear'⟩
    exact ⟨r, j, hj, hr⟩

theorem extend_passes_iff (hd : Traced cs done i) (hc : Candidates columns)
    (hA : AcyclicMerges cs columns i.facts i.Assigned) (hpicks : Picks columns picks)
    (hdistinct : Distinct (done ++ picks)) (hne : ∀ c ∈ cs.absolutes.toList, c.value ≠ .null) :
    (∃ r, extend cs picks i = some r) ↔ Compatible cs (done ++ picks) ∧ Clear cs done picks := by
  induction columns generalizing done i picks with
  | nil =>
    cases hpicks
    simpa [extend, Clear] using hd.compatible
  | cons entry columns ih =>
    obtain ⟨slot, column⟩ := entry
    obtain ⟨s, hs, rest, hrest, rfl⟩ := picks_cons.1 hpicks
    have hA₁ := hA.head hs
    have hmerge := Extension.merge_spec (e := ⟨i, slot, s⟩) hd.wellFormed (hc.head hs)
      (hA₁.mono (Facts.closure_mono le_sup_left))
    have hfailed := hmerge.2 fun h => absurd (hd.assigned ▸ h) hdistinct.not_slotsOf
    have hm := hmerge.1 hfailed
    have hent : Entered cs done (slot, s) (Extension.merge ⟨i, slot, s⟩) := hd.enter hm
    simp only [extend_cons_eq_some]
    refine hent.passes_iff hfailed ?_ hne fun j hj => ?_
    · rw [hm.assigned_eq, hm.facts, Facts.closure_sup_closure]
      exact hA₁
    · obtain ⟨-, hev, hA₂⟩ := hA.extend hd.wellFormed (hc.head hs) hs hj
      simpa using ih (hent.traced hev) hc.tail hA₂ hrest (by simpa using hdistinct)

/-- The search keeps a choice of candidates exactly if these are compatible and it meets no empty
node on its way. -/
theorem trace_passes_iff (hc : Candidates columns)
    (hA : AcyclicMerges cs columns ⊥ fun _ => False) (hpicks : Picks columns picks)
    (hdistinct : Distinct picks) (hne : ∀ c ∈ cs.absolutes.toList, c.value ≠ .null)
    (hsome : picks ≠ []) :
    (∃ r, trace cs picks = some r) ↔ Compatible cs picks ∧ Clear cs [] picks := by
  cases columns with
  | nil =>
    cases hpicks
    exact absurd rfl hsome
  | cons entry columns =>
    obtain ⟨slot, column⟩ := entry
    obtain ⟨s, hs, rest, hrest, rfl⟩ := picks_cons.1 hpicks
    have hA₁ := hA.head hs
    have hacyclic := hA₁.mono (le_sup_right.trans (le_sup_left.trans (Facts.le_closure _)))
    have hent : Entered cs [] (slot, s) (ofStructure slot s) :=
      .start cs (hc.head hs) hacyclic
    obtain ⟨hi, hassigned, hfacts⟩ := ofStructure_spec (W := W) (hc.head hs) hacyclic
    have hfailed := isFailed_eq_false.2 ⟨slot, (hassigned slot).2 rfl⟩
    simp only [trace_cons_eq_some]
    refine hent.passes_iff hfailed ?_ hne fun j hj => ?_
    · rw [bot_sup_eq] at hA₁
      rw [hfacts]
      refine hA₁.mono (Facts.closure_mono (sup_le_sup_left (ConstraintSet.sharing_mono ?_) _))
      exact fun t ht => .inl ((hassigned t).1 ht)
    · obtain ⟨hev, hA₂⟩ := hA.seed (hc.head hs) hs hj
      exact extend_passes_iff (hent.traced hev) hc.tail hA₂ hrest hdistinct hne

/-! ## Where the two differ -/

/-- The interpretation that one evaluation starts from. -/
theorem exists_placed (cs : ConstraintSet W) (hwf : ∀ pick ∈ picks, pick.2.WellFormed)
    (hA : (factsOf picks).closure.Acyclic) (hdistinct : Distinct picks) (hsome : picks ≠ []) :
    ∃ i : Interpretation W, Placed picks i ∧ i.isFailed = false ∧
      ∀ r, oneShot cs picks = some r ↔ i.eval cs = (true, r) := by
  cases picks with
  | nil => exact absurd rfl hsome
  | cons pick rest =>
    obtain ⟨slot, s⟩ := pick
    obtain ⟨hs, hrest⟩ := List.forall_mem_cons.1 hwf
    have hle : s.factsAt slot ≤ factsOf ((slot, s) :: rest) := by
      rw [factsOf_cons]
      exact le_sup_left
    have hstart : Placed [(slot, s)] (ofStructure slot s : Interpretation W) :=
      .start hs (hA.mono (hle.trans (Facts.le_closure _)))
    have hi : Placed ((slot, s) :: rest) (place rest (ofStructure slot s : Interpretation W)) :=
      hstart.place hrest hA hdistinct
    refine ⟨_, hi, isFailed_eq_false.2 ⟨slot, ?_⟩, fun r => oneShot_cons_eq_some⟩
    rw [hi.assigned]
    exact List.mem_cons_self

/-- One candidate for each column of a table that covers the constraints. -/
structure Assigns (cs : ConstraintSet W) (t : OptionTable) (picks : List Pick) : Prop where
  candidates : Candidates t.entries
  acyclic : AcyclicMerges cs t.entries ⊥ fun _ => False
  not_null : ∀ c ∈ cs.absolutes.toList, c.value ≠ .null
  covered : ∀ s ∈ cs.slots, t.contains s = true
  nonempty : t.isEmpty = false
  picks : Picks t.entries picks

theorem Assigns.ne_nil (h : Assigns cs t picks) : picks ≠ [] := by
  rintro rfl
  have hentries := List.forall₂_nil_right_iff.1 h.picks
  have hnonempty := h.nonempty
  rw [SortedMap.isEmpty, hentries] at hnonempty
  cases hnonempty

theorem Assigns.acyclic_shared (h : Assigns cs t picks) : (shared cs picks).Acyclic := by
  refine (h.acyclic t.entries picks (List.prefix_refl _) h.picks).mono (Facts.closure_mono ?_)
  rw [bot_sup_eq]
  exact sup_le_sup_left (ConstraintSet.sharing_mono fun s hs => .inr hs) _

/-- The search and the one evaluation part ways over empty nodes only. -/
theorem found_iff_oneShot (settings : SearchSettings) (h : Assigns cs t picks) :
    ((∃ i, oneShot cs picks = some i) →
      ((∃ r ∈ (eval settings t cs).results, trace cs picks = some r) ↔ Clear cs [] picks)) ∧
    ((∃ r ∈ (eval settings t cs).results, trace cs picks = some r) →
      ((∃ i, oneShot cs picks = some i) ↔
        ∀ c ∈ cs.absolutes.toList, ¬ (shared cs picks).EmptyAt c.term)) ∧
    ∀ r i, trace cs picks = some r → oneShot cs picks = some i →
      r.Assigned = i.Assigned ∧ r.facts = i.facts := by
  have hA' := h.acyclic_shared
  have hsome := h.ne_nil
  obtain ⟨hc, hA, hne, hcovered, -, hpicks⟩ := h
  obtain ⟨i, hi, hfailed, hrun⟩ := exists_placed cs (hpicks.wellFormed hc)
    (hA'.mono (Facts.closure_mono le_sup_left)) hpicks.distinct hsome
  have hshared : (i.facts ⊔ cs.sharing i.Assigned).closure = shared cs picks := by
    rw [hi.facts, hi.assigned, Facts.closure_sup_closure, shared]
  have hforced : (i.facts ⊔ cs.facts i.Assigned).closure = forced cs picks := by
    rw [hi.facts, hi.assigned, Facts.closure_sup_closure, forced]
  have htraced : ∀ {r}, oneShot cs picks = some r → Traced cs picks r := fun hr =>
    hi.traced (eval_sound hi.wellFormed (hshared ▸ hA') ((hrun _).1 hr))
  have hfound : (∃ r ∈ (eval settings t cs).results, trace cs picks = some r) ↔
      ∃ r, trace cs picks = some r := by
    refine exists_congr fun r => and_iff_right_of_imp fun hr => ?_
    exact (mem_eval_iff hc hA).2 ⟨hcovered, picks, hpicks, hr⟩
  have hpasses := trace_passes_iff hc hA hpicks hpicks.distinct hne hsome
  rw [hfound]
  refine ⟨?_, ?_, ?_⟩
  · rintro ⟨r, hr⟩
    exact hpasses.trans (and_iff_right (htraced hr).compatible)
  · rintro ⟨r, hr⟩
    have hr := traced_of_trace hc hA hpicks hr
    have hslots : ∀ c ∈ cs.absolutes.toList, slotsOf picks c.term.slot := by
      intro c hcs
      refine hpicks.slotsOf_iff.2 (hcovered _ (ConstraintSet.mem_slots
        (ConstraintSet.absolute_mem hcs) ?_))
      simp [Constraint.mentions]
    have heval := Interpretation.eval_iff hi.wellFormed hfailed (hshared ▸ hA') hne
    rw [hshared, hforced, hi.assigned] at heval
    constructor
    · rintro ⟨j, hj⟩ c hcs
      exact (heval.1 (congrArg Prod.fst ((hrun j).1 hj))).2.1 c hcs (hslots c hcs)
    · intro hempty
      obtain ⟨j, hj⟩ := exists_eq_true (heval.2 ⟨hr.compatible.consistent,
        fun c hcs _ => hempty c hcs, fun c hcs hs => hr.facts ▸ hr.meets hcs hs⟩)
      exact ⟨j, (hrun j).2 hj⟩
  · intro r j hr hj
    have hr := traced_of_trace hc hA hpicks hr
    have hj := htraced hj
    exact ⟨hr.assigned.trans hj.assigned.symm, hr.facts.trans hj.facts.symm⟩

/-- The first candidate of each column. -/
def firstPicks (columns : List (SlotIndex × OptionColumn)) : List Pick :=
  columns.filterMap fun column => column.2.head?.map fun s => (column.1, s)

theorem firstPicks_spec (h : ∀ column ∈ columns, column.2 ≠ []) :
    Picks columns (firstPicks columns) := by
  induction columns with
  | nil => exact .nil
  | cons column columns ih =>
    obtain ⟨hhead, htail⟩ := List.forall_mem_cons.1 h
    obtain ⟨s, column', hcolumn⟩ := List.exists_cons_of_ne_nil hhead
    have hmem : s ∈ column.2 := by
      rw [hcolumn]
      exact List.mem_cons_self
    rw [firstPicks, List.filterMap_cons, hcolumn]
    exact .cons ⟨rfl, hmem⟩ (ih htail)

theorem Singles.assigns (h : Singles t.entries)
    (hcovered : agreement.slots.all (SortedMap.contains t) = true)
    (hnonempty : t.isEmpty = false) (hcolumns : ∀ column ∈ t.entries, column.2 ≠ []) :
    Assigns agreement t (firstPicks t.entries) where
  candidates := h.candidates
  acyclic := h.acyclicMerges (fun _ _ => False.elim) agreement_level
  not_null := by decide
  covered := List.all_eq_true.1 hcovered
  nonempty := hnonempty
  picks := firstPicks_spec hcolumns

theorem agreementTable_assigns :
    Assigns agreement agreementTable (firstPicks agreementTable.entries) :=
  agreementTable_singles.assigns (by decide) (by decide) (by decide)

theorem found_iff_oneShot_agreement :
    ((∃ r ∈ (eval ⟨true⟩ agreementTable agreement).results,
        trace agreement (firstPicks agreementTable.entries) = some r) ↔
      Clear agreement [] (firstPicks agreementTable.entries)) ∧
    ∃ r i, trace agreement (firstPicks agreementTable.entries) = some r ∧
      oneShot agreement (firstPicks agreementTable.entries) = some i ∧
      r.Assigned = i.Assigned ∧ r.facts = i.facts := by
  obtain ⟨hfound, -, hsame⟩ := found_iff_oneShot ⟨true⟩ agreementTable_assigns
  obtain ⟨i, hi⟩ := Option.isSome_iff_exists.1
    (by decide : (oneShot agreement (firstPicks agreementTable.entries)).isSome = true)
  obtain ⟨r, hr⟩ := Option.isSome_iff_exists.1
    (by decide : (trace agreement (firstPicks agreementTable.entries)).isSome = true)
  exact ⟨hfound ⟨i, hi⟩, r, i, hr, hi, hsame r i hr hi⟩

/-- An empty node that a later candidate fills. The search asks for its value too early. -/
def filledLater : OptionTable := twoColumns [([⟨1⟩], .null)] [([⟨1⟩], ⟨1⟩)]

/-- An empty node that comes where a value is. One evaluation asks for the value too late. -/
def filledBefore : OptionTable := twoColumns [([⟨2⟩], ⟨1⟩)] [([⟨1⟩], .null)]

/-- Neither of the two passes whenever the other does. -/
theorem search_ne_oneShot :
    (Assigns agreement filledLater (firstPicks filledLater.entries) ∧
      (∃ i, oneShot agreement (firstPicks filledLater.entries) = some i) ∧
      (eval ⟨true⟩ filledLater agreement).results = []) ∧
    Assigns agreement filledBefore (firstPicks filledBefore.entries) ∧
      (∃ r ∈ (eval ⟨true⟩ filledBefore agreement).results,
        trace agreement (firstPicks filledBefore.entries) = some r) ∧
      oneShot agreement (firstPicks filledBefore.entries) = none := by
  have hlater : Assigns agreement filledLater (firstPicks filledLater.entries) :=
    (twoColumns_singles (by decide) (by decide)).assigns (by decide) (by decide) (by decide)
  have hbefore : Assigns agreement filledBefore (firstPicks filledBefore.entries) :=
    (twoColumns_singles (by decide) (by decide)).assigns (by decide) (by decide) (by decide)
  refine ⟨⟨hlater, ?_, ?_⟩, hbefore, ?_, ?_⟩
  · exact Option.isSome_iff_exists.1 (by decide)
  · exact List.isEmpty_iff.1 (by decide)
  · obtain ⟨r, hr⟩ := Option.isSome_iff_exists.1
      (by decide : (trace agreement (firstPicks filledBefore.entries)).isSome = true)
    refine ⟨r, (mem_eval_iff hbefore.candidates hbefore.acyclic).2 ⟨hbefore.covered, _, ?_, hr⟩, hr⟩
    exact hbefore.picks
  · exact Option.isNone_iff_eq_none.1 (by decide)

end Search

end FeatureLogic
