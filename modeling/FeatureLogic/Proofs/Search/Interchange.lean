import FeatureLogic.Proofs.Interpretation.Alike
import FeatureLogic.Proofs.Search.Resuming
/-!
Interchangeable constraints. Sets collected from the same constraints, in whatever order, how often
and which way round, compare as equal, and nothing that is done with them tells them apart: quick
checks, evaluations and whole searches come out the same.
-/
set_option autoImplicit false

namespace FeatureLogic.Search
open Interpretation

variable {W : Type} [Weight W] {cs ds : ConstraintSet W} {columns : List (SlotIndex × OptionColumn)}
  {slot : SlotIndex} {column : OptionColumn} {generation generation' : List (Interpretation W)}
  {F : Facts} {assigned : SlotIndex → Prop} {settings : SearchSettings} {s : FeatureStructure}
  {i j : Interpretation W} {t : OptionTable}

theorem AcyclicMerges.congr (h : compare cs ds = .eq) (hA : AcyclicMerges cs columns F assigned) :
    AcyclicMerges ds columns F assigned := by
  intro first picks hfirst hpicks
  rw [ConstraintSet.closure_sharing_congr h]
  exact hA first picks hfirst hpicks

theorem Ready.congr (h : compare cs ds = .eq) (hg : Ready cs columns generation) :
    Ready ds columns generation :=
  fun i hi => ⟨(hg i hi).1, (hg i hi).2.congr h⟩

omit [Weight W] in
theorem passed_alike {p q : Bool × Interpretation W} {P : Interpretation W → Prop}
    (h : SameOutcome p q) (hP : ∀ k, p = (true, k) → P k) :
    Option.Rel (fun k l => Alike k l ∧ P k) (passed p) (passed q) := by
  obtain ⟨b, k⟩ := p
  obtain ⟨b', l⟩ := q
  obtain rfl : b' = b := h.passes
  cases b' with
  | true => exact .some ⟨h.alike rfl, hP k rfl⟩
  | false => exact .none

omit [Weight W] in
theorem found_congr {o o' : SearchOutcome W} (h : List.Forall₂ Alike o.results o'.results) :
    o'.found = o.found := by
  unfold SearchOutcome.found
  rw [Bool.eq_iff_iff]
  simp only [Bool.not_eq_true', List.isEmpty_eq_false_iff, ne_eq, ← List.length_eq_zero_iff,
    h.length_eq]

theorem all_slots_congr (h : compare cs ds = .eq) (p : SlotIndex → Bool) :
    ds.slots.all p = cs.slots.all p := by
  rw [Bool.eq_iff_iff, List.all_eq_true, List.all_eq_true]
  simp only [ConstraintSet.slots_of_compare_eq h]

/-! ## Columns -/

/-- A candidate tried on interpretations that cannot be told apart. -/
theorem extension_alike (h : compare cs ds = .eq) (hs : s.WellFormed) (hmem : s ∈ column)
    (hij : Alike i j) (hA : AcyclicMerges cs ((slot, column) :: columns) i.facts i.Assigned) :
    SameOutcome ((Extension.merge ⟨i, slot, s⟩).eval cs)
      ((Extension.merge ⟨j, slot, s⟩).eval ds) := by
  have hhead := hA.head hmem
  have hmerge := hhead.mono (Facts.closure_mono le_sup_left)
  obtain ⟨hfailed, halike⟩ := Extension.merge_alike hij hs hmerge
  cases hlive : (Extension.merge ⟨i, slot, s⟩).isFailed with
  | true =>
    exact eval_of_isFailed hlive (hfailed.trans hlive)
  | false =>
    refine eval_alike h (halike hlive) ?_
    have hm := (Extension.merge_spec (e := ⟨i, slot, s⟩) hij.left hs hmerge).1 hlive
    rw [hm.assigned_eq, hm.facts, Facts.closure_sup_closure]
    exact hhead

/-- Interpretations that cannot be told apart, and from which the columns make no cycle. -/
def Paired (cs : ConstraintSet W) (columns : List (SlotIndex × OptionColumn))
    (i j : Interpretation W) : Prop :=
  Alike i j ∧ AcyclicMerges cs columns i.facts i.Assigned

/-- Generations that cannot be told apart stay so through every column. -/
theorem run_alike (h : compare cs ds = .eq) (hc : Candidates columns)
    (hg : List.Forall₂ (Paired cs columns) generation generation') :
    List.Forall₂ Alike (run ⟨false⟩ cs columns generation).results
      (run ⟨false⟩ ds columns generation').results := by
  induction columns generalizing generation generation' with
  | nil => exact hg.imp fun _ _ => And.left
  | cons entry columns ih =>
    obtain ⟨slot, column⟩ := entry
    rw [run_cons, run_cons, survivors_eq, survivors_eq]
    refine ih hc.tail (List.rel_flatMap (R := fun s s' => s' = s ∧ s ∈ column)
      (List.forall₂_same.2 fun s hs => ⟨rfl, hs⟩) ?_)
    rintro _ s ⟨rfl, hs⟩
    refine List.rel_filterMap ?_ hg
    rintro i j ⟨hij, hA⟩
    refine passed_alike (extension_alike h (hc.head hs) hs hij hA) fun k hk => ?_
    exact (hA.extend hij.left (hc.head hs) hs hk).2.2

theorem seeds_alike (h : compare cs ds = .eq) (hc : Candidates ((slot, column) :: columns))
    (hA : AcyclicMerges cs ((slot, column) :: columns) ⊥ fun _ => False) :
    List.Forall₂ (Paired cs columns) (seeds cs slot column) (seeds ds slot column) := by
  rw [seeds_eq, seeds_eq]
  refine List.rel_filterMap (R := fun s s' => s' = s ∧ s ∈ column) ?_
    (List.forall₂_same.2 fun s hs => ⟨rfl, hs⟩)
  rintro _ s ⟨rfl, hs⟩
  have hhead := hA.head hs
  rw [bot_sup_eq] at hhead
  obtain ⟨hi, hassigned, hfacts⟩ := ofStructure_spec (W := W) (hc.head hs)
    (hhead.mono (le_sup_left.trans (Facts.le_closure _)))
  refine passed_alike (eval_alike h (.refl hi) ?_) fun k hk => ?_
  · have hslots : (ofStructure slot s : Interpretation W).Assigned = fun t => t = slot ∨ False :=
      funext fun t => propext (by simpa using hassigned t)
    rw [hfacts, hslots]
    exact hhead
  · exact (hA.seed (hc.head hs) hs hk).2

/-! ## Searches -/

theorem eval_results_alike (h : compare cs ds = .eq) (settings : SearchSettings)
    (hc : Candidates t.entries) (hA : AcyclicMerges cs t.entries ⊥ fun _ => False) :
    List.Forall₂ Alike (eval settings t cs).results (eval settings t ds).results := by
  rw [(eval_agrees settings ⟨false⟩ hc hA).results,
    (eval_agrees settings ⟨false⟩ hc (hA.congr h)).results]
  cases ht : t.entries with
  | nil =>
    have hnone : ∀ cs : ConstraintSet W, [[]].filterMap (trace cs) = [] := fun _ => rfl
    rw [eval_results, eval_results, ht]
    simp [product, hnone]
  | cons entry columns =>
    obtain ⟨slot, column⟩ := entry
    rw [ht] at hc hA
    rw [results_eval _ _ ht, results_eval _ _ ht, all_slots_congr h]
    split
    · exact run_alike h hc.tail (seeds_alike h hc hA)
    · exact .nil

theorem resume_results_alike (h : compare cs ds = .eq) (settings : SearchSettings)
    (hc : Candidates t.entries) (hg : Ready cs t.entries generation) :
    List.Forall₂ Alike (resume settings generation t cs).results
      (resume settings generation t ds).results := by
  rw [(resume_agrees settings ⟨false⟩ hc hg).results,
    (resume_agrees settings ⟨false⟩ hc (hg.congr h)).results, results_resume, results_resume,
    all_slots_congr h]
  split
  · exact run_alike h hc (List.forall₂_same.2 fun i hi => ⟨.refl (hg i hi).1, (hg i hi).2⟩)
  · exact .nil

/-- The same constraints, in whatever order, how often and which way round they come, make sets that
compare as equal, and nothing tells these apart: quick checks give the same answers, evaluations of
one interpretation, or of two that cannot be told apart, pass or fail together with the same
probability, and searches find interpretations that cannot be told apart, as many and in the same
order. -/
theorem interchangeable {cs ds : List (Constraint W)} (h : Constraint.Interchangeable cs ds) :
    compare (ConstraintSet.ofList cs) (.ofList ds) = .eq ∧
    (∀ e : Extension W, e.quickCheck (.ofList ds) = e.quickCheck (.ofList cs)) ∧
    (∀ i j : Interpretation W, Alike i j →
      (i.facts ⊔ (ConstraintSet.ofList cs).sharing i.Assigned).closure.Acyclic →
      SameOutcome (i.eval (.ofList cs)) (j.eval (.ofList ds))) ∧
    (∀ (settings : SearchSettings) (t : OptionTable), Candidates t.entries →
      AcyclicMerges (.ofList cs) t.entries ⊥ (fun _ => False) →
      List.Forall₂ Alike (eval settings t (.ofList cs)).results
          (eval settings t (.ofList ds)).results ∧
        (eval settings t (.ofList ds)).found = (eval settings t (.ofList cs)).found) ∧
    ∀ (settings : SearchSettings) (previous : List (Interpretation W)) (t : OptionTable),
      Candidates t.entries → Ready (.ofList cs) t.entries previous →
      List.Forall₂ Alike (resume settings previous t (.ofList cs)).results
          (resume settings previous t (.ofList ds)).results ∧
        (resume settings previous t (.ofList ds)).found =
          (resume settings previous t (.ofList cs)).found := by
  have hcs := ConstraintSet.compare_ofList h
  refine ⟨hcs, Extension.quickCheck_congr hcs, fun i j => eval_alike hcs,
    fun settings t hc hA => ?_, fun settings previous t hc hg => ?_⟩
  · have hresults := eval_results_alike hcs settings hc hA
    exact ⟨hresults, found_congr hresults⟩
  · have hresults := resume_results_alike hcs settings hc hg
    exact ⟨hresults, found_congr hresults⟩

/-- The constraints of `agreement` in another order, the pair both ways round. -/
def agreementAgain : List (Constraint Float) :=
  [.choice ⟨⟨2, [⟨1⟩]⟩, .singleton ⟨1⟩ 0.5⟩, .absolute ⟨⟨1, [⟨1⟩]⟩, ⟨1⟩⟩,
    .relative ⟨⟨2, [⟨1⟩]⟩, ⟨1, [⟨1⟩]⟩⟩, .relative ⟨⟨1, [⟨1⟩]⟩, ⟨2, [⟨1⟩]⟩⟩]

theorem agreementAgain_interchangeable : Constraint.Interchangeable
    [.relative ⟨⟨1, [⟨1⟩]⟩, ⟨2, [⟨1⟩]⟩⟩, .absolute ⟨⟨1, [⟨1⟩]⟩, ⟨1⟩⟩,
      .choice ⟨⟨2, [⟨1⟩]⟩, .singleton ⟨1⟩ 0.5⟩] agreementAgain := by
  simp [Constraint.Interchangeable, agreementAgain, Constraint.flip, Relative.flip]

theorem interchangeable_agreement : compare agreement (.ofList agreementAgain) = .eq ∧
    disagreeing.quickCheck (.ofList agreementAgain) = disagreeing.quickCheck agreement ∧
    SameOutcome (disagreeing.merge.eval agreement)
      (disagreeing.merge.eval (.ofList agreementAgain)) ∧
    List.Forall₂ Alike (eval ⟨true⟩ agreementTable agreement).results
      (eval ⟨true⟩ agreementTable (.ofList agreementAgain)).results ∧
    (eval ⟨true⟩ agreementTable agreement).results.length = 1 ∧
    List.Forall₂ Alike (resume ⟨true⟩ [seated 3] agreementTable agreement).results
      (resume ⟨true⟩ [seated 3] agreementTable (.ofList agreementAgain)).results := by
  obtain ⟨hcompare, hquick, heval, hsearch, hresume⟩ :=
    interchangeable agreementAgain_interchangeable
  have ht := agreementTable_singles
  have hp : ([⟨1⟩] : Path) ≠ [] := by decide
  obtain ⟨hwf, hmerged⟩ := Extension.merge_graded (e := disagreeing) (seated_spec 1).1
    (FeatureStructure.single_spec hp ⟨2⟩).1 (seated_spec 1).2
    (FeatureStructure.single_graded hp ⟨2⟩ 2) (by decide)
  refine ⟨hcompare, hquick _, heval _ _ (.refl hwf) ?_,
    (hsearch _ _ ht.candidates ?_).1, by decide, (hresume _ _ _ ht.candidates ?_).1⟩
  · exact (hmerged.sup (sharing_graded agreement_level)).closure.acyclic
  · exact ht.acyclicMerges (fun _ _ => False.elim) agreement_level
  · intro i hi
    cases List.mem_singleton.1 hi
    exact ⟨(seated_spec 3).1, ht.acyclicMerges (seated_spec 3).2 agreement_level⟩

end FeatureLogic.Search
