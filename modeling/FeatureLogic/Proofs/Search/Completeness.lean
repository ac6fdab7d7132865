import FeatureLogic.Proofs.Search.OneShot
/-!
Completeness. Relative constraints ask for nothing that an empty node could refuse, so where there
are no others a choice of candidates gets through the search as soon as some interpretation solves
it: what the search forces after each column is part of every solution.
-/
set_option autoImplicit false

namespace FeatureLogic.Search
open Interpretation

variable {W : Type} [Weight W] {cs : ConstraintSet W} {i j r : Interpretation W}
  {picks first done rest : List Pick} {t : OptionTable}

/-- The candidates go into `j`, and `j` satisfies all constraints. -/
structure Solves (cs : ConstraintSet W) (picks : List Pick) (j : Interpretation W) : Prop where
  wellFormed : j.WellFormed
  extends_picks : j.Extends picks
  satisfies {c : Constraint W} : c ∈ cs.toList → j.Satisfies c

theorem Solves.forced_le (hj : Solves cs picks j) : forced cs picks ≤ j.facts :=
  Search.forced_le hj.wellFormed hj.extends_picks
    (fun _ hc => hj.satisfies (ConstraintSet.relative_mem hc))
    fun _ hc => hj.satisfies (ConstraintSet.absolute_mem hc)

theorem Traced.solves (hr : Traced cs picks r) (hne : ∀ c ∈ cs.absolutes.toList, c.value ≠ .null)
    (hslots : ∀ s ∈ cs.slots, slotsOf picks s) : Solves cs picks r where
  wellFormed := hr.wellFormed
  extends_picks := extends_iff.2 (hr.facts ▸ le_sup_left.trans (Facts.le_closure _))
  satisfies := hr.satisfies hne hslots

/-! ## First candidates -/

theorem exists_extend_of_append (hr : extend cs (done ++ rest) i = some r) :
    ∃ j, extend cs done i = some j := by
  induction done generalizing i with
  | nil => exact ⟨i, rfl⟩
  | cons pick done ih =>
    obtain ⟨k, hk, hr⟩ := extend_cons_eq_some.1 hr
    obtain ⟨j, hj⟩ := ih hr
    exact ⟨j, extend_cons_eq_some.2 ⟨k, hk, hj⟩⟩

/-- A choice of candidates gets through only if its first candidates do. -/
theorem exists_trace_of_prefix (hfirst : first <+: picks) (hsome : first ≠ [])
    (hr : trace cs picks = some r) : ∃ i, trace cs first = some i := by
  obtain ⟨rest, rfl⟩ := hfirst
  obtain ⟨pick, done, rfl⟩ := List.exists_cons_of_ne_nil hsome
  obtain ⟨k, hk, hr⟩ := trace_cons_eq_some.1 hr
  obtain ⟨j, hj⟩ := exists_extend_of_append hr
  exact ⟨j, trace_cons_eq_some.2 ⟨k, hk, hj⟩⟩

/-! ## Relative constraints alone -/

section Relatives
variable (hrelative : ∀ c ∈ cs.toList, ∃ d, c = .relative d)
include hrelative

theorem not_mem_absolutes (c : Absolute) : c ∉ cs.absolutes.toList := by
  intro hc
  obtain ⟨d, hd⟩ := hrelative _ (ConstraintSet.absolute_mem hc)
  cases hd

theorem not_mem_choices (c : Choice W) : c ∉ cs.choices.toList := by
  intro hc
  obtain ⟨d, hd⟩ := hrelative _ (ConstraintSet.choice_mem hc)
  cases hd

theorem forced_eq_shared (picks : List Pick) : forced cs picks = shared cs picks := by
  have hplacing : cs.placing (slotsOf picks) = ⊥ := by
    rw [ConstraintSet.placing, List.eq_nil_iff_forall_not_mem.2 (not_mem_absolutes hrelative),
      List.map_nil, Facts.all_nil]
  rw [forced, ConstraintSet.facts, hplacing, sup_bot_eq, shared]

theorem clear_of_relatives (done rest : List Pick) : Clear cs done rest := by
  induction rest generalizing done with
  | nil => trivial
  | cons pick rest ih =>
    refine ⟨?_, ih _⟩
    rintro u (⟨c, hc, -⟩ | ⟨c, hc, -⟩)
    · exact absurd hc (not_mem_absolutes hrelative c)
    · exact absurd hc (not_mem_choices hrelative c)

theorem Solves.compatible (hj : Solves cs picks j) : Compatible cs picks where
  consistent := hj.wellFormed.consistent_facts.mono hj.forced_le
  admits hc := absurd hc (not_mem_choices hrelative _)

theorem exists_trace_of_solves (h : Assigns cs t picks) (hj : Solves cs picks j) :
    ∃ r, trace cs picks = some r := by
  have hpasses :=
    trace_passes_iff h.candidates h.acyclic h.picks h.picks.distinct h.not_null h.ne_nil
  exact hpasses.2 ⟨hj.compatible hrelative, clear_of_relatives hrelative [] picks⟩

/-- With relative constraints alone, no choice of candidates that has a solution is lost at any
column, and what the search makes of it is the least solution. -/
theorem found_iff_solvable (settings : SearchSettings) (h : Assigns cs t picks) :
    ((∃ r ∈ (eval settings t cs).results, trace cs picks = some r) ↔
      ∃ j : Interpretation W, Solves cs picks j) ∧
    (∀ r, trace cs picks = some r →
      Solves cs picks r ∧ r.facts.Acyclic ∧ ∀ j, Solves cs picks j → r.Subsumed j) ∧
    ((∃ j : Interpretation W, Solves cs picks j) →
      ∀ first, first <+: picks → first ≠ [] → ∃ i, trace cs first = some i) := by
  have hslots : ∀ s ∈ cs.slots, slotsOf picks s :=
    fun s hs => h.picks.slotsOf_iff.2 (h.covered s hs)
  have hleast : ∀ r, trace cs picks = some r →
      Solves cs picks r ∧ r.facts.Acyclic ∧ ∀ j, Solves cs picks j → r.Subsumed j := by
    intro r hr
    have htraced := traced_of_trace h.candidates h.acyclic h.picks hr
    refine ⟨htraced.solves h.not_null hslots, ?_, fun j hj => ?_⟩
    · rw [htraced.facts, forced_eq_shared hrelative]
      exact h.acyclic_shared
    · rw [Subsumed, htraced.facts]
      exact hj.forced_le
  refine ⟨⟨?_, ?_⟩, hleast, ?_⟩
  · rintro ⟨r, -, hr⟩
    exact ⟨r, (hleast r hr).1⟩
  · rintro ⟨j, hj⟩
    obtain ⟨r, hr⟩ := exists_trace_of_solves hrelative h hj
    refine ⟨r, (mem_eval_iff h.candidates h.acyclic).2 ⟨h.covered, picks, h.picks, hr⟩, hr⟩
  · rintro ⟨j, hj⟩ first hfirst hsome
    obtain ⟨r, hr⟩ := exists_trace_of_solves hrelative h hj
    exact exists_trace_of_prefix hfirst hsome hr

end Relatives

/-- Two slots agree on a feature and on another one. -/
def likeness : ConstraintSet Float :=
  .ofList [.relative ⟨⟨1, [⟨1⟩]⟩, ⟨2, [⟨1⟩]⟩⟩, .relative ⟨⟨2, [⟨2⟩]⟩, ⟨1, [⟨2⟩]⟩⟩]

theorem likeness_assigns :
    Assigns likeness agreementTable (firstPicks agreementTable.entries) where
  candidates := agreementTable_singles.candidates
  acyclic := agreementTable_singles.acyclicMerges (fun _ _ => False.elim) (by decide)
  not_null := by decide
  covered := List.all_eq_true.1 (by decide)
  nonempty := by decide
  picks := agreementTable_assigns.picks

theorem found_iff_solvable_likeness :
    ∃ r ∈ (eval ⟨true⟩ agreementTable likeness).results,
      trace likeness (firstPicks agreementTable.entries) = some r ∧
      Solves likeness (firstPicks agreementTable.entries) r := by
  have hrelative : ∀ c ∈ likeness.toList, ∃ d, c = .relative d := by
    intro c hc
    have hlist : likeness.toList = likeness.relatives.toList.map .relative := rfl
    rw [hlist] at hc
    obtain ⟨d, -, rfl⟩ := List.mem_map.1 hc
    exact ⟨d, rfl⟩
  obtain ⟨hfound, hleast, -⟩ := found_iff_solvable hrelative ⟨true⟩ likeness_assigns
  obtain ⟨r, hr⟩ := Option.isSome_iff_exists.1
    (by decide : (trace likeness (firstPicks agreementTable.entries)).isSome = true)
  obtain ⟨r', hmem, hr'⟩ := hfound.2 ⟨r, (hleast r hr).1⟩
  exact ⟨r', hmem, hr', (hleast r' hr').1⟩

end FeatureLogic.Search
