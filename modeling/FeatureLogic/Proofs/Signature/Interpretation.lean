import FeatureLogic.Proofs.Interpretation.Invariant
import FeatureLogic.Proofs.Search.Product
import FeatureLogic.Proofs.Signature.Arena
/-!
Searches over a signature. If the candidates hold features and atoms of a signature only, and the
constraints name no others, then no interpretation that comes up in the search holds any other.
-/
set_option autoImplicit false

namespace FeatureLogic

variable {σ τ : Signature} {g h : Arena} {root : NodeId} {p q : Path}

/-! ## Structures -/

namespace FeatureStructure

theorem over_empty (hnull : σ.atom .null) : empty.arena.Over σ :=
  Arena.over_empty.alloc (Content.over_leaf hnull)

theorem over_compact (hg : g.Over σ) (n : NodeId) : (compact ⟨g, n⟩).arena.Over σ :=
  Copying.over_select hg Arena.over_empty .everything n

end FeatureStructure

namespace Description

structure Over (σ : Signature) (d : Description) : Prop where
  values : ∀ e ∈ d.values, e.1.Over σ ∧ σ.atom e.2
  equivalences : ∀ e ∈ d.equivalences, e.1.Over σ ∧ e.2.Over σ

variable {values : List (Path × Atom)} {pairs : List (Path × Path)}

theorem over_placeRootValue (hg : g.Over σ) (hv : ∀ e ∈ values, σ.atom e.2)
    (hrun : placeRootValue root values g = .ok h) : h.Over σ := by
  unfold placeRootValue at hrun
  split at hrun
  · cases hrun
    exact hg
  · rename_i p a hone
    have hmem : (p, a) ∈ values := by
      have hfilter : (p, a) ∈ values.filter (·.1.isEmpty) := hone ▸ List.mem_singleton_self _
      exact List.mem_of_mem_filter hfilter
    split at hrun
    · rename_i hassign
      cases hrun
      exact hg.assignAtom (hv _ hmem) hassign
    · cases hrun
  · cases hrun

theorem over_placeValues (hg : g.Over σ) (hv : ∀ e ∈ values, e.1.Over σ ∧ σ.atom e.2)
    (hrun : placeValues root values g = .ok h) : h.Over σ := by
  induction values generalizing g with
  | nil =>
    cases hrun
    exact hg
  | cons e values ih =>
    obtain ⟨⟨hp, ha⟩, hv⟩ := List.forall_mem_cons.1 hv
    rw [placeValues] at hrun
    split at hrun
    · rename_i hcreate
      exact ih (hg.createValue hp ha hcreate) hv hrun
    · cases hrun

theorem over_link (hg : g.Over σ) (hp : p.Over σ) {t : NodeId}
    (hrun : (match g.linkPath root p t with
      | (.ok (), g) => Except.ok g
      | (.error e, _) => .error e) = .ok h) : h.Over σ := by
  split at hrun
  · rename_i hlink
    cases hrun
    exact hg.linkPath hp hlink
  · cases hrun

theorem over_placeEquivalence (hg : g.Over σ) (hp : p.Over σ) (hq : q.Over σ)
    (hrun : placeEquivalence root p q g = .ok h) : h.Over σ := by
  unfold placeEquivalence at hrun
  split at hrun
  · cases hrun
  · cases hrun
  · split at hrun
    · rename_i hunify
      cases hrun
      exact hg.unify hunify
    · cases hrun
  · exact over_link hg hq hrun
  · exact over_link hg hp hrun
  · cases hrun

theorem over_placeEquivalences (hg : g.Over σ) (hp : ∀ e ∈ pairs, e.1.Over σ ∧ e.2.Over σ)
    (hrun : placeEquivalences root pairs g = .ok h) : h.Over σ := by
  induction pairs generalizing g with
  | nil =>
    cases hrun
    exact hg
  | cons e pairs ih =>
    obtain ⟨⟨he, he'⟩, hp⟩ := List.forall_mem_cons.1 hp
    rw [placeEquivalences] at hrun
    split at hrun
    · rename_i hplace
      exact ih (over_placeEquivalence hg he he' hplace) hp hrun
    · cases hrun

end Description

theorem FeatureStructure.over_ofDescription {d : Description} {s : FeatureStructure}
    (hd : d.Over σ) (h : ofDescription d = .ok s) : s.arena.Over σ := by
  have hroot : (Arena.empty.alloc .empty).2.Over σ := Arena.over_empty.alloc Content.over_empty
  unfold ofDescription at h
  simp only [bind, Except.bind, pure, Except.pure] at h
  split at h
  · cases h
  · rename_i g₁ hrun₁
    have h₁ := Description.over_placeRootValue hroot (fun e he => (hd.values e he).2) hrun₁
    split at h
    · cases h
    · rename_i g₂ hrun₂
      have h₂ := Description.over_placeValues h₁
        (fun e he => hd.values e (List.mem_of_mem_filter he)) hrun₂
      split at h
      · cases h
      · rename_i g₃ hrun₃
        have h₃ := Description.over_placeEquivalences h₂ hd.equivalences hrun₃
        cases h
        exact over_compact h₃ _

/-! ## Interpretations -/

variable {W : Type}

/-- The atoms of a choice are only compared. -/
def Constraint.Over (σ : Signature) : Constraint W → Prop
  | absolute c => c.term.path.Over σ ∧ σ.atom c.value
  | relative c => c.lhs.path.Over σ ∧ c.rhs.path.Over σ
  | choice _ => True

theorem Constraint.Over.mono {c : Constraint W} (hc : c.Over σ) (h : σ.Extends τ) : c.Over τ := by
  cases c with
  | absolute c => exact ⟨hc.1.mono h, h.atom hc.2⟩
  | relative c => exact ⟨hc.1.mono h, hc.2.mono h⟩
  | choice c => trivial

namespace Interpretation

variable {i : Interpretation W}

theorem over_checkAbsolute (hi : i.arena.Over σ) {c : Absolute} (hp : c.term.path.Over σ)
    (ha : σ.atom c.value) : (i.checkAbsolute c).2.arena.Over σ := by
  unfold checkAbsolute
  split
  · exact hi
  · split
    · exact hi
    · split <;> rename_i hcreate <;> exact hi.createValue hp ha hcreate
    · exact hi

theorem over_checkRelative (hi : i.arena.Over σ) {c : Relative} (hl : c.lhs.path.Over σ)
    (hr : c.rhs.path.Over σ) : (i.checkRelative c).2.arena.Over σ := by
  unfold checkRelative
  split
  · split
    · rename_i hmat
      exact hi.materialize hl hmat
    · rename_i hmat
      have h₁ := hi.materialize hl hmat
      split
      · rename_i hmat₂
        exact h₁.materialize hr hmat₂
      · rename_i hmat₂
        have h₂ := h₁.materialize hr hmat₂
        split <;> rename_i hunify <;> exact h₂.unify hunify
  · exact hi

variable [Weight W]

theorem over_check (hi : i.arena.Over σ) {c : Constraint W} (hc : c.Over σ) :
    (i.check c).2.arena.Over σ := by
  cases c with
  | absolute c => exact over_checkAbsolute hi hc.1 hc.2
  | relative c => exact over_checkRelative hi hc.1 hc.2
  | choice c =>
    have harena : (i.check (.choice c)).2.arena = i.arena := (checkChoice_arena i c).1
    rwa [harena]

theorem over_checkAll (hi : i.arena.Over σ) {cs : List (Constraint W)} (hcs : ∀ c ∈ cs, c.Over σ) :
    (checkAll cs i).2.arena.Over σ := by
  induction cs generalizing i with
  | nil => exact hi
  | cons c cs ih =>
    obtain ⟨hc, hcs⟩ := List.forall_mem_cons.1 hcs
    have hstep := over_check hi hc
    rw [checkAll]
    rcases hrun : i.check c with ⟨_ | _, j⟩
    · rw [hrun] at hstep
      exact hstep
    · rw [hrun] at hstep
      exact ih hstep hcs

theorem over_eval (hi : i.arena.Over σ) {cs : ConstraintSet W} (hcs : ∀ c ∈ cs.toList, c.Over σ) :
    (i.eval cs).2.arena.Over σ := by
  rw [eval_eq]
  split
  · exact hi
  · exact over_checkAll (i := i.restart) hi hcs

theorem over_ofStructure {s : FeatureStructure} (hs : s.arena.Over σ) (slot : SlotIndex) :
    (ofStructure slot s : Interpretation W).arena.Over σ :=
  Copying.over_select hs Arena.over_empty .everything s.root

end Interpretation

namespace Extension

theorem over_copySlots {source : Arena} (hs : source.Over σ) (es : List (SlotIndex × NodeId))
    {c : Copying} (hc : c.target.Over σ) : (copySlots source es c).2.target.Over σ := by
  induction es generalizing c with
  | nil => exact hc
  | cons e es ih => exact ih (Copying.over_select hs hc .everything e.2)

theorem over_merge {e : Extension W} (hb : e.base.arena.Over σ)
    (hs : e.candidate.arena.Over σ) : e.merge.arena.Over σ := by
  have hslots := over_copySlots hb e.base.slots.entries (c := .start .empty) Arena.over_empty
  have hall := Copying.over_select (c := .start _) hs hslots .everything e.candidate.root
  unfold merge
  dsimp only
  split
  · exact hall
  · split <;> rename_i hunify <;> exact hall.unify hunify

end Extension

/-! ## Searches -/

namespace Search
open Interpretation

variable [Weight W] {cs : ConstraintSet W} {t : OptionTable} {settings : SearchSettings}
  {P : Interpretation W → Prop}

/-- What holds of the first candidates and is kept with each further one holds of the results. -/
theorem forall_results
    (hseed : ∀ e ∈ t.entries, ∀ s ∈ e.2, P ((ofStructure e.1 s).eval cs).2)
    (hstep : ∀ i, P i → ∀ e ∈ t.entries, ∀ s ∈ e.2, P ((Extension.merge ⟨i, e.1, s⟩).eval cs).2) :
    ∀ r ∈ (eval settings t cs).results, P r := by
  have hrun : ∀ (columns : List (SlotIndex × OptionColumn)) (generation : List (Interpretation W)),
      (∀ e ∈ columns, e ∈ t.entries) → (∀ i ∈ generation, P i) →
        ∀ r ∈ (run settings cs columns generation).results, P r := by
    intro columns
    induction columns with
    | nil => exact fun generation _ hg => hg
    | cons e columns ih =>
      intro generation hcolumns hg
      obtain ⟨he, hcolumns⟩ := List.forall_mem_cons.1 hcolumns
      rw [run_cons]
      refine ih _ hcolumns fun j hj => ?_
      obtain ⟨s, hs, i, hi, hrun⟩ := mem_survivors settings hj
      have hnext := hstep i (hg i hi) e he s hs
      rwa [hrun] at hnext
  intro r hr
  cases ht : t.entries with
  | nil =>
    rw [eval, ht] at hr
    dsimp only at hr
    split at hr <;> cases hr
  | cons e columns =>
    rw [results_eval settings cs ht] at hr
    split at hr
    · refine hrun columns _ (fun e' he => ht ▸ List.mem_cons_of_mem e he) (fun i hi => ?_) r hr
      obtain ⟨s, hs, hj⟩ := mem_seeds.1 hi
      have hfirst := hseed e (ht ▸ List.mem_cons_self) s hs
      rwa [hj] at hfirst
    · cases hr

theorem sound_results {given : Content → Prop}
    (ht : ∀ e ∈ t.entries, ∀ s ∈ e.2, s.arena.Sound given) :
    ∀ r ∈ (eval settings t cs).results, r.Sound given :=
  forall_results (fun e he s hs => (Proceeds.eval (sound_ofStructure (ht e he s hs) e.1) cs).sound)
    fun _ hi e he s hs => (Proceeds.eval (Extension.sound_merge hi (ht e he s hs)) cs).sound

theorem over_results (ht : ∀ e ∈ t.entries, ∀ s ∈ e.2, s.arena.Over σ)
    (hcs : ∀ c ∈ cs.toList, c.Over σ) : ∀ r ∈ (eval settings t cs).results, r.arena.Over σ :=
  forall_results (fun e he s hs => over_eval (over_ofStructure (ht e he s hs) e.1) hcs)
    fun _ hi e he s hs => over_eval (Extension.over_merge hi (ht e he s hs)) hcs

end Search

end FeatureLogic
