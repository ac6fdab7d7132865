import FeatureLogic.Proofs.Structure.Canonical
/-!
Making paths lead to one node. What a structure becomes is the least that extends it so, therefore a
list of pairs of paths comes to the same in every order; only which of the pairs fails, and how,
depends on the order.
-/
set_option autoImplicit false

namespace FeatureLogic

open Arena

namespace Arena

variable {g : Arena} {l r n : NodeId} {f : Feature} {p q : Path} {e : StructureError}

theorem childOrCreate_error (h : (g.childOrCreate n f).1 = .error e) : e = .atomicNode := by
  unfold childOrCreate at h
  dsimp only at h
  split at h
  · cases h
    rfl
  · split at h <;> cases h

theorem materialize_error (h : (g.materialize n p).1 = .error e) : e = .atomicNode := by
  induction p generalizing g n with
  | nil => cases h
  | cons f p ih =>
    rw [materialize] at h
    split at h
    · exact ih h
    · rename_i hstep
      cases h
      exact childOrCreate_error (congrArg Prod.fst hstep)

/-- Paths cannot be made one for one reason only. -/
theorem equate_error (h : (g.equate l p r q).1 = .error e) : e = .atomicNode := by
  unfold equate at h
  split at h
  · rename_i hp
    cases h
    exact materialize_error (congrArg Prod.fst hp)
  · split at h
    · rename_i hq
      cases h
      exact materialize_error (congrArg Prod.fst hq)
    · cases h

end Arena

namespace FeatureStructure

variable {s t u : FeatureStructure} {i : SlotIndex} {p q : Path} {e : StructureError}
  {pairs pairs' : List (Path × Path)}

/-! ## One pair of paths -/

/-- The outcome of making two paths one, with the structure that is there afterwards. -/
def unifyPaths (s : FeatureStructure) (p q : Path) :
    Except StructureError Bool × FeatureStructure :=
  match s.coindex p q with
  | .error e => (.error e, s)
  | .ok none => (.ok false, s)
  | .ok (some t) => (.ok true, t)

theorem unifyPaths_eq_true : s.unifyPaths p q = (.ok true, t) ↔ s.coindex p q = .ok (some t) := by
  unfold unifyPaths
  rcases s.coindex p q with e | _ | u <;> simp

theorem unifyPaths_fst_eq_true :
    (s.unifyPaths p q).1 = .ok true ↔ ∃ t, s.coindex p q = .ok (some t) := by
  unfold unifyPaths
  rcases s.coindex p q with e | _ | u <;> simp

theorem unifyPaths_unchanged (h : (s.unifyPaths p q).1 ≠ .ok true) : (s.unifyPaths p q).2 = s := by
  unfold unifyPaths at h ⊢
  generalize s.coindex p q = outcome at h ⊢
  rcases outcome with e | _ | u
  · rfl
  · rfl
  · exact absurd rfl h

theorem unifyPaths_error_iff (hs : s.WellFormed) :
    (s.unifyPaths p q).1 = .error .atomicNode ↔ s.lookup p = .blocked ∨ s.lookup q = .blocked := by
  have hroot : startAt 0 s.root 0 = some s.root := startAt_eq_some.2 ⟨rfl, rfl⟩
  have hiff := equate_error_iff (t := ⟨0, p⟩) (u := ⟨0, q⟩) hs.arena (hs.roots_lt 0) hroot hroot
  rw [lookup_eq_blocked_iff (i := 0) hs, lookup_eq_blocked_iff (i := 0) hs]
  refine Iff.trans ?_ hiff
  dsimp only
  rw [unifyPaths, coindex_eq]
  rcases he : s.arena.equate s.root p s.root q with ⟨e | b, g⟩
  · obtain rfl := equate_error (congrArg Prod.fst he)
    exact iff_of_true rfl ⟨_, rfl⟩
  · cases b <;> simp

theorem unifyPaths_error (h : (s.unifyPaths p q).1 = .error e) : e = .atomicNode := by
  rw [unifyPaths, coindex_eq] at h
  rcases he : s.arena.equate s.root p s.root q with ⟨e' | b, g⟩
  · rw [he] at h
    cases h
    exact equate_error (congrArg Prod.fst he)
  · rw [he] at h
    cases b <;> cases h

/-- What extends `s` and has both paths at one node has all that these force. -/
theorem closure_link_le (hs : s.WellFormed) (hu : u.WellFormed) (hsu : s.Subsumed u)
    (hpq : u.coindexed p q = true) : (s.factsAt i ⊔ link i p q).closure ≤ u.factsAt i := by
  refine Facts.closure_le (hu.closed_factsAt i) (sup_le ((subsumed_iff hs hu).1 hsu) ⟨?_, ?_⟩)
  · rintro _ _ ⟨rfl, rfl⟩
    exact same_factsAt.2 hpq
  · exact fun _ _ => False.elim

section Least
variable (hs : s.WellFormed) (hA : (s.factsAt i ⊔ link i p q).closure.Acyclic)
include hs hA

theorem coindex_least (ht : s.coindex p q = .ok (some t)) :
    t.WellFormed ∧ s.Subsumed t ∧ t.coindexed p q = true ∧
      ∀ u, u.WellFormed → s.Subsumed u → u.coindexed p q = true → t.Subsumed u := by
  obtain ⟨hwf, hfacts⟩ := (coindex_spec hs hA).1 t ht
  have hle : s.factsAt i ⊔ link i p q ≤ t.factsAt i := hfacts ▸ Facts.le_closure _
  refine ⟨hwf, (subsumed_iff hs hwf).2 (le_sup_left.trans hle), same_factsAt.1
    (hle.1 ⟨i, p⟩ ⟨i, q⟩ (.inr ⟨rfl, rfl⟩)), fun u hu hsu hpq => ?_⟩
  exact (subsumed_iff hwf hu).2 (hfacts ▸ closure_link_le hs hu hsu hpq)

theorem coindex_iff : (∃ t, s.coindex p q = .ok (some t)) ↔
    ∃ u, u.WellFormed ∧ s.Subsumed u ∧ u.coindexed p q = true := by
  constructor
  · rintro ⟨t, ht⟩
    obtain ⟨hwf, hst, hpq, -⟩ := coindex_least hs hA ht
    exact ⟨t, hwf, hst, hpq⟩
  · rintro ⟨u, hu, hsu, hpq⟩
    exact (coindex_spec hs hA).2
      ((hu.consistent_factsAt i).mono (closure_link_le hs hu hsu hpq))

end Least

/-! ## Lists of pairs -/

/-- One pair after the other, up to the first that fails. -/
def unifyAllPaths (s : FeatureStructure) : List (Path × Path) → Option FeatureStructure
  | [] => some s
  | (p, q) :: pairs =>
    match s.unifyPaths p q with
    | (.ok true, t) => t.unifyAllPaths pairs
    | _ => none

/-- That the paths of each pair lead to one node. -/
def links (i : SlotIndex) (pairs : List (Path × Path)) : Facts :=
  Facts.all (pairs.map fun e => link i e.1 e.2)

theorem unifyAllPaths_cons : s.unifyAllPaths ((p, q) :: pairs) = some t ↔
    ∃ u, s.coindex p q = .ok (some u) ∧ u.unifyAllPaths pairs = some t := by
  rw [unifyAllPaths]
  split
  · rename_i u hu
    rw [unifyPaths_eq_true] at hu
    simp [hu]
  · rename_i hno
    refine iff_of_false (by simp) ?_
    rintro ⟨u, hu, -⟩
    exact hno u (unifyPaths_eq_true.2 hu)

/-- All pairs together are one, unless what they force together clashes. The structure is a copy
that has been made last of all. -/
theorem unifyAllPaths_spec (hs : s.WellFormed)
    (hA : (s.factsAt i ⊔ links i pairs).closure.Acyclic) :
    (∀ t, s.unifyAllPaths pairs = some t → t.WellFormed ∧
      t.factsAt i = (s.factsAt i ⊔ links i pairs).closure ∧ (pairs ≠ [] → t.compact = t)) ∧
    ((s.factsAt i ⊔ links i pairs).closure.Consistent → ∃ t, s.unifyAllPaths pairs = some t) := by
  induction pairs generalizing s with
  | nil =>
    have hclosure : (s.factsAt i ⊔ links i []).closure = s.factsAt i := by
      rw [links, List.map_nil, Facts.all_nil, sup_bot_eq, (hs.closed_factsAt i).closure_eq]
    refine ⟨fun t ht => ?_, fun _ => ⟨s, rfl⟩⟩
    cases ht
    exact ⟨hs, hclosure.symm, fun h => absurd rfl h⟩
  | cons e pairs ih =>
    obtain ⟨p, q⟩ := e
    have hlinks : s.factsAt i ⊔ links i ((p, q) :: pairs) =
        s.factsAt i ⊔ link i p q ⊔ links i pairs := by
      rw [links, List.map_cons, Facts.all_cons, sup_assoc, links]
    rw [hlinks] at hA ⊢
    have hA' : (s.factsAt i ⊔ link i p q).closure.Acyclic :=
      hA.mono (Facts.closure_mono le_sup_left)
    obtain ⟨hmerges, hcons⟩ := coindex_merges hs hA'
    have hrest : ∀ {u}, s.coindex p q = .ok (some u) → u.WellFormed ∧
        (u.factsAt i ⊔ links i pairs).closure =
          (s.factsAt i ⊔ link i p q ⊔ links i pairs).closure := by
      intro u hu
      obtain ⟨hwf, hfacts⟩ := (coindex_spec hs hA').1 u hu
      exact ⟨hwf, by rw [hfacts, Facts.closure_sup_closure]⟩
    constructor
    · intro t ht
      obtain ⟨u, hu, ht⟩ := unifyAllPaths_cons.1 ht
      obtain ⟨hwf, hclosure⟩ := hrest hu
      obtain ⟨hwft, hfacts, hcompact⟩ := (ih hwf (hclosure ▸ hA)).1 t ht
      refine ⟨hwft, hfacts.trans hclosure, fun _ => ?_⟩
      cases pairs with
      | nil =>
        cases ht
        obtain ⟨m, rfl, hwfm, hfactsm⟩ := hmerges _ hu
        exact compact_compact hwfm (hfactsm ▸ hA')
      | cons e pairs => exact hcompact (by simp)
    · intro hc
      obtain ⟨u, hu⟩ := hcons (hc.mono (Facts.closure_mono le_sup_left))
      obtain ⟨hwf, hclosure⟩ := hrest hu
      obtain ⟨t, ht⟩ := (ih hwf (hclosure ▸ hA)).2 (hclosure ▸ hc)
      exact ⟨t, unifyAllPaths_cons.2 ⟨u, hu, ht⟩⟩

theorem links_perm (h : pairs.Perm pairs') : links i pairs = links i pairs' :=
  Facts.all_perm (h.map _)

theorem unifyAllPaths_eq_none (hs : s.WellFormed)
    (hA : (s.factsAt i ⊔ links i pairs).closure.Acyclic)
    (hc : ¬ (s.factsAt i ⊔ links i pairs).closure.Consistent) : s.unifyAllPaths pairs = none := by
  cases hrun : s.unifyAllPaths pairs with
  | none => rfl
  | some t =>
    obtain ⟨hwf, hfacts, -⟩ := (unifyAllPaths_spec hs hA).1 t hrun
    exact absurd (hfacts ▸ hwf.consistent_factsAt i) hc

/-- Structures with the same facts are one as soon as they are copies. -/
theorem unifyAllPaths_perm (hs : s.WellFormed) (hp : pairs.Perm pairs')
    (hA : (s.factsAt i ⊔ links i pairs).closure.Acyclic) :
    s.unifyAllPaths pairs = s.unifyAllPaths pairs' := by
  have hlinks := links_perm (i := i) hp
  obtain ⟨hspec, hcons⟩ := unifyAllPaths_spec hs hA
  obtain ⟨hspec', hcons'⟩ := unifyAllPaths_spec hs (hlinks ▸ hA)
  rw [← hlinks] at hspec' hcons'
  by_cases hc : (s.factsAt i ⊔ links i pairs).closure.Consistent
  · obtain ⟨t, ht⟩ := hcons hc
    obtain ⟨t', ht'⟩ := hcons' hc
    rw [ht, ht']
    rcases pairs with _ | ⟨e, pairs⟩
    · obtain rfl := hp.nil_eq
      exact ht.symm.trans ht'
    · obtain ⟨hwf, hfacts, hcompact⟩ := hspec t ht
      obtain ⟨hwf', hfacts', hcompact'⟩ := hspec' t' ht'
      rw [← hcompact (by simp), ← hcompact' (by rintro rfl; exact absurd hp.eq_nil (by simp)),
        compact_eq_of_facts hwf' hwf (hfacts' ▸ hA) (hfacts.trans hfacts'.symm)]
  · rw [unifyAllPaths_eq_none hs hA hc, unifyAllPaths_eq_none hs (hlinks ▸ hA) (hlinks ▸ hc)]

/-- To make two paths one gives the least structure that extends this one so, if there is any; it
is an error exactly if an atom is in the way; and nothing changes unless it succeeds. Pairs of paths
come to the same in every order. -/
theorem unifyPaths_least (hs : s.WellFormed) :
    (∀ p q, (s.factsAt i ⊔ link i p q).closure.Acyclic →
      ((s.unifyPaths p q).1 = .error .atomicNode ↔
        s.lookup p = .blocked ∨ s.lookup q = .blocked) ∧
      ((s.unifyPaths p q).1 = .ok true ↔
        ∃ u, u.WellFormed ∧ s.Subsumed u ∧ u.coindexed p q = true) ∧
      ((s.unifyPaths p q).1 = .error .atomicNode ∨ (s.unifyPaths p q).1 = .ok true ∨
        (s.unifyPaths p q).1 = .ok false) ∧
      ((s.unifyPaths p q).1 = .ok true → (s.unifyPaths p q).2.WellFormed ∧
        s.Subsumed (s.unifyPaths p q).2 ∧ (s.unifyPaths p q).2.coindexed p q = true ∧
        ∀ u, u.WellFormed → s.Subsumed u → u.coindexed p q = true →
          (s.unifyPaths p q).2.Subsumed u) ∧
      ((s.unifyPaths p q).1 ≠ .ok true → (s.unifyPaths p q).2 = s)) ∧
    ∀ pairs pairs', pairs.Perm pairs' → (s.factsAt i ⊔ links i pairs).closure.Acyclic →
      s.unifyAllPaths pairs = s.unifyAllPaths pairs' := by
  refine ⟨fun p q hA => ⟨unifyPaths_error_iff hs, ?_, ?_, fun htrue => ?_, unifyPaths_unchanged⟩,
    fun pairs pairs' hp hA => unifyAllPaths_perm hs hp hA⟩
  · rw [unifyPaths_fst_eq_true]
    exact coindex_iff hs hA
  · cases houtcome : (s.unifyPaths p q).1 with
    | error e => exact .inl (by rw [unifyPaths_error houtcome])
    | ok b => cases b <;> simp
  · exact coindex_least hs hA (unifyPaths_eq_true.1 (Prod.ext htrue rfl))

theorem links_graded (h : ∀ e ∈ pairs, e.1.length = e.2.length) : (links i pairs).Graded := by
  refine .all fun F hF => ?_
  obtain ⟨e, he, rfl⟩ := List.mem_map.1 hF
  exact link_graded (h e he)

/-- A leaf that is given two more paths. -/
theorem unifyPaths_least_leaf : ∃ s, (single [⟨1⟩] ⟨1⟩).unifyPaths [⟨1⟩] [⟨2⟩] = (.ok true, s) ∧
    (single [⟨1⟩] ⟨1⟩).Subsumed s ∧ s.coindexed [⟨1⟩] [⟨2⟩] = true ∧
    (single [⟨1⟩] ⟨1⟩).unifyAllPaths [([⟨1⟩], [⟨2⟩]), ([⟨2⟩], [⟨3⟩])] =
      (single [⟨1⟩] ⟨1⟩).unifyAllPaths [([⟨2⟩], [⟨3⟩]), ([⟨1⟩], [⟨2⟩])] := by
  have hp : ([⟨1⟩] : Path) ≠ [] := by decide
  obtain ⟨hone, hall⟩ := unifyPaths_least (i := 0) (single_spec hp ⟨1⟩).1
  have hgraded := single_graded hp ⟨1⟩ 0
  obtain ⟨-, -, -, hleast, -⟩ :=
    hone [⟨1⟩] [⟨2⟩] (hgraded.sup (link_graded (by rfl))).closure.acyclic
  have htrue : ((single [⟨1⟩] ⟨1⟩).unifyPaths [⟨1⟩] [⟨2⟩]).1 = .ok true := by rfl
  obtain ⟨-, hsub, hco, -⟩ := hleast htrue
  exact ⟨_, Prod.ext htrue rfl, hsub, hco,
    hall _ _ (.swap _ _ _) (hgraded.sup (links_graded (by decide))).closure.acyclic⟩

end FeatureStructure

end FeatureLogic
