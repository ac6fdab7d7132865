import FeatureLogic.Proofs.Arena.Feasibility
import FeatureLogic.Proofs.Arena.Retention
import FeatureLogic.Proofs.Structure.Invariant
import FeatureLogic.Proofs.Structure.Subsumption
/-!
The test for clashes and merges. What the test finds, every merge finds that makes no cycle; and
where no two paths lead to one node, a merge finds nothing else.
-/
set_option autoImplicit false

namespace FeatureLogic

open Arena

/-! ## Facts that relate no two paths -/

namespace Facts

def Discrete (F : Facts) : Prop := ∀ t u, F.same t u → t = u

variable {F G : Facts}

theorem Discrete.sup (hF : F.Discrete) (hG : G.Discrete) : (F ⊔ G).Discrete :=
  fun t u => Or.rec (hF t u) (hG t u)

theorem Discrete.acyclic (hF : F.Discrete) : F.Acyclic := by
  intro t q hs
  have hpath := congrArg PathTerm.path (hF _ _ hs)
  simpa [PathTerm.below] using hpath

/-- Together they force nothing that is not in one of them. -/
theorem Closed.sup_of_discrete (hF : F.Closed) (hG : G.Closed) (hF' : F.Discrete)
    (hG' : G.Discrete) : (F ⊔ G).Closed := by
  have hdis := hF'.sup hG'
  refine ⟨fun {t u} h => ?_, fun {t u v} h h' => ?_, fun {t q} h => ?_, fun {t u q} h hq => ?_,
    fun {t a} h => ?_, fun {t u a} h ha => ?_⟩
  · exact hdis t u h ▸ h
  · exact hdis t u h ▸ h'
  · exact h.imp hF.up hG.up
  · exact hdis t u h ▸ hq
  · exact h.imp hF.has_of_value hG.has_of_value
  · exact hdis t u h ▸ ha

end Facts

/-! ## Merges of copies -/

namespace Arena

variable {g h : Arena} {roots : Roots} {a b : NodeId} {i : SlotIndex}

/-- Facts about what is grounded in the end are kept. -/
theorem Spares.facts_le (hh : h.Settled) (hgh : g.Spares h)
    (hroots : ∀ i r, roots i = some r → h.Grounded r) : g.facts roots ≤ h.facts roots := by
  have hleads : ∀ {t n}, g.Leads roots t n → h.Leads roots t (h.resolve n) := by
    rintro t n ⟨r, hr, hl⟩
    exact ⟨r, hr, hgh.lookup hh (hroots _ r hr) hl⟩
  refine ⟨?_, ?_⟩
  · rintro t u ⟨n, ht, hu⟩
    exact ⟨_, hleads ht, hleads hu⟩
  · rintro t a ⟨n, ht, ha⟩
    exact ⟨_, hleads ht, by rw [hh.content_resolve, hgh.atom ha]⟩

end Arena

namespace FeatureStructure

variable {given : Content → Prop} {s t : FeatureStructure} {i : SlotIndex} {g h : Arena}
  {a b : NodeId} {p q : Path}

/-- The structures have the path `p`, and it leads to a clash. -/
def ClashesAt (s t : FeatureStructure) (p : Path) : Prop :=
  s.arena.ClashesAt s.root t.arena t.root p

theorem acyclic_factsAt (hs : s.arena.Settled) (hA : s.arena.Grounded s.root) (i : SlotIndex) :
    (s.factsAt i).Acyclic := by
  rintro t q ⟨n, hn, hq⟩
  obtain ⟨r, hr, hl⟩ := id hn
  obtain ⟨-, rfl⟩ := startAt_eq_some.1 hr
  exact hA.eq_nil_below hs hl ((hn.below hs).1 hq)

/-- Whatever arena structures are in, and wherever: if they are made one there without a cycle, they
have no clash. -/
theorem possiblyUnifiable_of_unites (hs : s.WellFormed) (ht : t.WellFormed) (hh : h.Settled)
    (hu : Unites g a b true h) (ha : h.Grounded a) (hsg : s.factsAt i ≤ g.facts (startAt i a))
    (htg : t.factsAt i ≤ g.facts (startAt i b)) : s.possiblyUnifiable t = true := by
  have hab := hu.resolve_eq rfl
  have hkeep : ∀ {n}, h.resolve n = h.resolve a →
      g.facts (startAt i n) ≤ h.facts (startAt i a) := by
    intro n hn
    refine (hu.spares.facts_le hh fun j r hr => ?_).trans (hh.facts_le_of_resolve fun j r hr => ?_)
    · obtain ⟨-, rfl⟩ := startAt_eq_some.1 hr
      exact ha.congr hh hn.symm
    · obtain ⟨rfl, rfl⟩ := startAt_eq_some.1 hr
      exact ⟨a, startAt_eq_some.2 ⟨rfl, rfl⟩, hn⟩
  have hle := hsg.trans (hkeep rfl)
  exact feasible_of_same hs.arena ht.arena (hh.closed_facts _) (hh.consistent_facts _) hle
    (htg.trans (hkeep hab.symm)) (s.leads_root i) (t.leads_root i)
    (hle.1 _ _ (s.has_root i)) _

/-- The merge of a copy, to any depth. -/
theorem possiblyUnifiable_of_unifyWithin (hs : s.WellFormed) (ht : t.WellFormed)
    (htA : t.arena.Grounded t.root) {depth : Nat}
    (hrun : unifyWithin depth ((Copying.start s.arena).copy t.arena t.root).2.target s.root
      ((Copying.start s.arena).copy t.arena t.root).1 = some (true, h))
    (hA : h.Grounded s.root) : s.possiblyUnifiable t = true := by
  have hj := Copying.copy_joins hs.arena ht (acyclic_factsAt ht.arena.settled htA 0)
  have hsound := Sound.of_wellFormed hj.wellFormed
  have hlt := Nat.lt_of_lt_of_le hs.root_lt hj.grows.size_le
  refine possiblyUnifiable_of_unites (i := 0) hs ht
    (Follows.unifyWithin hsound hlt hj.lt hrun).sound.settled
    (unifyWithin_spares hsound hlt hj.lt hrun) hA ?_ (hj.facts 0).ge
  exact facts_mono hj.wellFormed.settled hj.grows _

/-! ## Trees -/

theorem discrete_factsAt (hs : s.WellFormed) (hs' : ∀ p q, s.coindexed p q = true → p = q)
    (i : SlotIndex) : (s.factsAt i).Discrete := by
  rintro ⟨j, p⟩ ⟨k, q⟩ h
  have hc := hs.closed_factsAt i
  obtain rfl : j = i := slot_of_has (hc.has_left h)
  obtain rfl : k = j := slot_of_has (hc.has_right h)
  rw [hs' p q (same_factsAt.1 h)]

theorem clashesAt_of_leads {u : PathTerm} {m n : NodeId}
    (hm : s.arena.Leads (startAt i s.root) u m) (hn : t.arena.Leads (startAt i t.root) u n)
    (hc : Clash (s.arena.content m) (t.arena.content n)) : s.ClashesAt t u.path := by
  obtain ⟨r, hr, hm⟩ := hm
  obtain ⟨-, rfl⟩ := startAt_eq_some.1 hr
  obtain ⟨r, hr, hn⟩ := hn
  obtain ⟨-, rfl⟩ := startAt_eq_some.1 hr
  exact ⟨m, n, hm, hn, hc⟩

/-- What an atom of `s` may meet in `t`. -/
theorem not_conflict (ht : t.WellFormed) (hno : ∀ p, ¬ s.ClashesAt t p) {u : PathTerm} {x : Atom}
    (hx : (s.factsAt i).value u x) : (∀ y, (t.factsAt i).value u y → x = y) ∧
      ∀ f, ¬ (t.factsAt i).Has (u.below [f]) := by
  obtain ⟨m, hm, hx⟩ := hx
  refine ⟨fun y hy => ?_, fun f hf => ?_⟩
  · obtain ⟨n, hn, hy⟩ := hy
    by_contra hne
    exact hno u.path (clashesAt_of_leads hm hn (by rw [hx, hy]; exact .atoms hne))
  · have hset := ht.arena.settled
    obtain ⟨n, hn⟩ := has_facts.1 ((ht.closed_factsAt i).up hf)
    obtain ⟨c, hc⟩ := (hn.has_child hset).1 hf
    cases hcon : t.arena.content n with
    | complex children =>
      exact hno u.path (clashesAt_of_leads hm hn (by rw [hx, hcon]; exact .atom_complex x children))
    | empty | atom =>
      rw [child?_eq, hcon] at hc
      cases hc

theorem consistent_sup (hs : s.WellFormed) (ht : t.WellFormed) (hno : ∀ p, ¬ s.ClashesAt t p) :
    (s.factsAt i ⊔ t.factsAt i).Consistent := by
  have hno' : ∀ p, ¬ t.ClashesAt s p := fun p hc => hno p hc.symm
  refine ⟨fun {u x y} hx hy => ?_, fun {u x f} hx hf => ?_⟩
  · rcases hx with hx | hx <;> rcases hy with hy | hy
    · exact (hs.consistent_factsAt i).value_unique hx hy
    · exact (not_conflict ht hno hx).1 y hy
    · exact (not_conflict hs hno' hx).1 y hy
    · exact (ht.consistent_factsAt i).value_unique hx hy
  · rcases hx with hx | hx <;> rcases hf with hf | hf
    · exact (hs.consistent_factsAt i).not_has_below hx hf
    · exact (not_conflict ht hno hx).2 f hf
    · exact (not_conflict hs hno' hx).2 f hf
    · exact (ht.consistent_factsAt i).not_has_below hx hf

theorem possiblyUnifiable_iff_of_trees (hs : s.WellFormed) (ht : t.WellFormed)
    (hsA : s.arena.Grounded s.root) (hs' : ∀ p q, s.coindexed p q = true → p = q)
    (ht' : ∀ p q, t.coindexed p q = true → p = q) :
    s.possiblyUnifiable t = true ↔ (s.unify? t).isSome = true := by
  have hdisl := discrete_factsAt hs hs' 0
  have hdisr := discrete_factsAt ht ht' 0
  have hclosure : (s.factsAt 0 ⊔ t.factsAt 0).closure = s.factsAt 0 ⊔ t.factsAt 0 :=
    ((hs.closed_factsAt 0).sup_of_discrete (ht.closed_factsAt 0) hdisl hdisr).closure_eq
  have hle := Facts.le_closure (s.factsAt 0 ⊔ t.factsAt 0)
  rcases unify?_spec hs ht (hclosure.symm ▸ (hdisl.sup hdisr).acyclic) with
    ⟨c, hc, hwf, hfacts⟩ | ⟨hnone, hclash⟩
  · rw [hc, Option.isSome_some]
    refine iff_of_true ?_ rfl
    have hsc : s.factsAt 0 ≤ c.factsAt 0 := hfacts ▸ le_sup_left.trans hle
    exact feasible_of_same hs.arena ht.arena (hwf.closed_factsAt 0) (hwf.consistent_factsAt 0) hsc
      (hfacts ▸ le_sup_right.trans hle) (s.leads_root 0) (t.leads_root 0)
      (hsc.1 _ _ (s.has_root 0)) _
  · rw [hnone]
    refine iff_of_false (fun hf => hclash ?_) (by simp)
    rw [hclosure]
    exact consistent_sup hs ht ((Arena.possiblyUnifiable_iff (.of_wellFormed hs.arena)
      ht.arena.settled hs.root_lt hsA).1 hf)

/-! ## The test and merges -/

/-- The test fails exactly if some path of both structures leads to a clash, in whichever order it
is given them, and within one arena as well. It passes if a copy can be merged without making a
cycle. Of structures that have no two paths to one node it passes those that merge, and no
others. -/
theorem possiblyUnifiable_exact {given given' : Content → Prop} (hs : s.arena.Sound given)
    (ht : t.arena.Sound given') (hsr : s.root < s.arena.size) (htr : t.root < t.arena.size)
    (hsA : s.arena.Acyclic) (htA : t.arena.Acyclic) :
    (s.possiblyUnifiable t = false ↔ ∃ p, s.ClashesAt t p) ∧
    (t.arena = s.arena →
      s.arena.possiblyUnifiableHere s.root t.root = s.possiblyUnifiable t) ∧
    t.possiblyUnifiable s = s.possiblyUnifiable t ∧
    (s.WellFormed → t.WellFormed →
      (∀ depth h, unifyWithin depth ((Copying.start s.arena).copy t.arena t.root).2.target s.root
          ((Copying.start s.arena).copy t.arena t.root).1 = some (true, h) →
        h.Grounded s.root → s.possiblyUnifiable t = true) ∧
      ((∀ p q, s.coindexed p q = true → p = q) → (∀ p q, t.coindexed p q = true → p = q) →
        (s.possiblyUnifiable t = true ↔ (s.unify? t).isSome = true))) := by
  have hsg := hsA.grounded hs s.root
  have htg := htA.grounded ht t.root
  have hiff : s.possiblyUnifiable t = true ↔ ∀ p, ¬ s.ClashesAt t p :=
    Arena.possiblyUnifiable_iff hs ht.settled hsr hsg
  have hiff' : t.possiblyUnifiable s = true ↔ ∀ p, ¬ t.ClashesAt s p :=
    Arena.possiblyUnifiable_iff ht hs.settled htr htg
  refine ⟨?_, fun he => ?_, ?_, fun hsw htw => ⟨fun depth h hrun hh => ?_, fun hs' ht' => ?_⟩⟩
  · rw [← Bool.not_eq_true, hiff, not_forall_not]
  · rw [Bool.eq_iff_iff, hiff, possiblyUnifiableHere_iff hs hsr hsg]
    simp only [ClashesAt, he]
  · rw [Bool.eq_iff_iff, hiff, hiff']
    exact forall_congr' fun p => not_congr ⟨.symm, .symm⟩
  · exact possiblyUnifiable_of_unifyWithin hsw htw htg hrun hh
  · exact possiblyUnifiable_iff_of_trees hsw htw hsg hs' ht'

/-- Each of the two has a node under two paths, and they have one of the paths in common. With two
atoms at one feature of the node they clash, in either order. With the atoms side by side they are
merged, and there is no cycle then. -/
theorem possiblyUnifiable_exact_clasp :
    clasp.possiblyUnifiable (hook ⟨3⟩) = false ∧ (hook ⟨3⟩).possiblyUnifiable clasp = false ∧
      (∃ p, clasp.ClashesAt (hook ⟨3⟩) p) ∧ clasp.possiblyUnifiable (hook ⟨4⟩) = true := by
  have hclasp : clasp.arena.Acyclic := acyclic_of_level id (by decide) (by decide)
  have hagainst : (hook ⟨3⟩).arena.Acyclic := acyclic_of_level id (by decide) (by decide)
  have hbeside : (hook ⟨4⟩).arena.Acyclic := acyclic_of_level id (by decide) (by decide)
  obtain ⟨hs, -⟩ := clasp_spec (i := 0)
  obtain ⟨ht, htgraded⟩ := hook_spec (i := 0) ⟨4⟩
  obtain ⟨ht', -⟩ := hook_spec (i := 0) ⟨3⟩
  obtain ⟨hiff, -, hsymm, -⟩ := possiblyUnifiable_exact (.of_wellFormed hs.arena)
    (.of_wellFormed ht'.arena) hs.root_lt ht'.root_lt hclasp hagainst
  obtain ⟨-, -, -, hmerges⟩ := possiblyUnifiable_exact (.of_wellFormed hs.arena)
    (.of_wellFormed ht.arena) hs.root_lt ht.root_lt hclasp hbeside
  have hfails : clasp.possiblyUnifiable (hook ⟨3⟩) = false := by decide
  refine ⟨hfails, hsymm.trans hfails, hiff.1 hfails, ?_⟩
  let level (n : NodeId) : Nat := if n = 2 ∨ n = 5 then 2 else if n = 1 ∨ n = 4 then 1 else 0
  obtain ⟨h, hrun, hres, hchild⟩ : ∃ h,
      unifyWithin 4 ((Copying.start clasp.arena).copy (hook ⟨4⟩).arena (hook ⟨4⟩).root).2.target
        clasp.root ((Copying.start clasp.arena).copy (hook ⟨4⟩).arena (hook ⟨4⟩).root).1 =
          some (true, h) ∧
      (∀ n < h.size, level (h.resolve n) = level n) ∧
      ∀ n < h.size, ∀ e ∈ (h.content n).children, level e.2 < level n :=
    ⟨_, rfl, by decide, by decide⟩
  have hj := Copying.copy_joins hs.arena ht htgraded.acyclic
  have hsound := (Follows.unifyWithin (.of_wellFormed hj.wellFormed)
    (Nat.lt_of_lt_of_le hs.root_lt hj.grows.size_le) hj.lt hrun).sound
  exact (hmerges hs ht).1 4 h hrun
    ((acyclic_of_level level hres hchild).grounded hsound clasp.root)

/-! ## Merges that make a cycle -/

/-- Feature 0 leads where 2 does, and 3 where 2 and 2 again do. -/
def braid : Description where
  values := [([⟨2⟩, ⟨2⟩, ⟨3⟩], ⟨1⟩)]
  equivalences := [([⟨0⟩], [⟨2⟩]), ([⟨3⟩], [⟨2⟩, ⟨2⟩])]

/-- Feature 0 leads where 2 and 2 again do, and 2 where 3 and 3 again do. -/
def knot : Description where
  values := [([⟨0⟩], .null)]
  equivalences := [([⟨0⟩], [⟨2⟩, ⟨2⟩]), ([⟨2⟩], [⟨3⟩, ⟨3⟩])]

/-- The atom below one of them clashes with a feature of the other. Merging them makes a cycle, in
which the atom is lost before it is met. -/
theorem infeasible_merges : ∃ s t : FeatureStructure,
    ofDescription braid = .ok s ∧ ofDescription knot = .ok t ∧
    s.WellFormed ∧ t.WellFormed ∧ s.arena.Acyclic ∧ t.arena.Acyclic ∧
    s.possiblyUnifiable t = false ∧
    (((Copying.start s.arena).copy t.arena t.root).2.target.unify s.root
      ((Copying.start s.arena).copy t.arena t.root).1).1 = true := by
  have hwf : ∀ {d s}, ofDescription d = .ok s → s.WellFormed := by
    intro d s h
    have hsound : s.Sound fun _ => False := sound_ofDescription h
    exact ⟨hsound.arena.wellFormed id, hsound.root_lt⟩
  let s := (ofDescription braid).toOption.getD .empty
  let t := (ofDescription knot).toOption.getD .empty
  have hs : ofDescription braid = .ok s := rfl
  have ht : ofDescription knot = .ok t := rfl
  exact ⟨s, t, hs, ht, hwf hs, hwf ht, acyclic_of_level id (by decide +kernel) (by decide +kernel),
    acyclic_of_level id (by decide +kernel) (by decide +kernel), by decide +kernel,
    by decide +kernel⟩

end FeatureStructure

end FeatureLogic
