import FeatureLogic.Arena.Unification
import FeatureLogic.Proofs.Arena.Forwarding
import Mathlib.Logic.Relation
/-!
Shortened chains. The loop that shortens a chain is described round by round, with no bound on the
number of rounds. On a chain that ends it ends too, and the arena that it leaves differs from the
one before in nothing but where the nodes of this chain forward to.
-/
set_option autoImplicit false

namespace FeatureLogic.Arena

variable {g h : Arena} {n m l x t next : NodeId} {j k : Nat} {c : Cell}

/-- The chain from `n` visits `x`. -/
def Visits (g : Arena) (n x : NodeId) : Prop :=
  Relation.ReflTransGen (fun a b => g.cells[a]? = some (.forwards b)) n x

/-- The loop that makes nodes forward to `target` ends after `k` rounds from `n` on, and makes `h`
of `g`. A round reads where its node forwards to before it overwrites this; it meets no node that
has content. -/
inductive Shortens (target : NodeId) : Nat → NodeId → Arena → Arena → Prop
  | done (g : Arena) : Shortens target 0 target g g
  | round {k : Nat} {n next : NodeId} {g h : Arena} (hne : n ≠ target)
      (hf : g.cells[n]? = some (.forwards next))
      (hrest : Shortens target k next (g.set n (.forwards target)) h) :
      Shortens target (k + 1) n g h

/-- `h` is `g` with every node on the chain from `n` moved next to its end, and differs from it in
nothing else. -/
structure Compressed (g : Arena) (n : NodeId) (h : Arena) : Prop where
  view : SameView g h
  holds_iff {x : NodeId} {c : Content} :
    h.cells[x]? = some (.holds c) ↔ g.cells[x]? = some (.holds c)
  direct {x : NodeId} : g.Visits n x → x ≠ g.resolve n →
    h.cells[x]? = some (.forwards (g.resolve n))
  untouched {x : NodeId} : (g.Visits n x → x = g.resolve n) → h.cells[x]? = g.cells[x]?

/-! ## Nodes on a chain -/

theorem Chain.visited (hc : g.Chain k n m) (hx : g.Visits n x) : ∃ j ≤ k, g.Chain j x m := by
  induction hx with
  | refl => exact ⟨k, Nat.le_refl k, hc⟩
  | tail _ hf ih =>
    obtain ⟨j, hj, hchain⟩ := ih
    cases hchain with
    | stop hholds => simp [hholds] at hf
    | step hf' hrest =>
      cases Option.some.inj (hf.symm.trans hf')
      exact ⟨_, Nat.le_of_succ_le hj, hrest⟩

theorem Chain.eq_of_visits (hc : g.Chain 0 n m) (hx : g.Visits n x) : x = m := by
  obtain ⟨j, hj, hchain⟩ := hc.visited hx
  obtain rfl : j = 0 := Nat.le_zero.1 hj
  cases hchain
  rfl

/-- A chain that ends does not come back. -/
theorem Chain.not_visits (hf : g.cells[n]? = some (.forwards next)) (hc : g.Chain k next m) :
    ¬ g.Visits next n := by
  intro hback
  obtain ⟨j, hj, hchain⟩ := hc.visited hback
  have hlen := (hchain.unique (.step hf hc)).1
  omega

section Elsewhere
variable (hl : ¬ g.Visits l n)
include hl

theorem visits_set_iff : (g.set n c).Visits l x ↔ g.Visits l x := by
  have hcell : ∀ y, g.Visits l y → (g.set n c).cells[y]? = g.cells[y]? := by
    intro y hy
    apply getElem?_set_ne
    rintro rfl
    exact hl hy
  constructor
  · intro hx
    induction hx with
    | refl => exact .refl
    | tail _ hf ih => exact ih.tail (hcell _ ih ▸ hf)
  · intro hx
    induction hx with
    | refl => exact .refl
    | tail hy hf ih => exact ih.tail ((hcell _ hy).trans hf)

theorem Chain.set (hc : g.Chain k l m) : (g.set n c).Chain k l m := by
  have hne : ∀ {y}, ¬ g.Visits y n → n ≠ y := by
    rintro y hy rfl
    exact hy .refl
  induction hc with
  | stop hholds => exact .stop ((getElem?_set_ne g c (hne hl)).trans hholds)
  | step hf _ ih =>
    have hrest := ih fun hback => hl (.head hf hback)
    exact .step ((getElem?_set_ne g c (hne hl)).trans hf) hrest

end Elsewhere

/-! ## Rounds of the loop -/

/-- What one round leaves of the chain for the next ones. -/
theorem Chain.round (hc : g.Chain (k + 1) n t) (hf : g.cells[n]? = some (.forwards next)) :
    ¬ g.Visits next n ∧ (g.set n (.forwards t)).Chain k next t := by
  cases hc with
  | step hf' hrest =>
    cases Option.some.inj (hf.symm.trans hf')
    have hback := hrest.not_visits hf
    exact ⟨hback, hrest.set hback⟩

theorem Chain.shortens (hc : g.Chain k n t) : ∃ h, Shortens t k n g h := by
  induction k generalizing g n with
  | zero =>
    cases hc
    exact ⟨g, .done g⟩
  | succ k ih =>
    cases hc with
    | step hf hrest =>
      have hne : n ≠ t := by
        rintro rfl
        obtain ⟨c, hholds⟩ := hrest.holds
        simp [hholds] at hf
      obtain ⟨h, hs⟩ := ih ((Chain.step hf hrest).round hf).2
      exact ⟨h, .round hne hf hs⟩

/-- Any number of rounds that is large enough comes to what the loop does. -/
theorem Shortens.shorten (hs : Shortens t k n g h) (hj : k ≤ j) : shorten t j n g = h := by
  induction hs generalizing j with
  | done g => cases j <;> simp [Arena.shorten]
  | round hne hf _ ih =>
    cases j with
    | zero => omega
    | succ j =>
      simp only [Arena.shorten, if_neg hne, hf]
      exact ih (Nat.le_of_succ_le_succ hj)

theorem Shortens.untouched (hs : Shortens t k n g h) (hc : g.Chain k n t)
    (hx : g.Visits n x → x = t) : h.cells[x]? = g.cells[x]? := by
  induction hs with
  | done g => rfl
  | @round k n next g h hne hf _ ih =>
    obtain ⟨hback, hrest⟩ := hc.round hf
    have hnx : n ≠ x := by
      rintro rfl
      exact hne (hx .refl)
    have hlater := ih hrest fun hvis => hx (.head hf ((visits_set_iff hback).1 hvis))
    exact hlater.trans (getElem?_set_ne g _ hnx)

theorem Shortens.direct (hs : Shortens t k n g h) (hc : g.Chain k n t) (hx : g.Visits n x)
    (hne : x ≠ t) : h.cells[x]? = some (.forwards t) := by
  induction hs with
  | done g => exact absurd (hc.eq_of_visits hx) hne
  | @round k n next g h _ hf hs ih =>
    obtain ⟨hback, hrest⟩ := hc.round hf
    rcases Relation.ReflTransGen.cases_head hx with rfl | ⟨y, hy, hvis⟩
    · -- No later round comes back to the node of this one.
      have hlater := hs.untouched (x := n) hrest fun hvis =>
        absurd ((visits_set_iff hback).1 hvis) hback
      rw [hlater, getElem?_set _ _ _ _ hc.lt, if_pos rfl]
    · cases Option.some.inj (hf.symm.trans hy)
      exact ih hrest ((visits_set_iff hback).2 hvis)

theorem Shortens.holds_iff (hs : Shortens t k n g h) (hc : g.Chain k n t) {c : Content} :
    h.cells[x]? = some (.holds c) ↔ g.cells[x]? = some (.holds c) := by
  by_cases hx : g.Visits n x → x = t
  · rw [hs.untouched hc hx]
  · obtain ⟨hvis, hne⟩ := Classical.not_imp.1 hx
    obtain ⟨j, -, hchain⟩ := hc.visited hvis
    cases hchain with
    | stop _ => exact absurd rfl hne
    | step hf _ => simp [hs.direct hc hvis hne, hf]

/-- Shortening a chain comes to an end, returns the end of the chain, and cannot be seen: every node
resolves as before and has the content that it had. -/
theorem dechain_compresses (hg : g.Settled) (hn : n < g.size) :
    (∃ k, g.Chain k n (g.resolve n) ∧ Shortens (g.resolve n) k n g (g.dechain n).2) ∧
    (g.dechain n).1 = g.resolve n ∧ Compressed g n (g.dechain n).2 := by
  obtain ⟨k, hc⟩ := hg.chain hn
  obtain ⟨h, hs⟩ := hc.shortens
  have hh : (g.dechain n).2 = h := hs.shorten (Nat.le_of_lt hc.length_lt)
  have hview : SameView g h := hh ▸ dechain_view hg n
  rw [hh]
  exact ⟨⟨k, hc, hs⟩, rfl, hview, hs.holds_iff hc, hs.direct hc, hs.untouched hc⟩

/-- Two chains that join before their end. -/
def confluent : Arena :=
  let g := ((empty.alloc .empty).2.alloc .empty).2
  let g := ((g.alloc (.atom ⟨7⟩)).2.alloc .empty).2
  (((g.unify 0 1).2.unify 3 1).2.unify 1 2).2

theorem confluent_settled : confluent.Settled := by
  have h₂ : confluent.Chain 0 2 2 := .stop (c := .atom ⟨7⟩) rfl
  have h₁ : confluent.Chain 1 1 2 := .step rfl h₂
  intro n hn
  match n, hn with
  | 0, _ => exact ⟨2, 2, .step rfl h₁⟩
  | 1, _ => exact ⟨1, 2, h₁⟩
  | 2, _ => exact ⟨0, 2, h₂⟩
  | 3, _ => exact ⟨2, 2, .step rfl h₁⟩

/-- The chain from node 0 is shortened at both its nodes. Node 3 forwards to one of them still. -/
theorem dechain_compresses_confluent :
    (∃ k, confluent.Chain k 0 2 ∧ Shortens 2 k 0 confluent (confluent.dechain 0).2) ∧
    (confluent.dechain 0).1 = 2 ∧ (confluent.dechain 0).2.resolve 3 = 2 ∧
    (confluent.dechain 0).2.cells[0]? = some (.forwards 2) ∧
    (confluent.dechain 0).2.cells[1]? = some (.forwards 2) ∧
    (confluent.dechain 0).2.cells[2]? = some (.holds (.atom ⟨7⟩)) ∧
    (confluent.dechain 0).2.cells[3]? = some (.forwards 1) := by
  have hend : confluent.resolve 0 = 2 := rfl
  obtain ⟨hruns, hfst, hcomp⟩ := dechain_compresses confluent_settled (n := 0) (by decide)
  rw [hend] at hruns hfst
  have h01 : confluent.Visits 0 1 := .single rfl
  have h03 : ¬ confluent.Visits 0 3 := by
    intro hvis
    rcases Relation.ReflTransGen.cases_tail hvis with h | ⟨y, -, hy⟩
    · cases h
    · have hnone : ∀ z < 4, confluent.cells[z]? ≠ some (.forwards 3) := by decide
      exact hnone y (Array.getElem?_eq_some_iff.1 hy).1 hy
  exact ⟨hruns, hfst, by rw [hcomp.view.resolve]; rfl, hcomp.direct .refl (by decide),
    hcomp.direct h01 (by decide), hcomp.holds_iff.2 rfl,
    hcomp.untouched fun h => absurd h h03⟩

end FeatureLogic.Arena
