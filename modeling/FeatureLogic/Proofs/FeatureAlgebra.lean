import FeatureLogic.Path
import Mathlib.Data.Finset.Card
import Mathlib.Data.Finset.Range
import Mathlib.Logic.Relation
/-!
Feature algebras: points joined by functional feature edges and labelled with atoms. They are what
the nodes of an arena may stand for. In an acyclic algebra the points below a point are fewer than
the nodes that stand for them, which bounds every recursion over children.
-/
set_option autoImplicit false

namespace FeatureLogic

structure FeatureAlgebra where
  Point : Type
  edge : Point → Feature → Point → Prop
  label : Point → Atom → Prop
  edge_unique {x y z : Point} {f : Feature} : edge x f y → edge x f z → y = z

namespace FeatureAlgebra
variable {A : FeatureAlgebra} {x y z : A.Point} {f : Feature} {a b : Atom}

def Step (A : FeatureAlgebra) (x y : A.Point) : Prop := ∃ f, A.edge x f y

/-- `y` is `x` or lies below it. -/
def Below (A : FeatureAlgebra) (x y : A.Point) : Prop := Relation.ReflTransGen A.Step x y

def Acyclic (A : FeatureAlgebra) : Prop := ∀ x, ¬ Relation.TransGen A.Step x x

structure Consistent (A : FeatureAlgebra) : Prop where
  label_unique {x : A.Point} {a b : Atom} : A.label x a → A.label x b → a = b
  no_edge {x y : A.Point} {a : Atom} {f : Feature} : A.label x a → ¬ A.edge x f y

def Walk (A : FeatureAlgebra) : A.Point → Path → A.Point → Prop
  | x, [], y => x = y
  | x, f :: p, y => ∃ z, A.edge x f z ∧ A.Walk z p y

theorem walk_append {p q : Path} : A.Walk x (p ++ q) z ↔ ∃ y, A.Walk x p y ∧ A.Walk y q z := by
  induction p generalizing x with
  | nil => simp [Walk]
  | cons f p ih =>
    simp only [List.cons_append, Walk, ih]
    constructor
    · rintro ⟨u, hu, y, hy, hz⟩
      exact ⟨y, ⟨u, hu, hy⟩, hz⟩
    · rintro ⟨y, ⟨u, hu, hy⟩, hz⟩
      exact ⟨u, hu, y, hy, hz⟩

/-- No path down from the point has `k` edges. -/
def Height (A : FeatureAlgebra) : Nat → A.Point → Prop
  | 0, _ => False
  | k + 1, x => ∀ f y, A.edge x f y → A.Height k y

theorem Height.not_strictlyBelow {k : Nat} (h : A.Height k x) :
    ¬ Relation.TransGen A.Step x x := by
  induction k generalizing x with
  | zero => exact h.elim
  | succ k ih =>
    intro hxx
    obtain ⟨y, ⟨f, hf⟩, hyx⟩ := Relation.TransGen.head'_iff.1 hxx
    exact ih (h f y hf) (Relation.TransGen.tail' hyx ⟨f, hf⟩)

/-- Of the points only those for which `P` holds are entered by edges. -/
def restrict (A : FeatureAlgebra) (P : A.Point → Prop) : FeatureAlgebra where
  Point := A.Point
  edge x f y := A.edge x f y ∧ P y
  label := A.label
  edge_unique h h' := A.edge_unique h.1 h'.1

theorem step_restrict_le (P : A.Point → Prop) : (A.restrict P).Step ≤ A.Step := by
  rintro x y ⟨f, hf⟩
  exact ⟨f, hf.1⟩

theorem Below.of_restrict {P : A.Point → Prop} {x y : A.Point}
    (h : (A.restrict P).Below x y) : A.Below x y :=
  Relation.ReflTransGen.mono (step_restrict_le P) x y h

theorem Acyclic.restrict (hA : A.Acyclic) (P : A.Point → Prop) : (A.restrict P).Acyclic :=
  fun x h => hA x (Relation.TransGen.mono (step_restrict_le P) x x h)

/-! ## Numbers that stand for points -/

section Numbers
variable (den : Nat → A.Point → Prop) (b : Nat)

open Classical in
/-- The numbers below `b` that stand for `x` or for a point below it. -/
noncomputable def numbersUnder (x : A.Point) : Finset Nat :=
  (Finset.range b).filter fun n => ∃ y, den n y ∧ A.Below x y

variable {den b}

theorem mem_numbersUnder {n : Nat} :
    n ∈ numbersUnder den b x ↔ n < b ∧ ∃ y, den n y ∧ A.Below x y := by
  simp [numbersUnder]

theorem card_numbersUnder_le (x : A.Point) : (numbersUnder den b x).card ≤ b := by
  have hle := Finset.card_le_card (s := numbersUnder den b x) (t := Finset.range b) fun n hn =>
    Finset.mem_range.2 (mem_numbersUnder.1 hn).1
  simpa using hle

/-- The numbers of a point are no longer there one step below it. -/
theorem Acyclic.card_numbersUnder (hA : A.Acyclic) (hunique : ∀ n x y, den n x → den n y → x = y)
    (hf : A.edge x f y) {s : Finset Nat} (hs : ∀ n ∈ s, n < b ∧ den n x) :
    (numbersUnder den b y).card + s.card ≤ (numbersUnder den b x).card := by
  have hdisjoint : Disjoint (numbersUnder den b y) s := by
    refine Finset.disjoint_left.2 fun n hy hn => ?_
    obtain ⟨-, z, hz, hyz⟩ := mem_numbersUnder.1 hy
    cases hunique n _ _ (hs n hn).2 hz
    exact hA x (Relation.TransGen.head' ⟨f, hf⟩ hyz)
  rw [← Finset.card_union_of_disjoint hdisjoint]
  refine Finset.card_le_card (Finset.union_subset (fun n hn => ?_) fun n hn => ?_)
  · obtain ⟨hlt, z, hz, hyz⟩ := mem_numbersUnder.1 hn
    exact mem_numbersUnder.2 ⟨hlt, z, hz, .head ⟨f, hf⟩ hyz⟩
  · exact mem_numbersUnder.2 ⟨(hs n hn).1, x, (hs n hn).2, .refl⟩

/-- If each point stands for some number below `b`, and no number for two, then `b` bounds the
height of every point. -/
theorem Acyclic.height (hA : A.Acyclic) (den : Nat → A.Point → Prop) {b : Nat}
    (hunique : ∀ n x y, den n x → den n y → x = y)
    (hcover : ∀ x f y, A.edge x f y → ∃ n < b, den n y) (hx : ∃ n < b, den n x) :
    A.Height b x := by
  have hbound : ∀ c x, (∃ n < b, den n x) → (numbersUnder den b x).card ≤ c → A.Height c x := by
    intro c
    induction c with
    | zero =>
      rintro x ⟨n, hn, hden⟩ hc
      have hmem := mem_numbersUnder.2 ⟨hn, x, hden, .refl⟩
      rw [Finset.card_eq_zero.1 (Nat.le_zero.1 hc)] at hmem
      simp at hmem
    | succ c ih =>
      rintro x ⟨n, hn, hden⟩ hc f y hf
      refine ih y (hcover x f y hf) ?_
      have hlt := hA.card_numbersUnder hunique hf (s := {n}) fun m hm => by
        cases Finset.mem_singleton.1 hm
        exact ⟨hn, hden⟩
      rw [Finset.card_singleton] at hlt
      omega
  exact hbound b x hx (card_numbersUnder_le x)

end Numbers

end FeatureAlgebra

end FeatureLogic
