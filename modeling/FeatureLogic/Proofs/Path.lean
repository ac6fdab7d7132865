import FeatureLogic.Path
import FeatureLogic.SortedMap
/-!
The order of paths. It goes by the first feature in which they differ, and a path comes before those
that go on from it.
-/
set_option autoImplicit false

namespace FeatureLogic.Path

/-- Strictly ascending. -/
def InOrder (ps : List Path) : Prop := ps.Pairwise fun p q => compare p q = .lt

variable {f g : Feature} {p q : Path} {ps qs : List Path}

theorem compare_cons (f g : Feature) (p q : Path) :
    compare (f :: p) (g :: q) = (compare f g).then (compare p q) := by
  simp [List.compare_eq_compareLex]

theorem inOrder_map_cons (f : Feature) (h : InOrder ps) : InOrder (ps.map (f :: ·)) := by
  refine List.pairwise_map.2 (h.imp fun {p q} hpq => ?_)
  rw [compare_cons, Std.compare_self, Ordering.eq_then, hpq]

/-- Paths that start with one feature, then paths that start with later ones. -/
theorem InOrder.append (hps : InOrder ps) (hqs : InOrder qs)
    (h : ∀ q ∈ qs, ∃ g r, q = g :: r ∧ compare f g = .lt) :
    InOrder (ps.map (f :: ·) ++ qs) := by
  refine List.pairwise_append.2 ⟨inOrder_map_cons f hps, hqs, fun p hp q hq => ?_⟩
  obtain ⟨r, -, rfl⟩ := List.mem_map.1 hp
  obtain ⟨g, s, rfl, hfg⟩ := h q hq
  rw [compare_cons, hfg]
  rfl

/-- Paths below the entries of a map are in order if those below each entry are. -/
theorem inOrder_flatMap {α : Type} {es : List (Feature × α)} {below : α → List Path}
    (hes : Ascending es) (h : ∀ a, InOrder (below a)) :
    InOrder (es.flatMap fun e => (below e.2).map (e.1 :: ·)) := by
  induction es with
  | nil => exact .nil
  | cons e es ih =>
    obtain ⟨hlt, hes⟩ := List.pairwise_cons.1 hes
    refine InOrder.append (h e.2) (ih hes) fun q hq => ?_
    obtain ⟨e', he', hq⟩ := List.mem_flatMap.1 hq
    obtain ⟨r, -, rfl⟩ := List.mem_map.1 hq
    exact ⟨e'.1, r, rfl, hlt e' he'⟩

end FeatureLogic.Path
