import FeatureLogic.Proofs.Arena.Forwarding
/-!
Paths through an arena. A path that is found splits at every point into paths that are found, and
a path is blocked exactly behind an atom.
-/
set_option autoImplicit false

namespace FeatureLogic

namespace Content

def child? : Content → Feature → Option NodeId
  | complex children, f => children.get? f
  | _, _ => none

/-- The content with one more child. What is no feature map becomes one. -/
def adjoin : Content → Feature → NodeId → Content
  | complex children, f, child => complex (children.insert f child)
  | _, f, child => complex (SortedMap.singleton f child)

theorem child?_adjoin (c : Content) (f f' : Feature) (n : NodeId) :
    (c.adjoin f n).child? f' = if f = f' then some n else c.child? f' := by
  cases c with
  | complex children => exact SortedMap.get?_insert children f f' n
  | empty => exact SortedMap.get?_singleton f f' n
  | atom a => exact SortedMap.get?_singleton f f' n

theorem adjoin_ne_atom (c : Content) (f : Feature) (n : NodeId) (a : Atom) :
    c.adjoin f n ≠ atom a := by cases c <;> simp [adjoin]

theorem isComplex_adjoin (c : Content) (f : Feature) (n : NodeId) :
    (c.adjoin f n).isComplex = true := by cases c <;> rfl

theorem ne_atom_of_isComplex {c : Content} (hc : c.isComplex = true) (a : Atom) : c ≠ atom a := by
  rintro rfl
  cases hc

theorem child?_leaf (a : Atom) (f : Feature) : (leaf a).child? f = none := by
  unfold leaf
  split <;> rfl

theorem leaf_eq_atom {a b : Atom} : leaf a = atom b ↔ b = a ∧ a ≠ .null := by
  unfold leaf Atom.isNull
  split
  · rename_i ha
    simp_all
  · rename_i ha
    simp_all [eq_comm]

end Content

namespace Arena

variable {g h : Arena} {n m : NodeId} {f : Feature} {p q : Path} {a : Atom}

theorem child?_eq (g : Arena) (n : NodeId) (f : Feature) :
    g.child? n f = (g.content n).child? f := by
  unfold child? Content.child?
  cases g.content n <;> rfl

theorem mem_children_iff {e : Feature × NodeId} :
    e ∈ (g.content n).children ↔ g.child? n e.1 = some e.2 := by
  rw [child?_eq]
  cases g.content n with
  | complex children => exact (SortedMap.get?_eq_some_iff children).symm
  | empty | atom => simp [Content.children, Content.child?]

theorem lt_of_child {c : NodeId} (hc : g.child? n f = some c) : n < g.size := by
  by_contra hn
  rw [child?_eq, content_of_size_le (Nat.le_of_not_lt hn)] at hc
  cases hc

theorem child?_alloc (hg : g.Settled) (c : Content) (n : NodeId) (f : Feature) :
    (g.alloc c).2.child? n f = if n = g.size then c.child? f else g.child? n f := by
  rw [child?_eq, content_alloc hg]
  split
  · rfl
  · rw [child?_eq]

theorem isComplex_alloc (hg : g.Settled) (c : Content) (hn : (g.content n).isComplex = true) :
    ((g.alloc c).2.content n).isComplex = true := by
  rw [content_alloc hg, if_neg]
  · exact hn
  · rintro rfl
    rw [content_of_size_le (Nat.le_refl _)] at hn
    cases hn

theorem attach_eq (hg : g.Settled) (hn : n < g.size) (he : g.resolve n = n) (f : Feature)
    (c : NodeId) : g.attach n f c = g.set n (.holds ((g.content n).adjoin f c)) := by
  unfold attach Content.adjoin
  rw [hg.holds_of_resolve_eq hn he]
  cases g.content n <;> rfl

/-- Chains end, and children exist. -/
structure Bounded (g : Arena) : Prop where
  settled : g.Settled
  child_lt {n : NodeId} {f : Feature} {c : NodeId} : g.child? n f = some c → c < g.size

/-- Chains end, children exist, and complex nodes have some. -/
structure WellFormed (g : Arena) : Prop where
  settled : g.Settled
  child_lt {n : NodeId} {f : Feature} {c : NodeId} : g.child? n f = some c → c < g.size
  child_of_complex {n : NodeId} {children : SortedMap Feature NodeId} :
    g.content n = .complex children → ∃ f c, g.child? n f = some c

theorem WellFormed.bounded (hg : g.WellFormed) : g.Bounded := ⟨hg.settled, hg.child_lt⟩

theorem WellFormed.empty : empty.WellFormed where
  settled n hn := absurd hn (Nat.not_lt_zero n)
  child_lt hc := by
    rw [child?_eq, content_of_size_le (Nat.zero_le _)] at hc
    cases hc
  child_of_complex hc := by
    rw [content_of_size_le (Nat.zero_le _)] at hc
    cases hc

theorem SameView.child? (hv : SameView g h) (n : NodeId) (f : Feature) :
    h.child? n f = g.child? n f := by
  rw [child?_eq, child?_eq, hv.content]

theorem SameView.bounded (hv : SameView g h) (hg : g.Bounded) : h.Bounded where
  settled := hv.settled
  child_lt hc := by
    rw [hv.child?] at hc
    rw [hv.size]
    exact hg.child_lt hc

theorem SameView.wellFormed (hv : SameView g h) (hg : g.WellFormed) : h.WellFormed where
  settled := hv.settled
  child_lt := (hv.bounded hg.bounded).child_lt
  child_of_complex hc := by
    rw [hv.content] at hc
    simp only [hv.child?]
    exact hg.child_of_complex hc

theorem Settled.child?_congr (hg : g.Settled) (he : g.resolve n = g.resolve m) (f : Feature) :
    g.child? n f = g.child? m f := by
  rw [child?_eq, child?_eq, hg.content_congr he]

theorem child?_dechain (hg : g.Settled) (hn : g.dechain n = (m, h)) (f : Feature) :
    h.child? m f = h.child? n f := by
  obtain ⟨rfl, hv⟩ := dechain_spec hg hn
  exact hv.settled.child?_congr (by rw [hv.resolve, hg.resolve_resolve]) f

theorem not_atom_of_child {c : NodeId} (hc : g.child? n f = some c) : g.content n ≠ .atom a := by
  intro ha
  rw [child?_eq, ha] at hc
  cases hc

theorem lookup_cons_eq_found : g.lookup n (f :: p) = .found m ↔
    ∃ c, g.child? n f = some c ∧ g.lookup c p = .found m := by
  rw [lookup, child?_eq]
  cases g.content n with
  | empty => simp [Content.child?]
  | atom a => simp [Content.child?]
  | complex children => cases hc : children.get? f <;> simp [Content.child?, hc]

theorem lookup_cons_of_child {c : NodeId} (hc : g.child? n f = some c) (p : Path) :
    g.lookup n (f :: p) = g.lookup c p := by
  rw [child?_eq] at hc
  rw [lookup]
  cases hn : g.content n with
  | empty => simp [hn, Content.child?] at hc
  | atom a => simp [hn, Content.child?] at hc
  | complex children =>
    have hget : children.get? f = some c := by simpa [hn, Content.child?] using hc
    simp [hget]

theorem lookup_cons_of_childless (h : g.child? n f = none) (p : Path) :
    g.lookup n (f :: p) = if (g.content n).isAtomic then .blocked else .missing := by
  rw [child?_eq] at h
  rw [lookup]
  cases hn : g.content n with
  | empty | atom => rfl
  | complex children =>
    rw [hn] at h
    simp only [Content.child?] at h
    simp [h, Content.isAtomic]

theorem Settled.lookup_congr (hg : g.Settled) (he : g.resolve n = g.resolve m) (p : Path) :
    g.lookup n p = g.lookup m p := by
  cases p with
  | nil => simp [lookup, he]
  | cons f p => simp only [lookup, hg.content_congr he]

theorem SameView.lookup (hv : SameView g h) (n : NodeId) (p : Path) :
    h.lookup n p = g.lookup n p := by
  induction p generalizing n with
  | nil => simp [Arena.lookup, hv.resolve]
  | cons f p ih => simp only [Arena.lookup, hv.content, ih]

theorem Settled.resolve_of_lookup (hg : g.Settled) (hl : g.lookup n p = .found m) :
    g.resolve m = m := by
  induction p generalizing n with
  | nil =>
    cases hl
    exact hg.resolve_resolve n
  | cons f p ih =>
    obtain ⟨c, _, hc⟩ := lookup_cons_eq_found.1 hl
    exact ih hc

theorem Bounded.lookup_lt (hg : g.Bounded) (hn : n < g.size)
    (hl : g.lookup n p = .found m) : m < g.size := by
  induction p generalizing n with
  | nil =>
    cases hl
    exact hg.settled.resolve_lt hn
  | cons f p ih =>
    obtain ⟨c, hc, hrest⟩ := lookup_cons_eq_found.1 hl
    exact ih (hg.child_lt hc) hrest

theorem WellFormed.lookup_lt (hg : g.WellFormed) (hn : n < g.size)
    (hl : g.lookup n p = .found m) : m < g.size :=
  hg.bounded.lookup_lt hn hl

theorem Settled.lookup_append (hg : g.Settled) (hl : g.lookup n p = .found m) (q : Path) :
    g.lookup n (p ++ q) = g.lookup m q := by
  induction p generalizing n with
  | nil =>
    cases hl
    exact (hg.lookup_congr (hg.resolve_resolve n) q).symm
  | cons f p ih =>
    obtain ⟨c, hc, hrest⟩ := lookup_cons_eq_found.1 hl
    rw [List.cons_append, lookup_cons_of_child hc]
    exact ih hrest

theorem lookup_prefix (hl : g.lookup n (p ++ q) = .found m) :
    ∃ k, g.lookup n p = .found k := by
  induction p generalizing n with
  | nil => exact ⟨_, rfl⟩
  | cons f p ih =>
    obtain ⟨c, hc, hrest⟩ := lookup_cons_eq_found.1 hl
    rw [lookup_cons_of_child hc]
    exact ih hrest

theorem Settled.lookup_eq_blocked (hg : g.Settled) (hl : g.lookup n p = .blocked) :
    ∃ q f r m a, p = q ++ f :: r ∧ g.lookup n q = .found m ∧ g.content m = .atom a := by
  induction p generalizing n with
  | nil => cases hl
  | cons f p ih =>
    cases hn : g.child? n f with
    | some c =>
      rw [lookup_cons_of_child hn] at hl
      obtain ⟨q, f', r, m, a, rfl, hm, ha⟩ := ih hl
      exact ⟨f :: q, f', r, m, a, rfl, by rw [lookup_cons_of_child hn, hm], ha⟩
    | none =>
      rw [child?_eq] at hn
      rw [lookup] at hl
      cases hc : g.content n with
      | empty => simp [hc] at hl
      | complex children =>
        have hget : children.get? f = none := by simpa [hc, Content.child?] using hn
        simp [hc, hget] at hl
      | atom a =>
        exact ⟨[], f, p, g.resolve n, a, rfl, rfl, by rw [hg.content_resolve, hc]⟩

end Arena

end FeatureLogic
