import FeatureLogic.Proofs.Arena.Unification
/-!
Unification as congruence closure. The classes of the closure make a feature algebra in which each
node stands for its class. A merge succeeds exactly if no class holds two atoms, or an atom and a
complex node; the nodes of each class have then become one, which holds what they held together.
-/
set_option autoImplicit false

namespace FeatureLogic.Arena

variable {given : Content → Prop} {g h : Arena} {a b m n c d : NodeId} {f : Feature} {x y : Atom}

/-- The least equivalence that relates `a` to `b`, nodes to those they have become one with, and
the children of related nodes under one feature. -/
inductive Congruent (g : Arena) (a b : NodeId) : NodeId → NodeId → Prop
  | of_resolve {m n : NodeId} : g.resolve m = g.resolve n → Congruent g a b m n
  | pair : Congruent g a b a b
  | child {m n c d : NodeId} {f : Feature} : Congruent g a b m n → g.child? m f = some c →
      g.child? n f = some d → Congruent g a b c d
  | symm {m n : NodeId} : Congruent g a b m n → Congruent g a b n m
  | trans {m n c : NodeId} : Congruent g a b m n → Congruent g a b n c → Congruent g a b m c

/-- The class of `n` is a child of the class of `m`. -/
def Descends (g : Arena) (a b m n : NodeId) : Prop :=
  ∃ m' n' f, g.Congruent a b m m' ∧ g.child? m' f = some n' ∧ g.Congruent a b n' n

/-- No class lies below itself. -/
def AcyclicModulo (g : Arena) (a b : NodeId) : Prop :=
  ∀ n, ¬ Relation.TransGen (g.Descends a b) n n

/-- Two atoms in one class, or an atom and a complex node. -/
def Clashes (g : Arena) (a b : NodeId) : Prop :=
  ∃ m n x, g.Congruent a b m n ∧ g.content m = .atom x ∧
    ((∃ y, x ≠ y ∧ g.content n = .atom y) ∨ (g.content n).isComplex = true)

/-- In `h` the nodes of each class of `g` are one, which has the atom of the class, is complex if
one of them was, and has the children of them all. -/
structure Closes (g : Arena) (a b : NodeId) (h : Arena) : Prop where
  size : h.size = g.size
  resolve_iff {m n : NodeId} : m < g.size → n < g.size →
    (h.resolve m = h.resolve n ↔ g.Congruent a b m n)
  atom_iff {n : NodeId} {x : Atom} : n < g.size →
    (h.content n = .atom x ↔ ∃ m, g.Congruent a b m n ∧ g.content m = .atom x)
  complex_iff {n : NodeId} : n < g.size →
    ((h.content n).isComplex = true ↔
      ∃ m, g.Congruent a b m n ∧ (g.content m).isComplex = true)
  child {n c : NodeId} {f : Feature} : n < g.size → h.child? n f = some c →
    ∃ m d, g.Congruent a b m n ∧ g.child? m f = some d ∧ g.Congruent a b c d
  child_of_congruent {m n d : NodeId} {f : Feature} : n < g.size → g.Congruent a b m n →
    g.child? m f = some d → ∃ c, h.child? n f = some c ∧ g.Congruent a b c d

/-! ## The algebra of classes -/

namespace Congruent

theorem refl (n : NodeId) : g.Congruent a b n n := .of_resolve rfl

theorem swap (h : g.Congruent a b m n) : g.Congruent b a m n := by
  induction h with
  | of_resolve he => exact .of_resolve he
  | pair => exact .symm .pair
  | child _ hc hd ih => exact .child ih hc hd
  | symm _ ih => exact .symm ih
  | trans _ _ ih ih' => exact .trans ih ih'

theorem swap_iff : g.Congruent b a m n ↔ g.Congruent a b m n := ⟨swap, swap⟩

/-- A class is the set of nodes that its members are related to. -/
theorem class_eq_iff : g.Congruent a b m = g.Congruent a b n ↔ g.Congruent a b m n := by
  constructor
  · intro he
    rw [he]
    exact .refl n
  · intro h
    funext k
    exact propext ⟨fun hk => h.symm.trans hk, fun hk => h.trans hk⟩

/-- Related nodes of the arena become one in every arena that has merged `a` and `b`. -/
theorem resolve_eq (hh : h.Settled) (hgh : g.Grows h) (hab : h.resolve a = h.resolve b)
    (hmn : g.Congruent a b m n) : h.resolve m = h.resolve n := by
  induction hmn with
  | of_resolve he => exact hgh.resolve_eq he
  | pair => exact hab
  | child _ hc hd ih =>
    obtain ⟨c', hc', hec⟩ := hgh.child hc
    obtain ⟨d', hd', hed⟩ := hgh.child hd
    rw [hh.child?_congr ih, hd'] at hc'
    cases hc'
    exact hec.symm.trans hed
  | symm _ ih => exact ih.symm
  | trans _ _ ih ih' => exact ih.trans ih'

end Congruent

/-- Classes as points. -/
def classes (g : Arena) (a b : NodeId) : FeatureAlgebra where
  Point := NodeId → Prop
  edge X f Y := ∃ m c, X = g.Congruent a b m ∧ g.child? m f = some c ∧ Y = g.Congruent a b c
  label X x := ∃ m, X = g.Congruent a b m ∧ g.content m = .atom x
  edge_unique := by
    rintro X Y Z f ⟨m, c, rfl, hc, rfl⟩ ⟨n, d, he, hd, rfl⟩
    exact Congruent.class_eq_iff.2 (.child (Congruent.class_eq_iff.1 he) hc hd)

/-- The classes that have a complex node. -/
def HasComplex (g : Arena) (a b : NodeId) (X : NodeId → Prop) : Prop :=
  ∃ m, X = g.Congruent a b m ∧ (g.content m).isComplex = true

theorem Sound.models_classes (hg : g.Sound given) (a b : NodeId) :
    Models given (g.classes a b) (g.HasComplex a b)
      (fun n X => n < g.size ∧ X = g.Congruent a b n) g where
  sound := hg
  denotes := by
    refine ⟨And.left, ?_, ?_, ?_, ?_⟩
    · rintro n X Y ⟨-, rfl⟩ ⟨-, rfl⟩
      rfl
    · rintro n X ⟨hn, rfl⟩
      exact ⟨hg.settled.resolve_lt hn,
        Congruent.class_eq_iff.2 (.of_resolve (hg.settled.resolve_resolve n).symm)⟩
    · rintro n c X f ⟨-, rfl⟩ hc
      exact ⟨_, ⟨n, c, rfl, hc, rfl⟩, hg.child?_lt hc, rfl⟩
    · rintro n X x ⟨-, rfl⟩ hx
      exact ⟨n, rfl, hx⟩
  inner_of_complex := by
    rintro n X ⟨-, rfl⟩ hn
    exact ⟨n, rfl, hn⟩

theorem AcyclicModulo.classes (hA : g.AcyclicModulo a b) : (g.classes a b).Acyclic := by
  have key : ∀ X Y, Relation.TransGen (g.classes a b).Step X Y → ∀ m n, X = g.Congruent a b m →
      Y = g.Congruent a b n → Relation.TransGen (g.Descends a b) m n := by
    intro X Y h
    induction h with
    | single h =>
      rintro m n rfl rfl
      obtain ⟨f, m', n', hm, hc, hn⟩ := h
      exact .single ⟨m', n', f, Congruent.class_eq_iff.1 hm, hc,
        (Congruent.class_eq_iff.1 hn).symm⟩
    | tail _ h ih =>
      rintro m n rfl rfl
      obtain ⟨f, m', n', hm, hc, hn⟩ := h
      exact .tail (ih m m' rfl hm) ⟨m', n', f, .refl m', hc, (Congruent.class_eq_iff.1 hn).symm⟩
  intro X hX
  obtain ⟨-, ⟨f, m, c, rfl, -, -⟩, -⟩ := Relation.TransGen.head'_iff.1 hX
  exact hA m (key _ _ hX m m rfl rfl)

theorem noClash_iff : NoClash (g.classes a b) (g.HasComplex a b) ↔ ¬ g.Clashes a b := by
  constructor
  · rintro h ⟨m, n, x, hmn, hx, ⟨y, hne, hy⟩ | hn⟩
    · exact hne (h.label_unique ⟨m, rfl, hx⟩ ⟨n, Congruent.class_eq_iff.2 hmn, hy⟩)
    · exact h.not_inner ⟨m, rfl, hx⟩ ⟨n, Congruent.class_eq_iff.2 hmn, hn⟩
  · intro h
    refine ⟨?_, ?_⟩
    · rintro X x y ⟨m, rfl, hx⟩ ⟨n, he, hy⟩
      by_contra hne
      exact h ⟨m, n, x, Congruent.class_eq_iff.1 he, hx, .inl ⟨y, hne, hy⟩⟩
    · rintro X x ⟨m, rfl, hx⟩ ⟨n, he, hn⟩
      exact h ⟨m, n, x, Congruent.class_eq_iff.1 he, hx, .inr hn⟩

/-! ## The closure -/

section Closure
variable (hg : g.Sound given) (ha : a < g.size) (hb : b < g.size) (hA : g.AcyclicModulo a b)
include hg ha hb hA

theorem unify_classes : MergesInto given (g.classes a b) (g.HasComplex a b)
    (fun n X => n < g.size ∧ X = g.Congruent a b n) (g.Congruent a b a) g a b (g.unify a b).1
    (g.unify a b).2 :=
  unify_mergesInto (hg.models_classes a b) hA.classes ⟨ha, rfl⟩
    ⟨hb, Congruent.class_eq_iff.2 .pair⟩

theorem unify_closes (htrue : (g.unify a b).1 = true) : Closes g a b (g.unify a b).2 := by
  obtain ⟨hm, heq, -, -⟩ := unify_classes hg ha hb hA
  have hd := hm.denotes
  have hone : ∀ {m n}, g.Congruent a b m n →
      (g.unify a b).2.resolve m = (g.unify a b).2.resolve n :=
    Congruent.resolve_eq hm.settled hm.grows (heq htrue)
  refine ⟨hm.size, fun {m n} hml hnl => ⟨fun he => ?_, hone⟩, fun {n x} hn => ⟨fun hx => ?_, ?_⟩,
    fun {n} hn => ⟨fun hc => ?_, ?_⟩, fun {n c f} hn hc => ?_, fun {m n d f} hn hmn hf => ?_⟩
  · have hm' := hd.resolve (show m < g.size ∧ g.Congruent a b m = _ from ⟨hml, rfl⟩)
    rw [he] at hm'
    exact Congruent.class_eq_iff.1 (hd.unique hm' (hd.resolve ⟨hnl, rfl⟩))
  · obtain ⟨m, hm', hx⟩ := hd.atom ⟨hn, rfl⟩ hx
    exact ⟨m, (Congruent.class_eq_iff.1 hm').symm, hx⟩
  · rintro ⟨m, hmn, hx⟩
    rw [← hm.settled.content_congr (hone hmn), hm.grows.atom hx]
  · obtain ⟨m, hm', hc⟩ := hm.models.inner_of_complex ⟨hn, rfl⟩ hc
    exact ⟨m, (Congruent.class_eq_iff.1 hm').symm, hc⟩
  · rintro ⟨m, hmn, hc⟩
    rw [← hm.settled.content_congr (hone hmn)]
    exact hm.complex hc
  · obtain ⟨Y, ⟨m, d, hm', hf, rfl⟩, -, hY⟩ := hd.child ⟨hn, rfl⟩ hc
    exact ⟨m, d, (Congruent.class_eq_iff.1 hm').symm, hf, (Congruent.class_eq_iff.1 hY).symm⟩
  · obtain ⟨c, hc, hcd⟩ := hm.grows.child hf
    rw [hm.settled.child?_congr (hone hmn)] at hc
    obtain ⟨Y, ⟨m', d', hm', hf', rfl⟩, -, hY⟩ := hd.child ⟨hn, rfl⟩ hc
    have hmm : g.Congruent a b m' m := (Congruent.class_eq_iff.1 hm').symm.trans hmn.symm
    exact ⟨c, hc, (Congruent.class_eq_iff.1 hY).symm.trans (.child hmm hf' hf)⟩

theorem unify_iff : (g.unify a b).1 = true ↔ ¬ g.Clashes a b := by
  obtain ⟨hm, heq, -, hsucceeds⟩ := unify_classes hg ha hb hA
  refine ⟨fun htrue => ?_, fun h => hsucceeds (noClash_iff.2 h)⟩
  rintro ⟨m, n, x, hmn, hx, hn⟩
  -- in the end one node would hold both
  have hone := hmn.resolve_eq hm.settled hm.grows (heq htrue)
  have hx' := hm.grows.atom hx
  rw [hm.settled.content_congr hone] at hx'
  rcases hn with ⟨y, hne, hy⟩ | hn
  · rw [hm.grows.atom hy] at hx'
    cases hx'
    exact hne rfl
  · have hn' := hm.complex hn
    rw [hx'] at hn'
    cases hn'

/-- A class that was one node already keeps it as it is. -/
theorem unify_untouched (htrue : (g.unify a b).1 = true) (hn : n < g.size)
    (halone : ∀ m, g.Congruent a b m n → g.resolve m = g.resolve n) :
    (g.unify a b).2.resolve n = g.resolve n ∧ (g.unify a b).2.content n = g.content n := by
  obtain ⟨hm, -, habsorbs, -⟩ := unify_classes hg ha hb hA
  rcases habsorbs htrue n id with hsame | ⟨m, hne, he⟩
  · exact hsame
  · have hlt : m < g.size := by
      by_contra hge
      have hge' : (g.unify a b).2.size ≤ m := hm.size ▸ Nat.le_of_not_lt hge
      have hlt := hm.settled.resolve_lt (hm.size.symm ▸ hn)
      rw [← he, resolve_of_size_le hge'] at hlt
      exact absurd hlt (Nat.not_lt.2 hge')
    exact absurd (halone m (((unify_closes hg ha hb hA htrue).resolve_iff hlt hn).1 he)) hne

end Closure

theorem AcyclicModulo.swap (hA : g.AcyclicModulo a b) : g.AcyclicModulo b a := by
  intro n hn
  refine hA n (Relation.TransGen.mono (fun m n h => ?_) n n hn)
  obtain ⟨m', n', f, hm, hc, hn⟩ := h
  exact ⟨m', n', f, hm.swap, hc, hn.swap⟩

theorem Clashes.swap (h : g.Clashes a b) : g.Clashes b a := by
  obtain ⟨m, n, x, hmn, hrest⟩ := h
  exact ⟨m, n, x, hmn.swap, hrest⟩

theorem Closes.swap (hc : Closes g a b h) : Closes g b a h := by
  obtain ⟨hsize, hres, hatom, hcomplex, hchild, hof⟩ := hc
  refine ⟨hsize, ?_, ?_, ?_, ?_, ?_⟩ <;> simpa only [Congruent.swap_iff]

/-- To merge two nodes is to close under congruence: it succeeds exactly if no class clashes, then
makes each class one node with what the class held, leaves alone what is alone in its class, and
comes to the same from either side. -/
theorem unify_congruence (hg : g.Sound given) (ha : a < g.size) (hb : b < g.size)
    (hA : g.AcyclicModulo a b) :
    ((g.unify a b).1 = true ↔ ¬ g.Clashes a b) ∧
    ((g.unify a b).1 = true → Closes g a b (g.unify a b).2 ∧
      ∀ n < g.size, (∀ m, g.Congruent a b m n → g.resolve m = g.resolve n) →
        (g.unify a b).2.resolve n = g.resolve n ∧ (g.unify a b).2.content n = g.content n) ∧
    (g.unify b a).1 = (g.unify a b).1 ∧
    ((g.unify a b).1 = true → Closes g a b (g.unify b a).2) := by
  have hiff := unify_iff hg ha hb hA
  have hboth : (g.unify b a).1 = (g.unify a b).1 := by
    rw [Bool.eq_iff_iff, hiff, unify_iff hg hb ha hA.swap]
    exact not_congr ⟨Clashes.swap, Clashes.swap⟩
  refine ⟨hiff, fun htrue => ⟨unify_closes hg ha hb hA htrue, fun n hn halone => ?_⟩, hboth,
    fun htrue => (unify_closes hg hb ha hA.swap (hboth.trans htrue)).swap⟩
  exact unify_untouched hg ha hb hA htrue hn halone

/-- If children are always one level down there is no cycle, whatever is merged on one level. -/
theorem acyclicModulo_of_level (level : NodeId → Nat)
    (hres : ∀ n < g.size, level (g.resolve n) = level n) (hab : level a = level b)
    (hchild : ∀ m < g.size, ∀ e ∈ (g.content m).children, level m = level e.2 + 1) :
    g.AcyclicModulo a b := by
  have hdown : ∀ {m f c}, g.child? m f = some c → level m = level c + 1 :=
    fun hc => hchild _ (lt_of_child hc) (_, _) (mem_children_iff.2 hc)
  have hlevel : ∀ {m n}, g.Congruent a b m n → level m = level n := by
    intro m n h
    induction h with
    | of_resolve he => rw [← map_resolve hres, he, map_resolve hres]
    | pair => exact hab
    | child _ hc hd ih =>
      have hm := hdown hc
      have hn := hdown hd
      omega
    | symm _ ih => exact ih.symm
    | trans _ _ ih ih' => exact ih.trans ih'
  have hbelow : ∀ m n, Relation.TransGen (g.Descends a b) m n → level n < level m := by
    intro m n h
    have hstep : ∀ {m n}, g.Descends a b m n → level n < level m := by
      rintro m n ⟨m', n', f, hm, hc, hn⟩
      rw [hlevel hm, hdown hc, hlevel hn]
      exact Nat.lt_succ_self _
    induction h with
    | single h => exact hstep h
    | tail _ h ih => exact Nat.lt_trans (hstep h) ih
  exact fun n hn => Nat.lt_irrefl _ (hbelow n n hn)

/-- Two nodes with a feature each, an atom below the one and an empty node below the other; a third
node forwards to the second. -/
def forked : Arena :=
  let g := ((empty.alloc .empty).2.alloc .empty).2
  let g := (g.createValue 0 [⟨1⟩] ⟨1⟩).2
  let g := (g.createValue 1 [⟨1⟩] .null).2
  ((g.alloc .empty).2.unify 4 1).2

theorem forked_sound : forked.Sound given := by
  have h₁ : (empty.alloc .empty).2.Sound given := (Builds.alloc .start Content.allowed_empty).sound
  have h₂ := (Builds.alloc h₁ Content.allowed_empty).sound
  have h₃ := (Adds.createValue (n := 0) (p := [⟨1⟩]) h₂ (by decide) ⟨1⟩ rfl).sound
  have h₄ := (Adds.createValue (n := 1) (p := [⟨1⟩]) h₃ (by decide) .null rfl).sound
  have h₅ := (Builds.alloc h₄ Content.allowed_empty).sound
  exact (Follows.unify (l := 4) (r := 1) h₅ (by decide) (by decide)).sound

theorem unify_congruence_forked : (forked.unify 0 4).1 = true ∧ ¬ forked.Clashes 0 4 ∧
    Closes forked 0 4 (forked.unify 0 4).2 ∧ Closes forked 0 4 (forked.unify 4 0).2 := by
  have hA : forked.AcyclicModulo 0 4 :=
    acyclicModulo_of_level (fun n => if n = 2 ∨ n = 3 then 0 else 1) (by decide) (by decide)
      (by decide)
  have hg : forked.Sound fun _ => False := forked_sound
  obtain ⟨hiff, hcloses, -, hboth⟩ := unify_congruence hg (by decide) (by decide) hA
  have htrue : (forked.unify 0 4).1 = true := by decide
  exact ⟨htrue, hiff.1 htrue, (hcloses htrue).1, hboth htrue⟩

end FeatureLogic.Arena
