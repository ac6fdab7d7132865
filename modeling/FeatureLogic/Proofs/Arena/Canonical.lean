import FeatureLogic.Proofs.Arena.Constraining
/-!
The numbering of copies. Copying visits children in feature order, so where the copies come to
stand depends on the paths, atoms and coindexations that are copied and not on the arena they are
copied from.
-/
set_option autoImplicit false

namespace FeatureLogic

open Arena

/-- Entries under the same keys, related key by key, are related one by one. -/
theorem forall₂_of_keys {κ α β : Type} {R : α → β → Prop} {es : List (κ × α)}
    {es' : List (κ × β)} (hkeys : es'.map (·.1) = es.map (·.1))
    (h : ∀ {k a b}, (k, a) ∈ es → (k, b) ∈ es' → R a b) :
    List.Forall₂ (fun e e' => e'.1 = e.1 ∧ R e.2 e'.2) es es' := by
  induction es generalizing es' with
  | nil =>
    obtain rfl := List.map_eq_nil_iff.1 hkeys
    exact .nil
  | cons e es ih =>
    obtain ⟨⟨k, b⟩, es', rfl, rfl, hrest⟩ := List.map_eq_cons_iff.1 hkeys
    refine .cons ⟨rfl, h (k := e.1) List.mem_cons_self List.mem_cons_self⟩ ?_
    exact ih hrest fun ha hb => h (List.mem_cons_of_mem _ ha) (List.mem_cons_of_mem _ hb)

/-- Maps that relate key by key are related entry by entry. -/
theorem SortedMap.forall₂_entries {κ α β : Type} [Ord κ] [Std.TransOrd κ] [Std.LawfulEqOrd κ]
    {R : α → β → Prop} {m : SortedMap κ α} {m' : SortedMap κ β}
    (h : ∀ k, Option.Rel R (m.get? k) (m'.get? k)) :
    List.Forall₂ (fun e e' => e'.1 = e.1 ∧ R e.2 e'.2) m.entries m'.entries := by
  refine forall₂_of_keys (keys_eq_of_mem_iff fun k => ?_) fun {k a b} ha hb => ?_
  · simp only [← contains_iff_mem_keys, contains, Option.isSome_iff_exists]
    constructor
    · rintro ⟨b, hb⟩
      obtain ⟨a, ha, -⟩ := Copying.exists_of_rel_some (hb ▸ h k)
      exact ⟨a, ha⟩
    · rintro ⟨a, ha⟩
      obtain ⟨b, hb, -⟩ := Copying.exists_of_rel (ha ▸ h k)
      exact ⟨b, hb⟩
  · have hk := h k
    rw [(get?_eq_some_iff m).2 ha, (get?_eq_some_iff m').2 hb] at hk
    cases hk with
    | some hR => exact hR

namespace Arena

variable {g h : Arena} {roots roots' : Roots} {R : NodeId → NodeId → Prop}
  {n n' m m' : NodeId} {f : Feature} {a : Atom}

/-- What related nodes hold: one atom, or related children under the same features. -/
inductive Matches (R : NodeId → NodeId → Prop) : Content → Content → Prop
  | empty : Matches R .empty .empty
  | atom (a : Atom) : Matches R (.atom a) (.atom a)
  | complex {children children' : SortedMap Feature NodeId} :
      List.Forall₂ (fun e e' => e'.1 = e.1 ∧ R e.2 e'.2) children.entries children'.entries →
      Matches R (.complex children) (.complex children')

/-- A pairing of nodes of two arenas, one to one as far as chains go, in which paired nodes hold
the same. -/
structure Pairing (g h : Arena) (R : NodeId → NodeId → Prop) : Prop where
  resolve {n m : NodeId} : R n m → R (g.resolve n) (h.resolve m)
  resolve_iff {n n' m m' : NodeId} : R n m → R n' m' →
    (g.resolve n = g.resolve n' ↔ h.resolve m = h.resolve m')
  content {n m : NodeId} : R n m → Matches R (g.content n) (h.content m)

/-- Nodes to which one path leads. -/
def Twins (g h : Arena) (roots roots' : Roots) (n m : NodeId) : Prop :=
  ∃ t, g.Leads roots t (g.resolve n) ∧ h.Leads roots' t (h.resolve m)

section Twins
variable (hg : g.WellFormed) (hh : h.WellFormed) (hfacts : h.facts roots' = g.facts roots)
include hfacts

theorem Twins.resolve_iff (hn : Twins g h roots roots' n m) (hn' : Twins g h roots roots' n' m') :
    g.resolve n = g.resolve n' ↔ h.resolve m = h.resolve m' := by
  obtain ⟨t, ht, hm⟩ := hn
  obtain ⟨u, hu, hm'⟩ := hn'
  constructor
  · intro he
    have hs : (g.facts roots).same t u := ⟨_, ht, he ▸ hu⟩
    rw [← hfacts] at hs
    obtain ⟨k, hkt, hku⟩ := hs
    exact (hm.unique hkt).trans (hku.unique hm')
  · intro he
    have hs : (h.facts roots').same t u := ⟨_, hm, he ▸ hm'⟩
    rw [hfacts] at hs
    obtain ⟨k, hkt, hku⟩ := hs
    exact (ht.unique hkt).trans (hku.unique hu)

include hg hh

theorem Twins.atom_iff (hn : Twins g h roots roots' n m) :
    g.content n = .atom a ↔ h.content m = .atom a := by
  obtain ⟨t, ht, hm⟩ := hn
  rw [← hg.settled.content_resolve n, ← hh.settled.content_resolve m, ← ht.value_iff,
    ← hm.value_iff, hfacts]

theorem Twins.child (hn : Twins g h roots roots' n m) :
    Option.Rel (Twins g h roots roots') (g.child? n f) (h.child? m f) := by
  obtain ⟨t, ht, hm⟩ := hn
  have hgn : g.child? (g.resolve n) f = g.child? n f :=
    hg.settled.child?_congr (hg.settled.resolve_resolve n) f
  have hhm : h.child? (h.resolve m) f = h.child? m f :=
    hh.settled.child?_congr (hh.settled.resolve_resolve m) f
  have hiff : (∃ c, g.child? n f = some c) ↔ ∃ c, h.child? m f = some c := by
    rw [← hgn, ← hhm, ← ht.has_child hg.settled, ← hm.has_child hh.settled, hfacts]
  rw [← hgn, ← hhm] at hiff ⊢
  cases hc : g.child? (g.resolve n) f with
  | none =>
    cases hd : h.child? (h.resolve m) f with
    | none => exact .none
    | some d => simp [hc, hd] at hiff
  | some c =>
    cases hd : h.child? (h.resolve m) f with
    | none => simp [hc, hd] at hiff
    | some d =>
      refine .some ⟨t.below [f], (ht.below hg.settled).2 ?_, (hm.below hh.settled).2 ?_⟩
      · exact lookup_cons_eq_found.2 ⟨c, hc, rfl⟩
      · exact lookup_cons_eq_found.2 ⟨d, hd, rfl⟩

theorem Twins.content (hn : Twins g h roots roots' n m) :
    Matches (Twins g h roots roots') (g.content n) (h.content m) := by
  have hatom := fun a => hn.atom_iff (a := a) hg hh hfacts
  have hchild := fun f => hn.child (f := f) hg hh hfacts
  simp only [child?_eq] at hchild
  cases hcon : g.content n with
  | atom a =>
    rw [(hatom a).1 hcon]
    exact .atom a
  | empty =>
    cases hcon' : h.content m with
    | atom a => simp [hcon, hcon'] at hatom
    | empty => exact .empty
    | complex children =>
      obtain ⟨f, d, hd⟩ := hh.child_of_complex hcon'
      have hf := hchild f
      rw [child?_eq] at hd
      rw [hcon, hd] at hf
      cases hf
  | complex children =>
    cases hcon' : h.content m with
    | atom a => simp [hcon, hcon'] at hatom
    | empty =>
      obtain ⟨f, d, hd⟩ := hg.child_of_complex hcon
      have hf := hchild f
      rw [child?_eq] at hd
      rw [hcon', hd] at hf
      cases hf
    | complex children' =>
      rw [hcon, hcon'] at hchild
      exact .complex (SortedMap.forall₂_entries hchild)

theorem pairing_twins : Pairing g h (Twins g h roots roots') where
  resolve := by
    rintro n m ⟨t, hn, hm⟩
    refine ⟨t, ?_, ?_⟩
    · rwa [hg.settled.resolve_resolve]
    · rwa [hh.settled.resolve_resolve]
  resolve_iff hn hn' := hn.resolve_iff hfacts hn'
  content hn := hn.content hg hh hfacts

end Twins

end Arena

namespace Copying

variable {source source' base : Arena} {c c' : Copying} {R : NodeId → NodeId → Prop}
  {A : FeatureAlgebra} {den : NodeId → A.Point → Prop} {x : A.Point} {n m : NodeId}

/-! ## Two sources side by side -/

/-- Two runs of copying that have come equally far: paired nodes have the same copies. -/
structure Parallel (source source' : Arena) (R : NodeId → NodeId → Prop) (c c' : Copying) :
    Prop where
  target : c.target = c'.target
  copies {n m : NodeId} : R n m →
    c.copies.get? (source.resolve n) = c'.copies.get? (source'.resolve m)

theorem Parallel.record (hR : Pairing source source' R) (hc : Parallel source source' R c c')
    (hnm : R n m) (content : Content) :
    Parallel source source' R (c.record (source.resolve n) content)
      (c'.record (source'.resolve m) content) := by
  refine ⟨?_, fun {n' m'} hnm' => ?_⟩
  · rw [Copying.record, Copying.record, hc.target]
  · simp only [Copying.record, SortedMap.get?_insert, hR.resolve_iff hnm hnm', hc.copies hnm',
      hc.target]

/-- What is asked of copying `n` on one side and `m` on the other. -/
def CopiesAlike (source source' : Arena) (R : NodeId → NodeId → Prop)
    (copy copy' : Selection → NodeId → Copying → NodeId × Copying) (n m : NodeId) : Prop :=
  ∀ c c', Parallel source source' R c c' →
    (copy .everything n c).1 = (copy' .everything m c').1 ∧
      Parallel source source' R (copy .everything n c).2 (copy' .everything m c').2

theorem copyChildren_parallel {copy copy' : Selection → NodeId → Copying → NodeId × Copying}
    {es es' : List (Feature × NodeId)}
    (hes : List.Forall₂ (fun e e' => e'.1 = e.1 ∧ R e.2 e'.2) es es')
    (hcopy : ∀ e ∈ es, ∀ m, R e.2 m → CopiesAlike source source' R copy copy' e.2 m)
    (hc : Parallel source source' R c c') :
    (copyChildren copy .everything es c).1 = (copyChildren copy' .everything es' c').1 ∧
      Parallel source source' R (copyChildren copy .everything es c).2
        (copyChildren copy' .everything es' c').2 := by
  induction hes generalizing c c' with
  | nil => exact ⟨rfl, hc⟩
  | @cons e e' es es' hhead _ ih =>
    obtain ⟨f, d⟩ := e
    obtain ⟨f', d'⟩ := e'
    obtain ⟨rfl, hR⟩ := hhead
    obtain ⟨hid, hc₁⟩ := hcopy (f', d) List.mem_cons_self d' hR c c' hc
    obtain ⟨hids, hc₂⟩ := ih (fun e he => hcopy e (List.mem_cons_of_mem _ he)) hc₁
    exact ⟨by simp only [copyChildren, Selection.below?, hid, hids], hc₂⟩

/-- Copying paired nodes gives one and the same arena. How deep each run may go does not matter. -/
theorem copyWithin_parallel (hR : Pairing source source' R) (hd : source.Denotes A den)
    {depth depth' : Nat} (hx : A.Height depth x) (hx' : A.Height depth' x) (hn : den n x)
    (hnm : R n m) :
    CopiesAlike source source' R (copyWithin source depth) (copyWithin source' depth') n m := by
  induction depth generalizing depth' x n m with
  | zero => exact hx.elim
  | succ depth ih =>
    cases depth' with
    | zero => exact hx'.elim
    | succ depth' =>
      intro c c' hc
      have hcon := hR.content (hR.resolve hnm)
      rw [copyWithin, copyWithin, ← hc.copies hnm]
      cases hcopy : c.copies.get? (source.resolve n) with
      | some v => exact ⟨rfl, hc⟩
      | none =>
        have hrec : ∀ {c c'} content, Parallel source source' R c c' →
            c.target.size = c'.target.size ∧ Parallel source source' R
              (c.record (source.resolve n) content) (c'.record (source'.resolve m) content) :=
          fun content hc => ⟨by rw [hc.target], hc.record hR hnm content⟩
        dsimp only
        generalize hk : source.content (source.resolve n) = k at hcon
        generalize source'.content (source'.resolve m) = k' at hcon
        cases hcon with
        | empty => exact hrec .empty hc
        | atom a => exact hrec (.atom a) hc
        | @complex children children' hes =>
          have hbelow : ∀ e ∈ children.entries, ∀ m, R e.2 m →
              CopiesAlike source source' R (copyWithin source depth) (copyWithin source' depth')
                e.2 m := by
            intro e he m hm
            obtain ⟨y, hy, hden⟩ := hd.entry (hd.resolve hn) hk e he
            exact ih (hx _ y hy) (hx' _ y hy) hden hm
          obtain ⟨hids, hc₁⟩ := copyChildren_parallel hes hbelow hc
          simp only [Selection.content, ← hids]
          exact hrec _ hc₁

end Copying

end FeatureLogic
