import FeatureLogic.Arena.Copying
import FeatureLogic.Proofs.Arena.Acyclicity
import FeatureLogic.Proofs.Arena.Growth
/-!
Copying. Whatever is selected, a node is copied once, with the selection that it is met with first, into
a cell that the target did not have; and all new cells are copies. Nodes that the target held before are
left alone.
-/
set_option autoImplicit false

namespace FeatureLogic

open Arena

namespace Selection

variable {s : Selection} {kept : List (Feature × NodeId)} {n : NodeId} {f : Feature}

def keeps (s : Selection) (f : Feature) : Bool := (s.below? f).isSome

/-- The child under `f`, unless it is left out. -/
def child? (s : Selection) (g : Arena) (n : NodeId) (f : Feature) : Option NodeId :=
  if s.keeps f then g.child? n f else none

theorem child?_eq_some {g : Arena} {d : NodeId} :
    s.child? g n f = some d ↔ s.keeps f = true ∧ g.child? n f = some d := by
  unfold child?
  split <;> simp [*]

theorem child?_content (s : Selection) (kept : List (Feature × NodeId)) (f : Feature) :
    (s.content kept).child? f = (SortedMap.ofList kept).get? f := by
  cases s <;> cases kept <;> rfl

theorem isComplex_content : (s.content kept).isComplex = true ↔ s = everything ∨ kept ≠ [] := by
  cases s <;> cases kept <;> simp [content, Content.isComplex]

theorem content_ne_atom (s : Selection) (kept : List (Feature × NodeId)) (a : Atom) :
    s.content kept ≠ .atom a := by
  cases s <;> cases kept <;> simp [content]

end Selection

namespace Copying

section Related
variable {α β : Type} {R : α → β → Prop} {a : α} {o : Option β}

theorem exists_of_rel (h : Option.Rel R (some a) o) : ∃ b, o = some b ∧ R a b := by
  cases h with
  | some hR => exact ⟨_, rfl, hR⟩

theorem exists_of_rel_some {o : Option α} {b : β} (h : Option.Rel R o (some b)) :
    ∃ a, o = some a ∧ R a b := by
  cases h with
  | some hR => exact ⟨_, rfl, hR⟩

theorem rel_mono {S : α → β → Prop} (hRS : ∀ a b, R a b → S a b) {o : Option α} {o' : Option β}
    (h : Option.Rel R o o') : Option.Rel S o o' := by
  cases h with
  | some hR => exact .some (hRS _ _ hR)
  | none => exact .none

end Related

section Entries
variable {κ : Type} {es es' : List (κ × NodeId)} {R : NodeId → NodeId → Prop}

theorem map_fst_of_forall₂ (h : List.Forall₂ (fun e e' => e'.1 = e.1 ∧ R e.2 e'.2) es es') :
    es'.map (·.1) = es.map (·.1) := by
  induction h with
  | nil => rfl
  | cons hhead _ ih => simp [hhead.1, ih]

theorem exists_of_forall₂ (h : List.Forall₂ (fun e e' => e'.1 = e.1 ∧ R e.2 e'.2) es es')
    {k : κ} {n : NodeId} (hn : (k, n) ∈ es) : ∃ w, (k, w) ∈ es' ∧ R n w := by
  induction h with
  | nil => simp at hn
  | @cons e e' es es' hhead _ ih =>
    rcases List.mem_cons.1 hn with rfl | hn
    · obtain ⟨k', w⟩ := e'
      obtain ⟨hk, hR⟩ := hhead
      cases hk
      exact ⟨w, List.mem_cons_self, hR⟩
    · obtain ⟨w, hw, hR⟩ := ih hn
      exact ⟨w, List.mem_cons_of_mem _ hw, hR⟩

theorem forall₂_zip_keys {ns : List NodeId} (h : List.Forall₂ R (es.map (·.2)) ns) :
    List.Forall₂ (fun e e' => e'.1 = e.1 ∧ R e.2 e'.2) es ((es.map (·.1)).zip ns) := by
  induction es generalizing ns with
  | nil => exact .nil
  | cons e es ih =>
    cases h with
    | cons hhead htail => exact .cons ⟨rfl, hhead⟩ (ih htail)

/-- A map whose entries are copied one by one holds copies under the same keys. -/
theorem rel_get?_of_forall₂ [Ord κ] [Std.TransOrd κ] [Std.LawfulEqOrd κ] {m : SortedMap κ NodeId}
    (h : List.Forall₂ (fun e e' => e'.1 = e.1 ∧ R e.2 e'.2) m.entries es') (k : κ) :
    Option.Rel R (m.get? k) ((SortedMap.ofList es').get? k) := by
  have hkeys := map_fst_of_forall₂ h
  have hnodup : (es'.map (·.1)).Nodup := hkeys ▸ m.ascending.nodup_keys
  cases hk : m.get? k with
  | some n =>
    obtain ⟨w, hw, hR⟩ := exists_of_forall₂ h ((SortedMap.get?_eq_some_iff m).1 hk)
    rw [(SortedMap.get?_ofList_eq_some_iff hnodup).2 hw]
    exact .some hR
  | none =>
    cases hw : (SortedMap.ofList es').get? k with
    | none => exact .none
    | some w =>
      have hmem : k ∈ es'.map (·.1) :=
        List.mem_map_of_mem ((SortedMap.get?_ofList_eq_some_iff hnodup).1 hw)
      rw [hkeys] at hmem
      obtain ⟨e, he, rfl⟩ := List.mem_map.1 hmem
      rw [(SortedMap.get?_eq_some_iff m).2 he] at hk
      cases hk

end Entries

variable {source base : Arena} {met : Selection → NodeId → Prop} {c c' : Copying} {s : Selection}
  {copies : CloneMap} {n k v m : NodeId} {f : Feature} {p : Path} {content : Content}

/-- A node that holds `content`, recorded as the copy of `k`. -/
def record (c : Copying) (k : NodeId) (content : Content) : Copying :=
  ⟨(c.target.alloc content).2, c.copies.insert k c.target.size⟩

/-- `c'` has the copies of `c` and more of them, all of nodes in the region `R`. -/
structure Continues (R : NodeId → Prop) (c c' : Copying) : Prop where
  kept {k v : NodeId} : c.copies.get? k = some v → c'.copies.get? k = some v
  added {k v : NodeId} : c'.copies.get? k = some v → c.copies.get? k = some v ∨ R k

theorem Continues.refl (R : NodeId → Prop) (c : Copying) : Continues R c c := ⟨id, .inl⟩

theorem Continues.trans {R : NodeId → Prop} {c'' : Copying} (h : Continues R c c')
    (h' : Continues R c' c'') : Continues R c c'' := by
  refine ⟨fun hk => h'.kept (h.kept hk), fun hk => ?_⟩
  rcases h'.added hk with hk | hk
  · exact h.added hk
  · exact .inr hk

theorem Continues.mono {R S : NodeId → Prop} (hRS : ∀ m, R m → S m) (h : Continues R c c') :
    Continues S c c' :=
  ⟨h.kept, fun hk => (h.added hk).imp id (hRS _)⟩

/-! ## One copy -/

/-- What a copy of `k` holds of which `s` is kept. A node that is left without children becomes empty,
unless all is kept. -/
structure IsCopy (source : Arena) (copies : CloneMap) (s : Selection) (k : NodeId)
    (content : Content) : Prop where
  atom (a : Atom) : content = .atom a ↔ source.content k = .atom a
  child (f : Feature) : Option.Rel (fun d w => copies.get? (source.resolve d) = some w)
    (s.child? source k f) (content.child? f)
  complex : content.isComplex = true ↔ (source.content k).isComplex = true ∧
    (s = .everything ∨ ∃ f d, s.child? source k f = some d)

namespace IsCopy

theorem mono {copies' : CloneMap}
    (h : ∀ {k v}, copies.get? k = some v → copies'.get? k = some v)
    (hcon : IsCopy source copies s k content) : IsCopy source copies' s k content :=
  ⟨hcon.atom, fun f => rel_mono (fun _ _ => h) (hcon.child f), hcon.complex⟩

theorem bare (hcon : source.content k = content) (hbare : content.isComplex = false) :
    IsCopy source copies s k content := by
  have hnone : ∀ f, content.child? f = none := by
    cases content <;> simp_all [Content.child?, Content.isComplex]
  refine ⟨fun a => by rw [hcon], fun f => ?_, by simp [hcon, hbare]⟩
  rw [hnone, Selection.child?, child?_eq, hcon, hnone, ite_self]
  exact .none

theorem of_children {children : SortedMap Feature NodeId} {kept : List (Feature × NodeId)}
    (hk : source.content k = .complex children)
    (hall : List.Forall₂ (fun e e' => e'.1 = e.1 ∧ copies.get? (source.resolve e.2) = some e'.2)
      (children.restrict s.keeps).entries kept) :
    IsCopy source copies s k (s.content kept) := by
  have hchild : ∀ f, s.child? source k f = (children.restrict s.keeps).get? f := by
    intro f
    rw [Selection.child?, child?_eq, hk, SortedMap.get?_restrict, Content.child?]
  refine ⟨fun a => ?_, fun f => ?_, ?_⟩
  · simp [hk, Selection.content_ne_atom]
  · rw [hchild, Selection.child?_content]
    exact rel_get?_of_forall₂ (R := fun d w => copies.get? (source.resolve d) = some w) hall f
  · have hne : kept ≠ [] ↔ ∃ f d, s.child? source k f = some d := by
      simp only [hchild, SortedMap.get?_eq_some_iff]
      generalize (children.restrict s.keeps).entries = es at hall
      cases hall with
      | nil => simp
      | @cons e _ _ _ _ _ => exact ⟨fun _ => ⟨e.1, e.2, List.mem_cons_self⟩, fun _ => by simp⟩
    rw [Selection.isComplex_content, hne, hk]
    simp [Content.isComplex]

theorem isAtomic_eq (hcon : IsCopy source copies s k content) :
    content.isAtomic = (source.content k).isAtomic := by
  have hatom : ∀ c : Content, c.isAtomic = true ↔ ∃ a, c = .atom a := by
    intro c
    cases c <;> simp [Content.isAtomic]
  rw [Bool.eq_iff_iff, hatom, hatom]
  exact exists_congr hcon.atom

/-- A copy is complex only if something is kept. -/
theorem exists_child (hs : source.WellFormed) (hcon : IsCopy source copies s k content)
    (h : content.isComplex = true) : ∃ f d, s.child? source k f = some d := by
  obtain ⟨hk, rfl | hkept⟩ := hcon.complex.1 h
  · cases hcell : source.content k with
    | complex children =>
      obtain ⟨f, d, hd⟩ := hs.child_of_complex hcell
      exact ⟨f, d, hd⟩
    | empty | atom =>
      rw [hcell] at hk
      cases hk
  · exact hkept

end IsCopy

/-! ## All copies -/

/-- The cells that came into the arena `base` hold copies, each of a node of its own, with a selection
that the node was `met` with. -/
structure Mirrors (source base : Arena) (met : Selection → NodeId → Prop) (c : Copying) :
    Prop where
  size_le : base.size ≤ c.target.size
  old {n : NodeId} : n < base.size → c.target.cells[n]? = base.cells[n]?
  range {k v : NodeId} : c.copies.get? k = some v → base.size ≤ v ∧ v < c.target.size
  onto {v : NodeId} : base.size ≤ v → v < c.target.size → ∃ k, c.copies.get? k = some v
  injective {k k' v : NodeId} : c.copies.get? k = some v → c.copies.get? k' = some v → k = k'
  cell {k v : NodeId} : c.copies.get? k = some v → source.resolve k = k ∧ ∃ s content,
    met s k ∧ c.target.cells[v]? = some (.holds content) ∧ IsCopy source c.copies s k content

namespace Mirrors

theorem start (source base : Arena) (met : Selection → NodeId → Prop) :
    Mirrors source base met (.start base) where
  size_le := Nat.le_refl _
  old _ := rfl
  range h := by cases h
  onto hge hlt := absurd hlt (Nat.not_lt_of_le hge)
  injective h := by cases h
  cell h := by cases h

theorem record (hc : Mirrors source base met c) (hk : source.resolve k = k)
    (hnew : c.copies.get? k = none) (hmet : met s k) (hcon : IsCopy source c.copies s k content) :
    Mirrors source base met (c.record k content) := by
  have hkeys : ∀ {k' v}, (c.record k content).copies.get? k' = some v →
      k = k' ∧ v = c.target.size ∨ v < c.target.size ∧ c.copies.get? k' = some v := by
    intro k' v hv
    rcases (SortedMap.get?_insert_eq_some_iff _).1 hv with ⟨rfl, rfl⟩ | ⟨-, hv⟩
    · exact .inl ⟨rfl, rfl⟩
    · exact .inr ⟨(hc.range hv).2, hv⟩
  have hkept : ∀ {k' v}, c.copies.get? k' = some v →
      (c.record k content).copies.get? k' = some v := SortedMap.get?_insert_of_fresh hnew
  have hcells : ∀ v, (c.record k content).target.cells[v]? =
      if v = c.target.size then some (.holds content) else c.target.cells[v]? :=
    fun v => Array.getElem?_push
  have hsize : (c.record k content).target.size = c.target.size + 1 := size_alloc ..
  refine ⟨?_, fun {n} hn => ?_, fun {k' v} hv => ?_, fun {v} hge hlt => ?_,
    fun {k₁ k₂ v} h₁ h₂ => ?_, fun {k' v} hv => ?_⟩
  · exact hsize ▸ Nat.le_succ_of_le hc.size_le
  · rw [hcells, if_neg (Nat.ne_of_lt (Nat.lt_of_lt_of_le hn hc.size_le)), hc.old hn]
  · rw [hsize]
    rcases hkeys hv with ⟨-, rfl⟩ | ⟨hlt, hv⟩
    · exact ⟨hc.size_le, Nat.lt_succ_self _⟩
    · exact ⟨(hc.range hv).1, Nat.lt_succ_of_lt hlt⟩
  · rw [hsize] at hlt
    rcases Nat.lt_succ_iff_lt_or_eq.1 hlt with hlt | rfl
    · obtain ⟨k', hk'⟩ := hc.onto hge hlt
      exact ⟨k', hkept hk'⟩
    · exact ⟨k, SortedMap.get?_insert_self ..⟩
  · rcases hkeys h₁ with ⟨rfl, rfl⟩ | ⟨hlt, h₁⟩ <;> rcases hkeys h₂ with ⟨rfl, he⟩ | ⟨hlt', h₂⟩
    · rfl
    · exact absurd hlt' (Nat.lt_irrefl _)
    · exact absurd he (Nat.ne_of_lt hlt)
    · exact hc.injective h₁ h₂
  · rw [hcells]
    rcases hkeys hv with ⟨rfl, rfl⟩ | ⟨hlt, hv⟩
    · exact ⟨hk, s, content, hmet, if_pos rfl, hcon.mono hkept⟩
    · obtain ⟨hk', s', content', hmet', hcell, hcon'⟩ := hc.cell hv
      rw [if_neg (Nat.ne_of_lt hlt)]
      exact ⟨hk', s', content', hmet', hcell, hcon'.mono hkept⟩

end Mirrors

/-- What comes of copying from `c`: one more node is copied, and none that it does not reach. -/
structure Takes (source base : Arena) (met : Selection → NodeId → Prop) (n : NodeId) (c : Copying)
    (outcome : NodeId × Copying) : Prop where
  mirrors : Mirrors source base met outcome.2
  copied : outcome.2.copies.get? (source.resolve n) = some outcome.1
  continues : Continues (source.Reaches n) c outcome.2

theorem copyChildren_mirrors {copy : Selection → NodeId → Copying → NodeId × Copying}
    {es : List (Feature × NodeId)}
    (hcopy : ∀ e ∈ es, ∀ below c, s.below? e.1 = some below → Mirrors source base met c →
      Takes source base met e.2 c (copy below e.2 c)) (hc : Mirrors source base met c) :
    Mirrors source base met (copyChildren copy s es c).2 ∧
      Continues (fun m => ∃ e ∈ es, source.Reaches e.2 m) c (copyChildren copy s es c).2 ∧
      List.Forall₂ (fun e e' => e'.1 = e.1 ∧
        (copyChildren copy s es c).2.copies.get? (source.resolve e.2) = some e'.2)
        (es.filter fun e => s.keeps e.1) (copyChildren copy s es c).1 := by
  induction es generalizing c with
  | nil => exact ⟨hc, .refl _ _, .nil⟩
  | cons e es ih =>
    obtain ⟨f, d⟩ := e
    have hlater : ∀ m, (∃ e ∈ es, source.Reaches e.2 m) →
        ∃ e ∈ (f, d) :: es, source.Reaches e.2 m :=
      fun m ⟨e, he, hm⟩ => ⟨e, List.mem_cons_of_mem _ he, hm⟩
    have hes := fun e he => hcopy e (List.mem_cons_of_mem _ he)
    rw [copyChildren]
    cases hbelow : s.below? f with
    | none =>
      obtain ⟨hc₁, hcont, hall⟩ := ih hes hc
      rw [List.filter_cons_of_neg (by simp [Selection.keeps, hbelow])]
      exact ⟨hc₁, hcont.mono hlater, hall⟩
    | some below =>
      have hhead := hcopy (f, d) List.mem_cons_self below c hbelow hc
      obtain ⟨hc₂, hcont, hall⟩ := ih hes hhead.mirrors
      rw [List.filter_cons_of_pos (by simp [Selection.keeps, hbelow])]
      refine ⟨hc₂, .trans (hhead.continues.mono fun m hm => ?_) (hcont.mono hlater),
        .cons ⟨rfl, hcont.kept hhead.copied⟩ hall⟩
      exact ⟨(f, d), List.mem_cons_self, hm⟩

/-- What a grounded node reaches below itself is another node. -/
theorem Continues.fresh {children : SortedMap Feature NodeId} (hs : source.Settled)
    (hg : source.Grounded k) (hk : source.content k = .complex children)
    (hcont : Continues (fun m => ∃ e ∈ children.entries, source.Reaches e.2 m) c c')
    (hnew : c.copies.get? k = none) : c'.copies.get? k = none := by
  refine Option.eq_none_iff_forall_ne_some.2 fun v hv => ?_
  rcases hcont.added hv with h | ⟨⟨f, d⟩, he, p, hp⟩
  · rw [hnew] at h
    cases h
  · have hd : source.child? k f = some d := (mem_children_iff (e := (f, d))).1 (hk ▸ he)
    have hback := hg.eq_nil hs ((lookup_cons_of_child hd p).trans hp)
    cases hback

/-- If all that can be met is grounded and met again below, copying with enough depth gives copies. -/
theorem copyWithin_mirrors (hs : source.Settled)
    (hbelow : ∀ {s k f below d}, met s k → s.below? f = some below → source.child? k f = some d →
      met below (source.resolve d)) {depth : Nat}
    (hdepth : ∀ p m, source.lookup n p = .found m → p.length < depth) (hg : source.Grounded n)
    (hmet : met s (source.resolve n)) (hc : Mirrors source base met c) :
    Takes source base met n c (copyWithin source depth s n c) := by
  induction depth generalizing n s c with
  | zero => exact absurd (hdepth [] _ rfl) (Nat.not_lt_zero _)
  | succ depth ih =>
    have hr := hs.resolve_resolve n
    have hgk := hg.congr hs hr.symm
    rw [copyWithin]
    dsimp only
    cases hget : c.copies.get? (source.resolve n) with
    | some v => exact ⟨hc, hget, .refl _ _⟩
    | none =>
      -- a node takes its place once its children have theirs
      have hfinish : ∀ {c' content}, Mirrors source base met c' →
          Continues (source.Reaches n) c c' → c'.copies.get? (source.resolve n) = none →
          IsCopy source c'.copies s (source.resolve n) content →
          Takes source base met n c (c'.target.size, c'.record (source.resolve n) content) := by
        intro c' content hc' hcont hnew hcon
        refine ⟨hc'.record hr hnew hmet hcon, SortedMap.get?_insert_self .., hcont.trans ⟨?_, ?_⟩⟩
        · exact SortedMap.get?_insert_of_fresh hnew
        · intro m v hv
          rcases (SortedMap.get?_insert_eq_some_iff _).1 hv with ⟨rfl, -⟩ | ⟨-, hv⟩
          · exact .inr (.of_resolve hr.symm)
          · exact .inl hv
      cases hcon : source.content (source.resolve n) with
      | empty => exact hfinish hc (.refl _ _) hget (.bare hcon rfl)
      | atom a => exact hfinish hc (.refl _ _) hget (.bare hcon rfl)
      | complex children =>
        have hchild : ∀ e ∈ children.entries,
            source.child? (source.resolve n) e.1 = some e.2 :=
          fun e he => mem_children_iff.1 (hcon ▸ he)
        have hchild' : ∀ e ∈ children.entries, source.child? n e.1 = some e.2 :=
          fun e he => hs.child?_congr hr e.1 ▸ hchild e he
        have hkids : ∀ e ∈ children.entries, ∀ below c, s.below? e.1 = some below →
            Mirrors source base met c →
            Takes source base met e.2 c (copyWithin source depth below e.2 c) := by
          intro e he below c hkeep hc
          refine ih (fun p m hp => ?_) (hg.child (hchild' e he))
            (hbelow hmet hkeep (hchild e he)) hc
          exact Nat.lt_of_succ_lt_succ
            (hdepth (e.1 :: p) m ((lookup_cons_of_child (hchild' e he) p).trans hp))
        obtain ⟨hc₁, hcont, hall⟩ := copyChildren_mirrors hkids hc
        refine hfinish hc₁ (hcont.mono ?_) (hcont.fresh hs hgk hcon hget) (.of_children hcon hall)
        rintro m ⟨e, he, hm⟩
        exact hm.of_child (hchild' e he)

/-! ## Reading copies -/

namespace Mirrors
variable (hc : Mirrors source base met c)
include hc

theorem isCopy (hk : c.copies.get? k = some v) : c.target.resolve v = v ∧ source.resolve k = k ∧
    ∃ s, met s k ∧ IsCopy source c.copies s k (c.target.content v) := by
  obtain ⟨hr, s, content, hmet, hcell, hcon⟩ := hc.cell hk
  have hres := resolve_of_holds hcell
  refine ⟨hres, hr, s, hmet, ?_⟩
  rwa [Arena.content, hres, hcell]

theorem chain {l : Nat} (hl : base.Chain l n m) : c.target.Chain l n m := by
  induction hl with
  | stop hcell => exact .stop ((hc.old (Chain.stop hcell).lt).trans hcell)
  | step hcell hrest ih => exact .step ((hc.old (Chain.step hcell hrest).lt).trans hcell) ih

theorem settled (hb : base.Settled) : c.target.Settled := by
  intro n hn
  rcases Nat.lt_or_ge n base.size with hlt | hge
  · obtain ⟨l, m, hl⟩ := hb n hlt
    exact ⟨l, m, hc.chain hl⟩
  · obtain ⟨k, hk⟩ := hc.onto hge hn
    obtain ⟨-, s, content, -, hcell, -⟩ := hc.cell hk
    exact ⟨0, n, .stop hcell⟩

/-- Copies have no paths that their sources have not. -/
theorem of_lookup (hs : source.Settled) {w : NodeId} (hk : c.copies.get? k = some v)
    (hl : c.target.lookup v p = .found w) :
    ∃ m, source.lookup k p = .found m ∧ c.copies.get? m = some w := by
  induction p generalizing k v with
  | nil =>
    cases hl
    obtain ⟨hv, hr, -⟩ := hc.isCopy hk
    exact ⟨k, by rw [Arena.lookup, hr], hv.symm ▸ hk⟩
  | cons f p ih =>
    obtain ⟨-, -, s, -, hcon⟩ := hc.isCopy hk
    obtain ⟨w', hw', hrest⟩ := lookup_cons_eq_found.1 hl
    rw [child?_eq] at hw'
    obtain ⟨d, hd, hget⟩ := exists_of_rel_some (hw' ▸ hcon.child f)
    obtain ⟨m, hm, hmw⟩ := ih hget hrest
    refine ⟨m, ?_, hmw⟩
    rw [lookup_cons_of_child (Selection.child?_eq_some.1 hd).2,
      ← hs.lookup_congr (hs.resolve_resolve d), hm]

/-- A path that is kept step by step leads to copies of the nodes it leads to in the source. -/
theorem lookup_of_kept (hs : source.Settled) (hk : c.copies.get? k = some v)
    (hkept : ∀ q f r m s, p = q ++ f :: r → source.lookup k q = .found m → met s m →
      s.keeps f = true) :
    (∃ m w, source.lookup k p = .found m ∧ c.target.lookup v p = .found w ∧
      c.copies.get? m = some w) ∨
    (∀ m, source.lookup k p ≠ .found m) ∧ c.target.lookup v p = source.lookup k p := by
  induction p generalizing k v with
  | nil =>
    obtain ⟨hv, hr, -⟩ := hc.isCopy hk
    exact .inl ⟨k, v, by rw [Arena.lookup, hr], by rw [Arena.lookup, hv], hk⟩
  | cons f p ih =>
    obtain ⟨-, hr, s, hmet, hcon⟩ := hc.isCopy hk
    have hchild : s.child? source k f = source.child? k f :=
      if_pos (hkept [] f p k s rfl (by rw [Arena.lookup, hr]) hmet)
    have hrel := hcon.child f
    rw [hchild, ← child?_eq] at hrel
    cases hd : source.child? k f with
    | none =>
      cases hw : c.target.child? v f with
      | some w =>
        rw [hd, hw] at hrel
        cases hrel
      | none =>
        rw [lookup_cons_of_childless hd, lookup_cons_of_childless hw, hcon.isAtomic_eq]
        refine .inr ⟨fun m => ?_, rfl⟩
        split <;> simp
    | some d =>
      obtain ⟨w, hw, hget⟩ := exists_of_rel (hd ▸ hrel)
      rw [lookup_cons_of_child hd, lookup_cons_of_child hw,
        ← hs.lookup_congr (hs.resolve_resolve d)]
      refine ih hget fun q f' r m s' hp hm => hkept (f :: q) f' r m s' (by rw [hp]; rfl) ?_
      rw [lookup_cons_of_child hd, ← hs.lookup_congr (hs.resolve_resolve d), hm]

theorem lookup (hs : source.Settled) (hall : ∀ s k, met s k → s = .everything)
    (hk : c.copies.get? k = some v) :
    (∃ m w, source.lookup k p = .found m ∧ c.target.lookup v p = .found w ∧
      c.copies.get? m = some w) ∨
    (∀ m, source.lookup k p ≠ .found m) ∧ c.target.lookup v p = source.lookup k p := by
  refine hc.lookup_of_kept hs hk fun q f r m s _ _ hmet => ?_
  rw [hall s m hmet]
  rfl

theorem exists_lookup (hs : source.Settled) (hall : ∀ s k, met s k → s = .everything)
    (hk : c.copies.get? k = some v) (hl : source.lookup k p = .found m) :
    ∃ w, c.target.lookup v p = .found w ∧ c.copies.get? m = some w := by
  rcases hc.lookup hs hall hk (p := p) with ⟨m', w, hm', hw, hget⟩ | ⟨hno, -⟩
  · cases hl.symm.trans hm'
    exact ⟨w, hw, hget⟩
  · exact absurd hl (hno m)

/-! ## The target -/

theorem view_old (hb : base.Settled) (hn : n < base.size) :
    c.target.resolve n = base.resolve n ∧ c.target.content n = base.content n := by
  obtain ⟨l, m, hl⟩ := hb n hn
  obtain ⟨content, hcell⟩ := hl.holds
  have hres := (hc.chain hl).resolve
  refine ⟨hres.trans hl.resolve.symm, ?_⟩
  rw [Arena.content, Arena.content, hres, hl.resolve, hc.old (Chain.stop hcell).lt]

theorem child?_old (hb : base.Settled) (hn : n < base.size) :
    c.target.child? n f = base.child? n f := by
  rw [child?_eq, child?_eq, (hc.view_old hb hn).2]

theorem wellFormed (hs : source.WellFormed) (hb : base.WellFormed) : c.target.WellFormed := by
  refine ⟨hc.settled hb.settled, fun {n f d} hd => ?_, fun {n children} hn => ?_⟩
  · rcases Nat.lt_or_ge n base.size with hlt | hge
    · rw [hc.child?_old hb.settled hlt] at hd
      exact Nat.lt_of_lt_of_le (hb.child_lt hd) hc.size_le
    · obtain ⟨k, hk⟩ := hc.onto hge (lt_of_child hd)
      obtain ⟨-, -, s, -, hcon⟩ := hc.isCopy hk
      rw [child?_eq] at hd
      obtain ⟨e, -, hget⟩ := exists_of_rel_some (hd ▸ hcon.child f)
      exact (hc.range hget).2
  · rcases Nat.lt_or_ge n base.size with hlt | hge
    · rw [(hc.view_old hb.settled hlt).2] at hn
      obtain ⟨f, d, hd⟩ := hb.child_of_complex hn
      exact ⟨f, d, (hc.child?_old hb.settled hlt).trans hd⟩
    · have hlt : n < c.target.size := by
        refine Nat.lt_of_not_le fun hle => ?_
        rw [content_of_size_le hle] at hn
        cases hn
      obtain ⟨k, hk⟩ := hc.onto hge hlt
      obtain ⟨-, -, s, -, hcon⟩ := hc.isCopy hk
      obtain ⟨f, d, hd⟩ := hcon.exists_child hs (by rw [hn]; rfl)
      obtain ⟨w, hw, -⟩ := exists_of_rel (hd ▸ hcon.child f)
      exact ⟨f, w, (child?_eq ..).trans hw⟩

theorem grows (hb : base.Settled) : base.Grows c.target := by
  have hlt : ∀ {n}, base.content n ≠ .empty → n < base.size :=
    fun hn => Nat.lt_of_not_le fun hle => hn (content_of_size_le hle)
  refine ⟨hc.size_le, fun n => ?_, fun {n a} ha => ?_, fun {n d f} hd => ?_⟩
  · rcases Nat.lt_or_ge n base.size with h | h
    · rw [(hc.view_old hb h).1, (hc.view_old hb (hb.resolve_lt h)).1, hb.resolve_resolve]
    · rw [resolve_of_size_le h]
  · rw [(hc.view_old hb (hlt (by simp [ha]))).2, ha]
  · exact ⟨d, (hc.child?_old hb (lt_of_child hd)).trans hd, rfl⟩

/-- Copies stand for what their sources stand for. -/
theorem denotes {A : FeatureAlgebra} {den den' : NodeId → A.Point → Prop}
    (hd : source.Denotes A den) (hs : base.Settled) (hb : base.Denotes A den') :
    c.target.Denotes A fun v x => den' v x ∨ ∃ k, c.copies.get? k = some v ∧ den k x := by
  have hold : ∀ {v x k}, den' v x → c.copies.get? k ≠ some v := by
    intro v x k hv hk
    exact absurd (hb.lt hv) (Nat.not_lt.2 (hc.range hk).1)
  refine ⟨?_, ?_, ?_, ?_, ?_⟩
  · rintro v x (hv | ⟨k, hk, -⟩)
    · exact Nat.lt_of_lt_of_le (hb.lt hv) hc.size_le
    · exact (hc.range hk).2
  · rintro v x y (hx | ⟨k, hk, hx⟩) (hy | ⟨k', hk', hy⟩)
    · exact hb.unique hx hy
    · exact absurd hk' (hold hx)
    · exact absurd hk (hold hy)
    · cases hc.injective hk hk'
      exact hd.unique hx hy
  · rintro v x (hv | ⟨k, hk, hx⟩)
    · rw [(hc.view_old hs (hb.lt hv)).1]
      exact .inl (hb.resolve hv)
    · rw [(hc.isCopy hk).1]
      exact .inr ⟨k, hk, hx⟩
  · rintro v w x f (hv | ⟨k, hk, hx⟩) hw
    · rw [hc.child?_old hs (hb.lt hv)] at hw
      obtain ⟨y, hy, hden⟩ := hb.child hv hw
      exact ⟨y, hy, .inl hden⟩
    · obtain ⟨-, -, s, -, hcon⟩ := hc.isCopy hk
      rw [child?_eq] at hw
      obtain ⟨d, hf, hget⟩ := exists_of_rel_some (hw ▸ hcon.child f)
      obtain ⟨y, hy, hden⟩ := hd.child hx (Selection.child?_eq_some.1 hf).2
      exact ⟨y, hy, .inr ⟨_, hget, hd.resolve hden⟩⟩
  · rintro v x a (hv | ⟨k, hk, hx⟩) ha
    · rw [(hc.view_old hs (hb.lt hv)).2] at ha
      exact hb.atom hv ha
    · obtain ⟨-, -, s, -, hcon⟩ := hc.isCopy hk
      exact hd.atom hx ((hcon.atom a).1 ha)

end Mirrors

/-! ## Copies of everything -/

/-- Whatever one of the nodes reaches is met, and copied as it is. -/
def MetFrom (source : Arena) (ns : List NodeId) (s : Selection) (k : NodeId) : Prop :=
  s = .everything ∧ ∃ n ∈ ns, source.Reaches n k

section MetFrom
variable {given : Content → Prop} {ns : List NodeId}

theorem MetFrom.below (hs : source.Settled) {below : Selection} {d : NodeId}
    (hmet : MetFrom source ns s k) (hbelow : s.below? f = some below)
    (hd : source.child? k f = some d) : MetFrom source ns below (source.resolve d) := by
  obtain ⟨rfl, n, hn, hreach⟩ := hmet
  cases hbelow
  obtain ⟨p, hp⟩ := hreach.child hs hd
  exact ⟨rfl, n, hn, p, by rw [hs.resolve_resolve, hp]⟩

theorem copy_takes (hs : source.Sound given) (hn : n < source.size) (hg : source.Grounded n)
    (hmem : n ∈ ns) (hc : Mirrors source base (MetFrom source ns) c) :
    Takes source base (MetFrom source ns) n c (c.copy source n) :=
  copyWithin_mirrors hs.settled (fun hmet hbelow hd => hmet.below hs.settled hbelow hd)
    (fun _ _ => hg.length_lt hs hn) hg ⟨rfl, n, hmem, .self hs.settled n⟩ hc

end MetFrom

end Copying

end FeatureLogic
