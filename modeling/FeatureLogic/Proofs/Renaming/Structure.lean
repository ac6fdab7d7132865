import FeatureLogic.Proofs.Renaming.Facts
import FeatureLogic.Proofs.Structure.Merging
/-!
Structures under new names: the nodes stay where they are, the features on the edges and the atoms
are replaced. The edges of a node may then stand in another order.
-/
set_option autoImplicit false

namespace FeatureLogic

variable {ρ : Renaming}

namespace Content

def rename (c : Content) (ρ : Renaming) : Content :=
  match c with
  | empty => empty
  | atom a => atom (ρ.atom a)
  | complex children => complex (children.mapKeys ρ.feature)

theorem rename_eq_atom {c : Content} {b : Atom} :
    c.rename ρ = atom b ↔ ∃ a, ρ.atom a = b ∧ c = atom a := by
  cases c <;> simp [rename]

theorem rename_eq_complex {c : Content} {children : SortedMap Feature NodeId} :
    c.rename ρ = complex children ↔ ∃ own, own.mapKeys ρ.feature = children ∧ c = complex own := by
  cases c <;> simp [rename]

theorem child?_rename_eq_some_iff {c : Content} {f : Feature} {n : NodeId} :
    (c.rename ρ).child? f = some n ↔ ∃ g, ρ.feature g = f ∧ c.child? g = some n := by
  cases c with
  | empty => simp [rename, child?]
  | atom a => simp [rename, child?]
  | complex children => exact SortedMap.get?_mapKeys_eq_some_iff ρ.feature_injective

end Content

def Cell.rename (c : Cell) (ρ : Renaming) : Cell :=
  match c with
  | holds content => holds (content.rename ρ)
  | forwards target => forwards target

namespace Arena

def rename (g : Arena) (ρ : Renaming) : Arena := ⟨g.cells.map (Cell.rename · ρ)⟩

variable {g : Arena} {n m : NodeId} {k : Nat} {f : Feature} {p : Path} {a : Atom} {roots : Roots}

@[simp] theorem size_rename (g : Arena) : (g.rename ρ).size = g.size := by simp [rename, size]

theorem getElem?_rename (g : Arena) (n : NodeId) :
    (g.rename ρ).cells[n]? = g.cells[n]?.map (Cell.rename · ρ) := by simp [rename]

@[simp] theorem resolve_rename (g : Arena) (n : NodeId) : (g.rename ρ).resolve n = g.resolve n := by
  have hfollow : ∀ k n, (g.rename ρ).follow k n = g.follow k n := by
    intro k
    induction k with
    | zero => exact fun _ => rfl
    | succ k ih =>
      intro n
      rw [follow, follow, getElem?_rename]
      rcases g.cells[n]? with _ | _ | next
      · rfl
      · rfl
      · exact ih next
  rw [resolve, resolve, size_rename, hfollow]

@[simp] theorem content_rename (g : Arena) (n : NodeId) :
    (g.rename ρ).content n = (g.content n).rename ρ := by
  rw [content, content, resolve_rename, getElem?_rename]
  rcases g.cells[g.resolve n]? with _ | _ | _ <;> rfl

theorem child?_rename_eq_some_iff : (g.rename ρ).child? n f = some m ↔
    ∃ h, ρ.feature h = f ∧ g.child? n h = some m := by
  simp only [child?_eq, content_rename, Content.child?_rename_eq_some_iff]

theorem lookup_rename_eq_found : (g.rename ρ).lookup n p = .found m ↔
    ∃ q, ρ.path q = p ∧ g.lookup n q = .found m := by
  induction p generalizing n with
  | nil => simp [lookup, Renaming.path]
  | cons f p ih =>
    rw [lookup_cons_eq_found]
    constructor
    · rintro ⟨c, hc, hl⟩
      obtain ⟨h, rfl, hchild⟩ := child?_rename_eq_some_iff.1 hc
      obtain ⟨q, rfl, hrest⟩ := ih.1 hl
      exact ⟨h :: q, rfl, lookup_cons_eq_found.2 ⟨c, hchild, hrest⟩⟩
    · rintro ⟨q, hq, hl⟩
      obtain ⟨h, q, rfl, rfl, rfl⟩ := List.map_eq_cons_iff.1 hq
      obtain ⟨c, hc, hl⟩ := lookup_cons_eq_found.1 hl
      exact ⟨c, child?_rename_eq_some_iff.2 ⟨h, rfl, hc⟩, ih.2 ⟨q, rfl, hl⟩⟩

theorem Chain.rename (h : g.Chain k n m) : (g.rename ρ).Chain k n m := by
  induction h with
  | stop hc => exact .stop (by rw [getElem?_rename, hc]; rfl)
  | step hf _ ih => exact .step (by rw [getElem?_rename, hf]; rfl) ih

theorem WellFormed.rename (hg : g.WellFormed) : (g.rename ρ).WellFormed where
  settled n hn := by
    obtain ⟨k, m, hchain⟩ := hg.settled n (by simpa using hn)
    exact ⟨k, m, hchain.rename⟩
  child_lt hc := by
    obtain ⟨h, -, hc⟩ := child?_rename_eq_some_iff.1 hc
    simpa using hg.child_lt hc
  child_of_complex hc := by
    rw [content_rename] at hc
    obtain ⟨own, -, hc⟩ := Content.rename_eq_complex.1 hc
    obtain ⟨h, c, hchild⟩ := hg.child_of_complex hc
    exact ⟨_, c, child?_rename_eq_some_iff.2 ⟨h, rfl, hchild⟩⟩

theorem leads_rename {t : PathTerm} : (g.rename ρ).Leads roots t n ↔
    ∃ u, ρ.term u = t ∧ g.Leads roots u n := by
  constructor
  · rintro ⟨root, hroot, hl⟩
    obtain ⟨q, hq, hl⟩ := lookup_rename_eq_found.1 hl
    exact ⟨⟨t.slot, q⟩, congrArg (PathTerm.mk t.slot) hq, root, hroot, hl⟩
  · rintro ⟨u, rfl, root, hroot, hl⟩
    exact ⟨root, hroot, lookup_rename_eq_found.2 ⟨u.path, rfl, hl⟩⟩

theorem facts_rename (g : Arena) (roots : Roots) :
    (g.rename ρ).facts roots = (g.facts roots).rename ρ := by
  ext t u
  · constructor
    · rintro ⟨n, ht, hu⟩
      obtain ⟨t', rfl, ht'⟩ := leads_rename.1 ht
      obtain ⟨u', rfl, hu'⟩ := leads_rename.1 hu
      exact ⟨t', u', ⟨n, ht', hu'⟩, rfl, rfl⟩
    · rintro ⟨t, u, ⟨n, ht, hu⟩, rfl, rfl⟩
      exact ⟨n, leads_rename.2 ⟨t, rfl, ht⟩, leads_rename.2 ⟨u, rfl, hu⟩⟩
  · constructor
    · rintro ⟨n, ht, ha⟩
      obtain ⟨t', rfl, ht'⟩ := leads_rename.1 ht
      rw [content_rename] at ha
      obtain ⟨a', rfl, ha'⟩ := Content.rename_eq_atom.1 ha
      exact ⟨t', a', ⟨n, ht', ha'⟩, rfl, rfl⟩
    · rintro ⟨t, a, ⟨n, ht, ha⟩, rfl, rfl⟩
      refine ⟨n, leads_rename.2 ⟨t, rfl, ht⟩, ?_⟩
      rw [content_rename, ha]
      rfl

end Arena

namespace FeatureStructure

def rename (s : FeatureStructure) (ρ : Renaming) : FeatureStructure := ⟨s.arena.rename ρ, s.root⟩

variable {s : FeatureStructure}

theorem WellFormed.rename (hs : s.WellFormed) : (s.rename ρ).WellFormed :=
  ⟨hs.arena.rename, by simpa [FeatureStructure.rename] using hs.root_lt⟩

theorem factsAt_rename (s : FeatureStructure) (i : SlotIndex) :
    (s.rename ρ).factsAt i = (s.factsAt i).rename ρ :=
  Arena.facts_rename s.arena _

end FeatureStructure

end FeatureLogic
