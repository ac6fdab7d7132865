import FeatureLogic.Proofs.FeatureTree
import FeatureLogic.Proofs.Structure.Description
import FeatureLogic.Proofs.Structure.Feasibility
/-!
Selected branches. A node is copied once, with the branch of the tree that is met at it first. So just
what the tree has is kept if, wherever the tree has two paths to one node, it goes on from them alike.
-/
set_option autoImplicit false

namespace FeatureLogic

open Arena

namespace Copying

variable {source : Arena} {n : NodeId} {t : FeatureTree} {s s' : Selection}

theorem copyChildren_congr {copy copy' : Selection → NodeId → Copying → NodeId × Copying}
    {es : List (Feature × NodeId)}
    (h : ∀ e ∈ es, ∃ below below', s.below? e.1 = some below ∧ s'.below? e.1 = some below' ∧
      ∀ c, copy below e.2 c = copy' below' e.2 c) (c : Copying) :
    copyChildren copy s es c = copyChildren copy' s' es c := by
  induction es generalizing c with
  | nil => rfl
  | cons e es ih =>
    obtain ⟨⟨below, below', hbelow, hbelow', hcopy⟩, hes⟩ := List.forall_mem_cons.1 h
    simp only [copyChildren, hbelow, hbelow', hcopy, ih hes]

/-- A tree that has all paths down from a node leaves nothing out. -/
theorem copyWithin_named (hs : source.WellFormed) (depth : Nat)
    (hcover : ∀ p m, source.lookup n p = .found m → t.contains p = true) (c : Copying) :
    copyWithin source depth (.named t) n c = copyWithin source depth .everything n c := by
  induction depth generalizing n t c with
  | zero => rfl
  | succ depth ih =>
    have hr := hs.settled.resolve_resolve n
    rw [copyWithin, copyWithin]
    dsimp only
    split
    · rfl
    · cases hcon : source.content (source.resolve n) with
      | empty | atom => rfl
      | complex children =>
        have hkids : ∀ c, copyChildren (copyWithin source depth) (.named t) children.entries c =
            copyChildren (copyWithin source depth) .everything children.entries c := by
          refine copyChildren_congr fun e he => ?_
          have hchild : source.child? n e.1 = some e.2 :=
            hs.settled.child?_congr hr e.1 ▸ mem_children_iff.1 (hcon ▸ he)
          have hpath : ∀ p m, source.lookup e.2 p = .found m → t.contains (e.1 :: p) = true :=
            fun p m hp => hcover _ m ((lookup_cons_of_child hchild p).trans hp)
          obtain ⟨u, hu⟩ : ∃ u, t.child? e.1 = some u := by
            have hhead := hpath [] _ rfl
            rw [FeatureTree.contains_cons] at hhead
            cases hu : t.child? e.1 with
            | none => simp [hu] at hhead
            | some u => exact ⟨u, rfl⟩
          refine ⟨.named u, .everything, by rw [Selection.below?, hu]; rfl, rfl, ih fun p m hp => ?_⟩
          have hrest := hpath p m hp
          rwa [FeatureTree.contains_cons, hu] at hrest
        have hkept : ∀ c, (copyChildren (copyWithin source depth) .everything children.entries c).1 ≠
            [] := by
          intro c hnil
          obtain ⟨f, d, hd⟩ := hs.child_of_complex hcon
          have he := (mem_children_iff (e := (f, d))).2 hd
          rw [hcon, Content.children, copyChildren_eq_nil hnil] at he
          cases he
        have hcontent : ∀ kept, kept ≠ [] → (Selection.named t).content kept =
            Selection.everything.content kept := by
          rintro (_ | ⟨e, es⟩) hne
          · exact absurd rfl hne
          · rfl
        simp only [hkids, hcontent _ (hkept c)]

end Copying

namespace FeatureStructure

open Copying (Mirrors IsCopy)

variable {s u : FeatureStructure} {tree t : FeatureTree} {p q : Path} {f : Feature} {n m : NodeId}
  {c : Copying}

/-- From all paths to its leaves a structure is copied as a whole. -/
theorem select_leaves (hs : s.WellFormed) (hA : s.arena.Grounded s.root) :
    s.select (.ofPaths (s.leaves.map (·.1))) = s.compact := by
  have hcover : ∀ p m, s.arena.lookup s.root p = .found m →
      (FeatureTree.ofPaths (s.leaves.map (·.1))).contains p = true := by
    intro p m hp
    obtain ⟨q, a, hq⟩ := exists_leaf hs (acyclic_factsAt hs.arena.settled hA 0) hp
    rw [FeatureTree.contains_ofPaths]
    exact .inr ⟨p ++ q, List.mem_map_of_mem hq, List.prefix_append p q⟩
  simp only [select, compact, Copying.copy, Copying.select, Copying.copyWithin_named hs.arena _ hcover]

/-! ## What is met -/

/-- The selection at the end of a path to `n`. -/
def Met (s : FeatureStructure) (tree : FeatureTree) (sel : Selection) (n : NodeId) : Prop :=
  ∃ p t, s.arena.lookup s.root p = .found n ∧ tree.subtree? p = some t ∧ sel = .named t

/-- The copies from which a selection is read. -/
structure SelectedBy (s : FeatureStructure) (tree : FeatureTree) (c : Copying) : Prop where
  mirrors : Mirrors s.arena .empty (s.Met tree) c
  arena : (s.select tree).arena = c.target
  root : c.copies.get? (s.arena.resolve s.root) = some (s.select tree).root

theorem exists_selectedBy (hs : s.WellFormed) (hA : s.arena.Grounded s.root) (tree : FeatureTree) :
    ∃ c, s.SelectedBy tree c := by
  have hset := hs.arena.settled
  have htakes : Copying.Takes s.arena .empty (s.Met tree) s.root (.start .empty)
      ((Copying.start .empty).select s.arena (.named tree) s.root) := by
    refine Copying.copyWithin_mirrors hset ?_
      (fun _ _ => hA.length_lt (.of_wellFormed hs.arena) hs.root_lt) hA
      ⟨[], tree, rfl, tree.subtree?_nil, rfl⟩ (.start s.arena .empty _)
    rintro _ k f below d ⟨p, t, hp, ht, rfl⟩ hbelow hd
    obtain ⟨u, hu, rfl⟩ := Option.map_eq_some_iff.1 hbelow
    refine ⟨p ++ [f], u, ?_, (FeatureTree.subtree?_child ht f).trans hu, rfl⟩
    rw [hset.lookup_append hp, lookup_cons_of_child hd, Arena.lookup]
  exact ⟨_, htakes.mirrors, rfl, htakes.copied⟩

/-- Where the tree has two paths to one node, it has the same features there, as far as the node does. -/
def Agrees (s : FeatureStructure) (tree : FeatureTree) : Prop :=
  ∀ p q f, s.coindexed p q = true → tree.contains p = true → tree.contains q = true →
    (∃ u, s.lookup (p ++ [f]) = .found u) → tree.contains (p ++ [f]) = tree.contains (q ++ [f])

section Selected
variable (hs : s.WellFormed) (hsel : s.SelectedBy tree c)
include hs hsel

namespace SelectedBy

omit hs in
theorem settled : (s.select tree).arena.Settled :=
  hsel.arena ▸ hsel.mirrors.settled WellFormed.empty.settled

theorem of_lookup {w : NodeId} (hl : (s.select tree).arena.lookup (s.select tree).root p = .found w) :
    ∃ m, s.arena.lookup s.root p = .found m ∧ c.copies.get? m = some w := by
  have hset := hs.arena.settled
  rw [hsel.arena] at hl
  obtain ⟨m, hm, hget⟩ := hsel.mirrors.of_lookup hset hsel.root hl
  exact ⟨m, hset.lookup_congr (hset.resolve_resolve s.root) p ▸ hm, hget⟩

omit hs in
/-- A copy is made of what the tree has after some path to the node. -/
theorem isCopy {w : NodeId} (hk : c.copies.get? n = some w) : ∃ q t,
    s.arena.lookup s.root q = .found n ∧ tree.subtree? q = some t ∧
    IsCopy s.arena c.copies (.named t) n ((s.select tree).arena.content w) := by
  obtain ⟨-, -, _, ⟨q, t, hq, ht, rfl⟩, hcon⟩ := hsel.mirrors.isCopy hk
  exact ⟨q, t, hq, ht, hsel.arena ▸ hcon⟩

variable (hagree : s.Agrees tree)
include hagree

/-- What is kept is in the tree. -/
theorem contains_of_lookup {w : NodeId}
    (hl : (s.select tree).arena.lookup (s.select tree).root p = .found w) :
    tree.contains p = true := by
  induction p using List.reverseRecOn generalizing w with
  | nil => exact tree.contains_nil
  | append_singleton r f ih =>
    obtain ⟨v, hv⟩ := lookup_prefix hl
    obtain ⟨n, hn, hcopy⟩ := hsel.of_lookup hs hv
    obtain ⟨m, hm, -⟩ := hsel.of_lookup hs hl
    rw [hsel.settled.lookup_append hv] at hl
    obtain ⟨x, hx, -⟩ := lookup_cons_eq_found.1 hl
    obtain ⟨q, t, hq, ht, hcon⟩ := hsel.isCopy hcopy
    rw [child?_eq] at hx
    obtain ⟨d, hd, -⟩ := Copying.exists_of_rel_some (hx ▸ hcon.child f)
    have hkeeps := (Selection.child?_eq_some.1 hd).1
    rw [hagree r q f (coindexed_iff.2 ⟨n, hn, hq⟩) (ih hv) (by rw [tree.contains_eq, ht]; rfl)
      ⟨_, lookup_eq_found.2 ⟨m, hm, rfl⟩⟩, FeatureTree.contains_child ht]
    simpa [Selection.keeps, Selection.below?] using hkeeps

/-- What is in the tree is kept. -/
theorem lookup_of_contains (hl : s.arena.lookup s.root p = .found n) (hp : tree.contains p = true) :
    ∃ w, (s.select tree).arena.lookup (s.select tree).root p = .found w ∧
      c.copies.get? n = some w := by
  have hset := hs.arena.settled
  have hroot : ∀ p, s.arena.lookup (s.arena.resolve s.root) p = s.arena.lookup s.root p :=
    hset.lookup_congr (hset.resolve_resolve s.root)
  have hkept := hsel.mirrors.lookup_of_kept hset hsel.root (p := p) ?_
  · rw [hroot, ← hsel.arena] at hkept
    rcases hkept with ⟨m, w, hm, hw, hget⟩ | ⟨hno, -⟩
    · cases hl.symm.trans hm
      exact ⟨w, hw, hget⟩
    · exact absurd hl (hno n)
  · rintro q f r m _ rfl hq ⟨q', t, hq', ht, rfl⟩
    rw [hroot] at hq
    have hstep : q ++ f :: r = (q ++ [f]) ++ r := by simp
    rw [hstep] at hl hp
    obtain ⟨k, hk⟩ := lookup_prefix hl
    have hsame := hagree q q' f (coindexed_iff.2 ⟨m, hq, hq'⟩)
      (FeatureTree.contains_of_append (FeatureTree.contains_of_append hp))
      (by rw [tree.contains_eq, ht]; rfl) ⟨_, lookup_eq_found.2 ⟨k, hk, rfl⟩⟩
    rw [FeatureTree.contains_of_append hp, FeatureTree.contains_child ht] at hsame
    simpa [Selection.keeps, Selection.below?] using hsame.symm

end SelectedBy

end Selected

/-! ## What is kept -/

/-- The paths that the structure and the tree both have, with the atoms at them, and no others. -/
structure SelectsExactly (s : FeatureStructure) (tree : FeatureTree) : Prop where
  path (p : Path) : (∃ v, (s.select tree).lookup p = .found v) ↔
    (∃ u, s.lookup p = .found u) ∧ tree.contains p = true
  atom {p : Path} {u : FeatureStructure} {a : Atom} : tree.contains p = true →
    s.lookup p = .found u → u.content = .atom a →
    ∃ v, (s.select tree).lookup p = .found v ∧ v.content = .atom a

/-- Wherever the tree has two paths to one node, it has the same branch there. -/
def SameBranches (s : FeatureStructure) (tree : FeatureTree) : Prop :=
  ∀ p q, s.coindexed p q = true → tree.contains p = true → tree.contains q = true →
    tree.subtree? p = tree.subtree? q

theorem SameBranches.agrees (h : s.SameBranches tree) : s.Agrees tree := by
  intro p q f hpq hp hq _
  have hbranch := h p q hpq hp hq
  rw [tree.contains_eq] at hp
  obtain ⟨t, ht⟩ := Option.isSome_iff_exists.1 hp
  rw [FeatureTree.contains_child ht, FeatureTree.contains_child (hbranch ▸ ht)]

theorem SameBranches.of_inits {ps : List Path}
    (h : ∀ p ∈ [] :: ps.flatMap List.inits, ∀ q ∈ [] :: ps.flatMap List.inits,
      s.coindexed p q = true →
      (FeatureTree.ofPaths ps).subtree? p = (FeatureTree.ofPaths ps).subtree? q) :
    s.SameBranches (.ofPaths ps) := fun p q hpq hp hq =>
  h p (FeatureTree.mem_inits_of_contains hp) q (FeatureTree.mem_inits_of_contains hq) hpq

/-- Just what the tree has is kept exactly if it has nodes with the same features wherever it meets
them. -/
theorem select_exact_iff (hs : s.WellFormed) (hA : s.arena.Grounded s.root) (tree : FeatureTree) :
    s.SelectsExactly tree ↔ s.Agrees tree := by
  have hset := hs.arena.settled
  obtain ⟨c, hsel⟩ := exists_selectedBy hs hA tree
  constructor
  · intro hexact p q f hpq hp hq ⟨u, hu⟩
    obtain ⟨n, hn, hn'⟩ := coindexed_iff.1 hpq
    obtain ⟨m, hm, -⟩ := lookup_eq_found.1 hu
    rw [hset.lookup_append hn] at hm
    have hcopy : ∀ {r}, s.arena.lookup s.root r = .found n → tree.contains r = true →
        ∃ w, (s.select tree).arena.lookup (s.select tree).root r = .found w ∧
          c.copies.get? n = some w := by
      intro r hr hcontains
      obtain ⟨v, hv⟩ := (hexact.path r).2 ⟨⟨_, lookup_eq_found.2 ⟨n, hr, rfl⟩⟩, hcontains⟩
      obtain ⟨w, hw, -⟩ := lookup_eq_found.1 hv
      obtain ⟨n', hn', hget⟩ := hsel.of_lookup hs hw
      cases hr.symm.trans hn'
      exact ⟨w, hw, hget⟩
    -- whether the copy of the node has the feature does not depend on the path to it
    have hchild : ∀ {r w}, s.arena.lookup s.root r = .found n →
        (s.select tree).arena.lookup (s.select tree).root r = .found w →
        (tree.contains (r ++ [f]) = true ↔ ∃ x, (s.select tree).arena.lookup w [f] = .found x) := by
      intro r w hr hw
      have hstep := hexact.path (r ++ [f])
      simp only [lookup_eq_found, hset.lookup_append hr, hsel.settled.lookup_append hw] at hstep
      constructor
      · intro hcontains
        obtain ⟨v, x, hx, -⟩ := hstep.2 ⟨⟨_, m, hm, rfl⟩, hcontains⟩
        exact ⟨x, hx⟩
      · rintro ⟨x, hx⟩
        exact (hstep.1 ⟨_, x, hx, rfl⟩).2
    obtain ⟨w, hw, hget⟩ := hcopy hn hp
    obtain ⟨w', hw', hget'⟩ := hcopy hn' hq
    cases hget.symm.trans hget'
    rw [Bool.eq_iff_iff, hchild hn hw, hchild hn' hw']
  · intro hagree
    refine ⟨fun p => ⟨?_, ?_⟩, fun {p u a} hp hu ha => ?_⟩
    · rintro ⟨v, hv⟩
      obtain ⟨w, hw, -⟩ := lookup_eq_found.1 hv
      obtain ⟨m, hm, -⟩ := hsel.of_lookup hs hw
      exact ⟨⟨_, lookup_eq_found.2 ⟨m, hm, rfl⟩⟩, hsel.contains_of_lookup hs hagree hw⟩
    · rintro ⟨⟨u, hu⟩, hp⟩
      obtain ⟨n, hn, -⟩ := lookup_eq_found.1 hu
      obtain ⟨w, hw, -⟩ := hsel.lookup_of_contains hs hagree hn hp
      exact ⟨_, lookup_eq_found.2 ⟨w, hw, rfl⟩⟩
    · obtain ⟨n, hn, rfl⟩ := lookup_eq_found.1 hu
      obtain ⟨w, hw, hget⟩ := hsel.lookup_of_contains hs hagree hn hp
      obtain ⟨q, t, -, -, hcon⟩ := hsel.isCopy hget
      refine ⟨_, lookup_eq_found.2 ⟨w, hw, rfl⟩, ?_⟩
      rw [content, below, hset.content_resolve] at ha
      rw [content, below, hsel.settled.content_resolve]
      exact (hcon.atom a).2 ha

/-- Features 1 and 2 lead to one node, below which there is an atom under 3. -/
def joined : Description := ⟨[([⟨1⟩, ⟨3⟩], ⟨1⟩)], [([⟨1⟩], [⟨2⟩])]⟩

theorem joined_grounded (hs : ofDescription joined = .ok s) :
    s.WellFormed ∧ s.arena.Grounded s.root := by
  have hsound : s.Sound fun _ => False := sound_ofDescription hs
  refine ⟨⟨hsound.arena.wellFormed id, hsound.root_lt⟩, Acyclic.grounded hsound.arena ?_ _⟩
  cases hs
  exact acyclic_of_level id (by decide +kernel) (by decide +kernel)

theorem select_exact_iff_joined : ∃ s, ofDescription joined = .ok s ∧
    s.SelectsExactly (.ofPaths [[⟨1⟩, ⟨3⟩], [⟨2⟩, ⟨3⟩]]) := by
  obtain ⟨s, hs⟩ : ∃ s, ofDescription joined = .ok s := ⟨_, rfl⟩
  obtain ⟨hwf, hA⟩ := joined_grounded hs
  refine ⟨s, hs, (select_exact_iff hwf hA _).2 (SameBranches.agrees (.of_inits ?_))⟩
  cases hs
  decide +kernel

/-- With the node met after the first feature, what the tree has after the second is lost. -/
theorem select_inexact : ∃ s, ofDescription joined = .ok s ∧
    ¬ s.SelectsExactly (.ofPaths [[⟨1⟩], [⟨2⟩, ⟨3⟩]]) := by
  obtain ⟨s, hs⟩ : ∃ s, ofDescription joined = .ok s := ⟨_, rfl⟩
  refine ⟨s, hs, fun h => ?_⟩
  cases hs
  obtain ⟨v, hv⟩ := (h.path [⟨2⟩, ⟨3⟩]).2 ⟨⟨_, rfl⟩, by decide⟩
  cases hv

/-- What is kept of a structure that the tree meets with the same branches goes on being shared, and a
node keeps the features that the tree has, or becomes empty. From all its paths it is kept as a whole. -/
theorem select_shares (hs : s.WellFormed) (hA : s.arena.Grounded s.root) (tree : FeatureTree) :
    (s.SameBranches tree →
      (∀ p q, tree.contains p = true → tree.contains q = true →
        (s.select tree).coindexed p q = s.coindexed p q) ∧
      ∀ p u, tree.contains p = true → s.lookup p = .found u →
        ∃ v, (s.select tree).lookup p = .found v ∧
          v.features = u.features.filter (fun f => tree.contains (p ++ [f])) ∧
          v.content.shape = match u.content.shape with
            | .complex => if v.features = [] then .empty else .complex
            | shape => shape) ∧
      s.select (.ofPaths (s.leaves.map (·.1))) = s.compact := by
  have hset := hs.arena.settled
  obtain ⟨c, hsel⟩ := exists_selectedBy hs hA tree
  refine ⟨fun hbranch => ⟨fun p q hp hq => ?_, fun p u hp hu => ?_⟩, select_leaves hs hA⟩
  · have hagree := hbranch.agrees
    rw [Bool.eq_iff_iff, coindexed_iff, coindexed_iff]
    constructor
    · rintro ⟨w, hw, hw'⟩
      obtain ⟨n, hn, hget⟩ := hsel.of_lookup hs hw
      obtain ⟨n', hn', hget'⟩ := hsel.of_lookup hs hw'
      obtain rfl := hsel.mirrors.injective hget hget'
      exact ⟨n, hn, hn'⟩
    · rintro ⟨n, hn, hn'⟩
      obtain ⟨w, hw, hget⟩ := hsel.lookup_of_contains hs hagree hn hp
      obtain ⟨w', hw', hget'⟩ := hsel.lookup_of_contains hs hagree hn' hq
      cases hget.symm.trans hget'
      exact ⟨w, hw, hw'⟩
  · obtain ⟨n, hn, rfl⟩ := lookup_eq_found.1 hu
    obtain ⟨w, hw, hget⟩ := hsel.lookup_of_contains hs hbranch.agrees hn hp
    obtain ⟨q, t, hq, ht, hcon⟩ := hsel.isCopy hget
    have hpt : tree.subtree? p = some t :=
      (hbranch p q (coindexed_iff.2 ⟨n, hn, hq⟩) hp (by rw [tree.contains_eq, ht]; rfl)).trans ht
    refine ⟨_, lookup_eq_found.2 ⟨w, hw, rfl⟩, ?_⟩
    simp only [features, content, below, hset.content_resolve, hsel.settled.content_resolve]
    refine ⟨?_, hcon.shape_named⟩
    rw [hcon.features_eq]
    congr 1
    funext f
    simp [Selection.keeps, Selection.below?, FeatureTree.contains_child hpt]

/-- The node that is shared becomes empty, and is shared still. -/
theorem select_shares_joined : ∃ s u v, ofDescription joined = .ok s ∧
    (s.select (.ofPaths [[⟨1⟩], [⟨2⟩]])).coindexed [⟨1⟩] [⟨2⟩] = true ∧
    s.lookup [⟨1⟩] = .found u ∧ u.content.shape = .complex ∧
    (s.select (.ofPaths [[⟨1⟩], [⟨2⟩]])).lookup [⟨1⟩] = .found v ∧ v.content.shape = .empty ∧
    s.select (.ofPaths (s.leaves.map (·.1))) = s.compact := by
  obtain ⟨s, hs⟩ : ∃ s, ofDescription joined = .ok s := ⟨_, rfl⟩
  obtain ⟨hwf, hA⟩ := joined_grounded hs
  obtain ⟨hkeeps, hall⟩ := select_shares hwf hA (.ofPaths [[⟨1⟩], [⟨2⟩]])
  cases hs
  obtain ⟨hshared, hnode⟩ := hkeeps (.of_inits (by decide +kernel))
  obtain ⟨v, hv, hfeatures, hshape⟩ := hnode [⟨1⟩] _ (by decide) rfl
  refine ⟨_, _, v, rfl, hshared _ _ (by decide) (by decide), rfl, rfl, hv, ?_, hall⟩
  rw [hshape, hfeatures]
  rfl

end FeatureStructure

end FeatureLogic
