import FeatureLogic.Proofs.Arena.Calls
import FeatureLogic.Proofs.Arena.Creation
import FeatureLogic.Proofs.Arena.Denoting
/-!
What holds of every arena, cyclic ones and those left by a merge that failed included. Chains end,
ids are in range, and no node is complex without children or holds the null atom, unless it was
allocated so. No operation gives up what a forwarding node stands for: such a node never holds
content again, and nodes that have become one stay one.
-/
set_option autoImplicit false

namespace FeatureLogic

namespace Content

/-- What no operation writes of itself. -/
def Degenerate (c : Content) : Prop := c = complex .empty ∨ c = atom .null

/-- Content for an arena of that size. -/
structure Allowed (given : Content → Prop) (size : Nat) (c : Content) : Prop where
  child_lt {f : Feature} {d : NodeId} : c.child? f = some d → d < size
  given : c.Degenerate → given c

variable {given : Content → Prop} {size size' : Nat} {c : Content} {f : Feature} {d : NodeId}

theorem Allowed.mono (hc : c.Allowed given size) (h : size ≤ size') : c.Allowed given size' :=
  ⟨fun hd => Nat.lt_of_lt_of_le (hc.child_lt hd) h, hc.given⟩

theorem not_degenerate_of_child (hc : c.child? f = some d) : ¬ c.Degenerate := by
  rintro (rfl | rfl)
  · rw [child?, SortedMap.get?_empty] at hc
    cases hc
  · cases hc

theorem allowed_empty : empty.Allowed given size := by
  refine ⟨fun hd => (by cases hd), ?_⟩
  rintro (h | h) <;> cases h

theorem allowed_leaf (a : Atom) : (leaf a).Allowed given size := by
  refine ⟨fun hd => (by rw [child?_leaf] at hd; cases hd), ?_⟩
  rintro (h | h)
  · unfold leaf at h
    split at h <;> cases h
  · obtain ⟨rfl, hne⟩ := leaf_eq_atom.1 h
    exact absurd rfl hne

theorem Allowed.adjoin (hc : c.Allowed given size) (f : Feature) (hd : d < size) :
    (c.adjoin f d).Allowed given size where
  child_lt {f' e} he := by
    rw [child?_adjoin] at he
    split at he
    · cases he
      exact hd
    · exact hc.child_lt he
  given hdeg := by
    refine absurd hdeg (not_degenerate_of_child (f := f) (d := d) ?_)
    rw [child?_adjoin, if_pos rfl]

end Content

namespace Arena

/-- An arena that holds together. Degenerate content stands in it only if it is `given`. -/
structure Sound (given : Content → Prop) (g : Arena) : Prop where
  settled : g.Settled
  forward_lt {n t : NodeId} : g.cells[n]? = some (.forwards t) → t < g.size
  child_lt {n c : NodeId} {children : SortedMap Feature NodeId} {f : Feature} :
    g.cells[n]? = some (.holds (.complex children)) → children.get? f = some c → c < g.size
  given {n : NodeId} {c : Content} : g.cells[n]? = some (.holds c) → c.Degenerate → given c

/-- `h` comes after `g`. A forwarding node has no content, and gets none again. -/
structure Later (g h : Arena) : Prop where
  size_le : g.size ≤ h.size
  resolve_eq {n m : NodeId} : g.resolve n = g.resolve m → h.resolve n = h.resolve m
  forwards {n t : NodeId} : g.cells[n]? = some (.forwards t) →
    ∃ u, h.cells[n]? = some (.forwards u)

variable {given : Content → Prop} {g h i : Arena} {n m l r t : NodeId} {f : Feature} {p : Path}
  {c : Content} {b : Bool}

theorem Settled.forwards_iff (hg : g.Settled) :
    (∃ t, g.cells[n]? = some (.forwards t)) ↔ g.resolve n ≠ n := by
  constructor
  · rintro ⟨t, ht⟩ he
    have hn : n < g.size := (Array.getElem?_eq_some_iff.1 ht).1
    rw [hg.holds_of_resolve_eq hn he] at ht
    cases ht
  · intro hne
    rcases Nat.lt_or_ge n g.size with hn | hn
    · obtain ⟨k, m, hk⟩ := hg n hn
      cases hk with
      | stop hc => exact absurd (resolve_of_holds hc) hne
      | step hf _ => exact ⟨_, hf⟩
    · exact absurd (resolve_of_size_le hn) hne

theorem Settled.forward_lt (hg : g.Settled) (ht : g.cells[n]? = some (.forwards t)) :
    t < g.size := by
  obtain ⟨k, m, hk⟩ := hg n (Array.getElem?_eq_some_iff.1 ht).1
  cases hk with
  | stop hc =>
    rw [hc] at ht
    cases ht
  | step hf hrest =>
    rw [hf] at ht
    cases ht
    exact hrest.lt

theorem Settled.resolve_of_forwards (hg : g.Settled) (ht : g.cells[n]? = some (.forwards t)) :
    g.resolve n = g.resolve t := by
  obtain ⟨k, hk⟩ := hg.chain (hg.forward_lt ht)
  exact (Chain.step ht hk).resolve

namespace Later

theorem refl (g : Arena) : g.Later g := ⟨Nat.le_refl _, id, fun h => ⟨_, h⟩⟩

theorem trans (hgh : g.Later h) (hhi : h.Later i) : g.Later i where
  size_le := Nat.le_trans hgh.size_le hhi.size_le
  resolve_eq he := hhi.resolve_eq (hgh.resolve_eq he)
  forwards hf := by
    obtain ⟨u, hu⟩ := hgh.forwards hf
    exact hhi.forwards hu

/-- A node forwards exactly when it does not resolve to itself. -/
theorem of_resolve (hg : g.Settled) (hh : h.Settled) (hsize : g.size ≤ h.size)
    (heq : ∀ n m, g.resolve n = g.resolve m → h.resolve n = h.resolve m)
    (hmoved : ∀ n, g.resolve n ≠ n → h.resolve n ≠ n) : g.Later h where
  size_le := hsize
  resolve_eq := heq _ _
  forwards hf := hh.forwards_iff.2 (hmoved _ (hg.forwards_iff.1 ⟨_, hf⟩))

end Later

namespace Sound

theorem allowed (hg : g.Sound given) (n : NodeId) : (g.content n).Allowed given g.size := by
  rcases Nat.lt_or_ge n g.size with hn | hn
  · have hheld := hg.settled.holds_content hn
    refine ⟨fun {f d} hd => ?_, hg.given hheld⟩
    cases hc : g.content n with
    | complex children =>
      rw [hc] at hheld hd
      exact hg.child_lt hheld hd
    | empty => simp [hc, Content.child?] at hd
    | atom a => simp [hc, Content.child?] at hd
  · rw [content_of_size_le hn]
    exact Content.allowed_empty

/-- All that a node can hold is read at some node. -/
theorem of_allowed (hg : g.Settled) (hall : ∀ n, (g.content n).Allowed given g.size) :
    g.Sound given := by
  have hread : ∀ {n c}, g.cells[n]? = some (.holds c) → g.content n = c := by
    intro n c hc
    simp only [content, resolve_of_holds hc, hc]
  refine ⟨hg, hg.forward_lt, fun {n c children f} hn hc => ?_, fun {n c} hn => ?_⟩
  · refine (hall n).child_lt (f := f) ?_
    rw [hread hn]
    exact hc
  · exact hread hn ▸ (hall n).given

theorem start : empty.Sound given := by
  refine of_allowed WellFormed.empty.settled fun n => ?_
  rw [content_of_size_le (Nat.zero_le n)]
  exact Content.allowed_empty

theorem child?_lt (hg : g.Sound given) {d : NodeId} (hd : g.child? n f = some d) : d < g.size := by
  rw [child?_eq] at hd
  exact (hg.allowed n).child_lt hd

theorem lookup_lt (hg : g.Sound given) (hn : n < g.size) (hl : g.lookup n p = .found m) :
    m < g.size := by
  induction p generalizing n with
  | nil =>
    cases hl
    exact hg.settled.resolve_lt hn
  | cons f p ih =>
    obtain ⟨c, hc, hrest⟩ := lookup_cons_eq_found.1 hl
    exact ih (hg.child?_lt hc) hrest

/-- Well-formed arenas are those sound ones in which no node is complex without children. -/
theorem wellFormed (hg : g.Sound given) (hgiven : ¬ given (.complex .empty)) : g.WellFormed where
  settled := hg.settled
  child_lt := hg.child?_lt
  child_of_complex {n children} hn := by
    cases hes : children.entries with
    | nil =>
      have hempty : children = .empty := SortedMap.ext hes
      subst hempty
      exact absurd ((hg.allowed n).given (.inl hn)) (hn ▸ hgiven)
    | cons e es =>
      refine ⟨e.1, e.2, ?_⟩
      rw [child?_eq, hn]
      exact (SortedMap.get?_eq_some_iff children).2 (hes ▸ List.mem_cons_self)

theorem of_wellFormed (hg : g.WellFormed) : g.Sound (· = .atom .null) := by
  refine of_allowed hg.settled fun n => ⟨fun hd => hg.child_lt (child?_eq g n _ ▸ hd), ?_⟩
  rintro (hn | hn)
  · obtain ⟨f, d, hd⟩ := hg.child_of_complex hn
    rw [child?_eq] at hd
    exact absurd (.inl hn) (Content.not_degenerate_of_child hd)
  · exact hn

end Sound

/-! ## Steps that forward nothing -/

/-- `h` is a sound arena after `g`, in which nothing has been forwarded. -/
structure Builds (given : Content → Prop) (g h : Arena) : Prop where
  sound : h.Sound given
  size_le : g.size ≤ h.size
  resolve : h.resolve = g.resolve

namespace Builds

theorem refl (hg : g.Sound given) : Builds given g g := ⟨hg, Nat.le_refl _, rfl⟩

theorem trans (hgh : Builds given g h) (hhi : Builds given h i) : Builds given g i :=
  ⟨hhi.sound, Nat.le_trans hgh.size_le hhi.size_le, hhi.resolve.trans hgh.resolve⟩

theorem later (hg : g.Settled) (hgh : Builds given g h) : g.Later h := by
  refine .of_resolve hg hgh.sound.settled hgh.size_le (fun n m he => ?_) fun n hne => ?_
  · rwa [hgh.resolve]
  · rwa [hgh.resolve]

theorem of_view (hg : g.Sound given) (hv : SameView g h) : Builds given g h := by
  refine ⟨.of_allowed hv.settled fun n => ?_, Nat.le_of_eq hv.size.symm, hv.resolve⟩
  rw [hv.content, hv.size]
  exact hg.allowed n

variable (hg : g.Sound given)
include hg

theorem alloc (hc : c.Allowed given g.size) : Builds given g (g.alloc c).2 := by
  refine ⟨.of_allowed (settled_alloc hg.settled c) fun n => ?_, by simp,
    funext (resolve_alloc hg.settled c)⟩
  rw [content_alloc hg.settled, size_alloc]
  split
  · exact hc.mono (Nat.le_succ _)
  · exact (hg.allowed n).mono (Nat.le_succ _)

theorem set (hn : n < g.size) (he : g.resolve n = n) (hc : c.Allowed given g.size) :
    Builds given g (g.set n (.holds c)) := by
  refine ⟨.of_allowed (settled_set_holds hg.settled hn he c) fun m => ?_, by simp,
    funext (resolve_set_holds hg.settled hn he c)⟩
  rw [content_set_holds hg.settled hn he, size_set]
  split
  · exact hc
  · exact hg.allowed m

theorem attach (hn : n < g.size) (he : g.resolve n = n) (f : Feature) (hm : m < g.size) :
    Builds given g (g.attach n f m) := by
  rw [attach_eq hg.settled hn he]
  exact .set hg hn he ((hg.allowed n).adjoin f hm)

end Builds

/-- `h` is `g` with more in it; nothing has been lost, nor forwarded. -/
structure Adds (given : Content → Prop) (g h : Arena) : Prop extends Builds given g h where
  grows : g.Grows h
  complex {n : NodeId} : (g.content n).isComplex = true → (h.content n).isComplex = true

namespace Adds

theorem trans (hgh : Adds given g h) (hhi : Adds given h i) : Adds given g i :=
  ⟨hgh.toBuilds.trans hhi.toBuilds, hgh.grows.trans hhi.grows,
    fun hc => hhi.complex (hgh.complex hc)⟩

theorem of_view (hg : g.Sound given) (hv : SameView g h) : Adds given g h :=
  ⟨.of_view hg hv, hv.grows hg.settled, fun hc => hv.content ▸ hc⟩

theorem refl (hg : g.Sound given) : Adds given g g := .of_view hg (.refl hg.settled)

variable (hg : g.Sound given)
include hg

theorem alloc (hc : c.Allowed given g.size) : Adds given g (g.alloc c).2 :=
  ⟨.alloc hg hc, .alloc hg.settled c, isComplex_alloc hg.settled c⟩

theorem attach (hn : n < g.size) (he : g.resolve n = n) (hatom : ∀ a, g.content n ≠ .atom a)
    (hfree : g.child? n f = none) (hm : m < g.size) : Adds given g (g.attach n f m) := by
  obtain ⟨-, -, -, hcon⟩ := attach_view hg.settled hn he f m
  refine ⟨.attach hg hn he f hm, .attach hg.settled hn he hfree hatom, fun {k} hk => ?_⟩
  rw [hcon]
  split
  · exact Content.isComplex_adjoin ..
  · exact hk

/-- An empty node has nothing to lose. -/
theorem fill (hn : n < g.size) (he : g.resolve n = n) (hempty : g.content n = .empty)
    (hc : c.Allowed given g.size) : Adds given g (g.set n (.holds c)) := by
  have hres := resolve_set_holds hg.settled hn he c
  have hkept : ∀ {m}, g.content m ≠ .empty → (g.set n (.holds c)).content m = g.content m := by
    intro m hm
    rw [content_set_holds hg.settled hn he c, if_neg]
    rintro rfl
    exact hm (hg.settled.content_resolve m ▸ hempty)
  refine ⟨.set hg hn he hc, ⟨by simp, fun m => ?_, fun {m a} ha => ?_, fun {m d f} hd => ?_⟩,
    fun {m} hm => ?_⟩
  · rw [hres, hres, hg.settled.resolve_resolve]
  · rw [hkept (by simp [ha]), ha]
  · refine ⟨d, ?_, rfl⟩
    rw [child?_eq] at hd ⊢
    rw [hkept, hd]
    intro hcon
    rw [hcon] at hd
    cases hd
  · rw [hkept]
    · exact hm
    · intro hcon
      rw [hcon] at hm
      cases hm

/-- A chain shortened to its end. -/
theorem dechain (hn : n < g.size) (hrun : g.dechain n = (m, h)) :
    Adds given g h ∧ m < h.size ∧ h.resolve m = m := by
  obtain rfl : g.resolve n = m := congrArg Prod.fst hrun
  obtain rfl : (g.dechain n).2 = h := congrArg Prod.snd hrun
  have hb : Adds given g (g.dechain n).2 := .of_view hg (dechain_view hg.settled n)
  refine ⟨hb, Nat.lt_of_lt_of_le (hg.settled.resolve_lt hn) hb.size_le, ?_⟩
  rw [hb.resolve, hg.settled.resolve_resolve]

/-- A new child of an end that has none under the feature. -/
theorem sprout (hn : n < g.size) (he : g.resolve n = n) (hatom : ∀ a, g.content n ≠ .atom a)
    (hfree : g.child? n f = none) : Adds given g ((g.alloc .empty).2.attach n f g.size) ∧
      g.size < ((g.alloc .empty).2.attach n f g.size).size := by
  have ha := Adds.alloc hg (c := .empty) Content.allowed_empty
  have hnew : g.size < (g.alloc .empty).2.size := by simp
  have hne : n ≠ g.size := Nat.ne_of_lt hn
  have hatom' : ∀ a, (g.alloc .empty).2.content n ≠ .atom a := by
    rwa [content_alloc hg.settled, if_neg hne]
  have hfree' : (g.alloc .empty).2.child? n f = none := by
    rw [child?_alloc hg.settled, if_neg hne, hfree]
  have hat := Adds.attach ha.sound (Nat.lt_trans hn hnew) (by rw [ha.resolve, he]) hatom' hfree'
    hnew
  exact ⟨ha.trans hat, Nat.lt_of_lt_of_le hnew hat.size_le⟩

theorem childOrCreate (hn : n < g.size) {outcome : Except StructureError NodeId}
    (hrun : g.childOrCreate n f = (outcome, h)) :
    Adds given g h ∧ ∀ m, outcome = .ok m → m < h.size := by
  have hs := hg.settled
  obtain ⟨hd, hlt, hend⟩ := dechain hg hn rfl
  cases hcon : g.content n with
  | atom a =>
    rw [childOrCreate_of_atom hs hcon] at hrun
    cases hrun
    exact ⟨hd, fun m hm => (by cases hm)⟩
  | empty | complex =>
    have hatom : ∀ a, g.content n ≠ .atom a := by simp [hcon]
    rw [childOrCreate_eq hs hatom] at hrun
    cases hc : g.child? n f with
    | some m =>
      rw [hc] at hrun
      cases hrun
      refine ⟨hd, fun m hm => ?_⟩
      cases hm
      exact Nat.lt_of_lt_of_le (hg.child?_lt hc) hd.size_le
    | none =>
      rw [hc] at hrun
      cases hrun
      have hv := dechain_view hs n
      obtain ⟨hnew, hlt'⟩ := sprout (f := f) hd.sound hlt hend (by rwa [content_dechain hs rfl])
        ((child?_dechain hs rfl f).trans ((hv.child? n f).trans hc))
      refine ⟨hd.trans hnew, fun m hm => ?_⟩
      cases hm
      exact hlt'

theorem materialize (hn : n < g.size) {outcome : Except StructureError NodeId}
    (hrun : g.materialize n p = (outcome, h)) :
    Adds given g h ∧ ∀ m, outcome = .ok m → m < h.size ∧ h.resolve m = m := by
  induction p generalizing g n with
  | nil =>
    rcases hdn : g.dechain n with ⟨m, g₁⟩
    obtain ⟨hd, hend⟩ := dechain hg hn hdn
    rw [Arena.materialize, hdn] at hrun
    cases hrun
    refine ⟨hd, fun m hm => ?_⟩
    cases hm
    exact hend
  | cons f p ih =>
    rw [Arena.materialize] at hrun
    rcases hchild : g.childOrCreate n f with ⟨e | m, g₁⟩
    · rw [hchild] at hrun
      cases hrun
      exact ⟨(childOrCreate hg hn hchild).1, fun m hm => (by cases hm)⟩
    · rw [hchild] at hrun
      obtain ⟨hb, hlt⟩ := childOrCreate hg hn hchild
      obtain ⟨hb', hend⟩ := ih hb.sound (hlt m rfl) hrun
      exact ⟨hb.trans hb', hend⟩

theorem linkPath (hn : n < g.size) (ht : t < g.size) {outcome : Except StructureError Unit}
    (hrun : g.linkPath n p t = (outcome, h)) : Adds given g h := by
  rw [Arena.linkPath] at hrun
  split at hrun
  · cases hrun
    exact .refl hg
  · rename_i up last _
    split at hrun
    · rename_i hmat
      cases hrun
      exact (materialize hg hn hmat).1
    · rename_i parent g₁ hmat
      obtain ⟨hb, hend⟩ := materialize hg hn hmat
      obtain ⟨hlt, hres⟩ := hend parent rfl
      split at hrun
      · cases hrun
        exact hb
      · rename_i hatom
        split at hrun <;> cases hrun
        · exact hb
        · rename_i hfree
          exact hb.trans (.attach hb.sound hlt hres hatom hfree (Nat.lt_of_lt_of_le ht hb.size_le))

theorem createValue (hn : n < g.size) (a : Atom) {outcome : Except StructureError NodeId}
    (hrun : g.createValue n p a = (outcome, h)) : Adds given g h := by
  have ha := Adds.alloc hg (Content.allowed_leaf a)
  have hleaf : g.size < (g.alloc (.leaf a)).2.size := by simp
  rw [createValue_eq] at hrun
  rcases hlink : (g.alloc (.leaf a)).2.linkPath n p g.size with ⟨e | _, g₁⟩
  all_goals
    rw [hlink] at hrun
    cases hrun
    exact ha.trans (linkPath ha.sound (Nat.lt_trans hn hleaf) hleaf hlink)

theorem assignAtom (hn : n < g.size) (a : Atom) {outcome : Except StructureError Unit}
    (hrun : g.assignAtom n a = (outcome, h)) : Adds given g h := by
  rcases hdn : g.dechain n with ⟨m, g₁⟩
  obtain ⟨hd, hlt, hend⟩ := dechain hg hn hdn
  rw [Arena.assignAtom, hdn] at hrun
  dsimp only at hrun
  split at hrun <;> cases hrun
  · rename_i hempty
    exact hd.trans (.fill hd.sound hlt hend hempty (Content.allowed_leaf a))
  · exact hd
  · exact hd

end Adds

/-! ## Steps that forward nodes -/

/-- `h` is a sound arena after `g`. -/
structure Follows (given : Content → Prop) (g h : Arena) : Prop where
  sound : h.Sound given
  later : g.Later h

theorem Builds.follows (hg : g.Sound given) (hgh : Builds given g h) : Follows given g h :=
  ⟨hgh.sound, hgh.later hg.settled⟩

namespace Follows

theorem refl (hg : g.Sound given) : Follows given g g := ⟨hg, .refl g⟩

theorem trans (hgh : Follows given g h) (hhi : Follows given h i) : Follows given g i :=
  ⟨hhi.sound, hgh.later.trans hhi.later⟩

theorem lt (hgh : Follows given g h) (hn : n < g.size) : n < h.size :=
  Nat.lt_of_lt_of_le hn hgh.later.size_le

theorem redirect (hg : g.Sound given) (hl : l < g.size) (hr : r < g.size) (hel : g.resolve l = l)
    (her : g.resolve r = r) (hne : l ≠ r) : Follows given g (g.redirect l r) := by
  have hs := settled_redirect hg.settled hl hr hel her hne
  have hres := resolve_redirect hg.settled hl hr hel her hne
  refine ⟨.of_allowed hs fun n => ?_, .of_resolve hg.settled hs (by simp) (fun n m he => ?_) ?_⟩
  · rw [content_redirect hg.settled hl hr hel her hne, size_redirect]
    split
    · exact hg.allowed r
    · exact hg.allowed n
  · rw [hres, hres, he]
  · intro n hn
    rw [hres]
    split
    · rintro rfl
      exact hn her
    · exact hn

/-- Two ends of chains in a sound arena. -/
structure Ends (given : Content → Prop) (g : Arena) (l r : NodeId) : Prop where
  sound : g.Sound given
  left_lt : l < g.size
  right_lt : r < g.size
  resolve_left : g.resolve l = l
  resolve_right : g.resolve r = r

theorem Ends.of_dechain {l' r' : NodeId} (hg : g.Sound given) (hl : l < g.size) (hr : r < g.size)
    (hdl : g.dechain l = (l', h)) (hdr : h.dechain r = (r', i)) :
    Follows given g i ∧ Ends given i l' r' := by
  obtain ⟨hd₁, hl', hel⟩ := Adds.dechain hg hl hdl
  obtain ⟨hd₂, hr', her⟩ := Adds.dechain hd₁.sound (Nat.lt_of_lt_of_le hr hd₁.size_le) hdr
  refine ⟨(hd₁.trans hd₂).follows hg, hd₂.sound, Nat.lt_of_lt_of_le hl' hd₂.size_le, hr', ?_, her⟩
  rw [hd₂.resolve, hel]

theorem Ends.symm (he : Ends given g l r) : Ends given g r l :=
  ⟨he.sound, he.right_lt, he.left_lt, he.resolve_right, he.resolve_left⟩

theorem Ends.redirect (he : Ends given g l r) (hne : l ≠ r) : Follows given g (g.redirect l r) :=
  .redirect he.sound he.left_lt he.right_lt he.resolve_left he.resolve_right hne

theorem Ends.resolve_redirect (he : Ends given g l r) (hne : l ≠ r) (n : NodeId) :
    (g.redirect l r).resolve n = if g.resolve n = l then r else g.resolve n :=
  Arena.resolve_redirect he.sound.settled he.left_lt he.right_lt he.resolve_left he.resolve_right
    hne n

theorem Ends.content_redirect (he : Ends given g l r) (hne : l ≠ r) (n : NodeId) :
    (g.redirect l r).content n = if g.resolve n = l then g.content r else g.content n :=
  Arena.content_redirect he.sound.settled he.left_lt he.right_lt he.resolve_left he.resolve_right
    hne n

theorem Ends.mergeEnds (he : Ends given g l r) (hends : g.mergeEnds l r = some (b, h)) :
    Follows given g h := by
  obtain ⟨-, -, rfl⟩ | ⟨-, rfl, -⟩ | ⟨hne, -, ⟨-, rfl⟩ | ⟨-, rfl⟩⟩ := mergeEnds_eq_some hends
  · exact .refl he.sound
  · exact .refl he.sound
  · exact he.redirect hne
  · exact he.symm.redirect (Ne.symm hne)

end Follows

/-- All nodes of the call are in the arena. -/
def Call.Inside (g : Arena) : Call → Prop
  | merge l r => l < g.size ∧ r < g.size
  | complex l r => l < g.size ∧ r < g.size
  | children r rest => r < g.size ∧ ∀ e ∈ rest, e.2 < g.size

namespace Call.Inside
variable {t own : NodeId} {rest : List (Feature × NodeId)}

theorem loop (hin : (complex l r).Inside g) (hg : g.Sound given) :
    (children r (g.content l).children).Inside g :=
  ⟨hin.2, fun _ he => hg.child?_lt (mem_children_iff.1 he)⟩

theorem head (hin : (children r ((f, n) :: rest)).Inside g) (hgh : Follows given g h)
    (hown : h.child? t f = some own) : (merge n own).Inside h :=
  ⟨hgh.lt (hin.2 _ List.mem_cons_self), hgh.sound.child?_lt hown⟩

theorem tail {e : Feature × NodeId} (hin : (children r (e :: rest)).Inside g)
    (hgh : Follows given g h) : (children r rest).Inside h :=
  ⟨hgh.lt hin.1, fun e he => hgh.lt (hin.2 e (List.mem_cons_of_mem _ he))⟩

end Call.Inside

/-- Whichever call it is, and whether it succeeds or fails halfway. -/
theorem Returns.follows {call : Call} {d : Nat} (hret : Returns d g call b h) (hg : g.Sound given)
    (hin : call.Inside g) : Follows given g h := by
  induction hret with
  | merge hl hr hends =>
    obtain ⟨hd, he⟩ := Follows.Ends.of_dechain hg hin.1 hin.2 hl hr
    exact hd.trans (he.mergeEnds hends)
  | descend hl hr _ _ ih =>
    obtain ⟨hd, he⟩ := Follows.Ends.of_dechain hg hin.1 hin.2 hl hr
    exact hd.trans (ih he.sound ⟨he.left_lt, he.right_lt⟩)
  | complex _ hl hr ih =>
    -- the ends may have been forwarded meanwhile, even to one another
    have hloop := ih hg (hin.loop hg)
    obtain ⟨hd, he⟩ :=
      Follows.Ends.of_dechain hloop.sound (hloop.lt hin.1) (hloop.lt hin.2) hl hr
    refine hloop.trans (hd.trans ?_)
    split
    · exact .refl he.sound
    · rename_i hne
      exact he.redirect hne
  | clash _ ih => exact ih hg (hin.loop hg)
  | done => exact .refl hg
  | @attach _ _ _ _ _ _ f _ _ _ hr _ _ ih =>
    obtain ⟨hd, hlt, hend⟩ := Adds.dechain hg hin.1 hr
    have hc := Nat.lt_of_lt_of_le (hin.2 _ List.mem_cons_self) hd.size_le
    have hstep := (hd.toBuilds.trans (.attach hd.sound hlt hend f hc)).follows hg
    exact hstep.trans (ih hstep.sound (hin.tail hstep))
  | next hr hown _ _ ihcall ihrest =>
    have hd := (Adds.dechain hg hin.1 hr).1.follows hg
    have hstep := hd.trans (ihcall hd.sound (hin.head hd hown))
    exact hstep.trans (ihrest hstep.sound (hin.tail hstep))
  | stop hr hown _ ih =>
    have hd := (Adds.dechain hg hin.1 hr).1.follows hg
    exact hd.trans (ih hd.sound (hin.head hd hown))

namespace Follows

/-- However deep a merge of two nodes goes. -/
theorem unifyWithin {depth : Nat} (hg : g.Sound given) (hl : l < g.size) (hr : r < g.size)
    (hrun : unifyWithin depth g l r = some (b, h)) : Follows given g h := by
  obtain ⟨d, hret⟩ := exists_returns hrun
  exact hret.follows hg ⟨hl, hr⟩

/-- A merge that gives up keeps the arena as it was. -/
theorem unify (hg : g.Sound given) (hl : l < g.size) (hr : r < g.size) :
    Follows given g (g.unify l r).2 := by
  rw [Arena.unify]
  cases hrun : Arena.unifyWithin g.size g l r with
  | none => exact .refl hg
  | some outcome => exact unifyWithin hg hl hr hrun

end Follows

end Arena

end FeatureLogic
