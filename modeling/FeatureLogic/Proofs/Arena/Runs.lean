import FeatureLogic.Arena.Copying
import FeatureLogic.Proofs.Arena.Invariant
/-!
Runs. A workspace is an arena that is being worked on, with the clone maps of the copies made into
it. From the empty arena, all operations together, in any order, reach sound arenas only.
-/
set_option autoImplicit false

namespace FeatureLogic

open Arena (Adds Builds Follows)

variable {given : Content → Prop}

/-! ## Copies -/

namespace Copying

variable {source : Arena} {c c' c'' : Copying} {s : Selection} {n v : NodeId}

def InRange (copies : CloneMap) (target : Arena) : Prop :=
  ∀ k v, copies.get? k = some v → v < target.size

/-- `c'` is what copying makes of `c`. -/
structure Gains (given : Content → Prop) (c c' : Copying) : Prop where
  builds : Builds given c.target c'.target
  inRange : InRange c'.copies c'.target

theorem Gains.trans (h : Gains given c c') (h' : Gains given c' c'') : Gains given c c'' :=
  ⟨h.builds.trans h'.builds, h'.inRange⟩

theorem Gains.lt (h : Gains given c c') (hn : n < c.target.size) : n < c'.target.size :=
  Nat.lt_of_lt_of_le hn h.builds.size_le

/-- A new node, recorded as the copy of `k` or not at all. -/
theorem Gains.alloc {content : Content} {copies : CloneMap} (hc : c.target.Sound given)
    (hin : InRange c.copies c.target) (hcon : content.Allowed given c.target.size) (k : NodeId)
    (hcopies : copies = c.copies ∨ copies = c.copies.insert k c.target.size) :
    Gains given c ⟨(c.target.alloc content).2, copies⟩ ∧
      c.target.size < (c.target.alloc content).2.size := by
  have hnew : c.target.size < (c.target.alloc content).2.size := by simp
  refine ⟨⟨.alloc hc hcon, fun k' v hv => ?_⟩, hnew⟩
  rcases hcopies with rfl | rfl
  · exact Nat.lt_trans (hin k' v hv) hnew
  · rcases (SortedMap.get?_insert_eq_some_iff _).1 hv with ⟨-, rfl⟩ | ⟨-, hv⟩
    · exact hnew
    · exact Nat.lt_trans (hin k' v hv) hnew

/-- What is asked of copying a node. -/
def Safe (given : Content → Prop) (copy : Selection → NodeId → Copying → NodeId × Copying) :
    Prop :=
  ∀ s n c v c', c.target.Sound given → InRange c.copies c.target → copy s n c = (v, c') →
    Gains given c c' ∧ v < c'.target.size

theorem Safe.copyChildren {copy : Selection → NodeId → Copying → NodeId × Copying}
    (hcopy : Safe given copy) (s : Selection) (es : List (Feature × NodeId))
    (hc : c.target.Sound given) (hin : InRange c.copies c.target)
    {kept : List (Feature × NodeId)} (hrun : copyChildren copy s es c = (kept, c')) :
    Gains given c c' ∧ ∀ e ∈ kept, e.2 < c'.target.size := by
  induction es generalizing c c' kept with
  | nil =>
    cases hrun
    exact ⟨⟨.refl hc, hin⟩, by simp⟩
  | cons e es ih =>
    obtain ⟨f, child⟩ := e
    rw [Copying.copyChildren] at hrun
    split at hrun
    · exact ih hc hin hrun
    · rename_i below _
      rcases hhead : copy below child c with ⟨v, c₁⟩
      rcases htail : Copying.copyChildren copy s es c₁ with ⟨others, c₂⟩
      obtain ⟨h₁, hv⟩ := hcopy _ _ _ _ _ hc hin hhead
      obtain ⟨h₂, hothers⟩ := ih h₁.builds.sound h₁.inRange htail
      rw [hhead] at hrun
      dsimp only at hrun
      rw [htail] at hrun
      cases hrun
      exact ⟨h₁.trans h₂, List.forall_mem_cons.2 ⟨h₂.lt hv, hothers⟩⟩

/-- Nothing is left out of a copy of everything. -/
theorem copyChildren_eq_nil {copy : Selection → NodeId → Copying → NodeId × Copying}
    {es : List (Feature × NodeId)} (h : (copyChildren copy .everything es c).1 = []) : es = [] := by
  cases es with
  | nil => rfl
  | cons e es => simp [copyChildren, Selection.below?] at h

/-- A complex node that loses all its children becomes empty, unless it had none before. -/
theorem allowed_content {kept : List (Feature × NodeId)} {size : Nat}
    (hlt : ∀ e ∈ kept, e.2 < size)
    (hnil : s = .everything → kept = [] → given (.complex .empty)) :
    (s.content kept).Allowed given size := by
  have hcomplex : (kept = [] → given (.complex .empty)) →
      (Content.complex (SortedMap.ofList kept)).Allowed given size := by
    refine fun hgiven => ⟨fun {f d} hd => hlt (f, d) (SortedMap.mem_of_get?_ofList hd), ?_⟩
    rintro (he | he)
    · rw [he]
      refine hgiven (by_contra fun hne => SortedMap.ofList_ne_empty hne ?_)
      exact Content.complex.inj he
    · cases he
  cases s with
  | everything => exact hcomplex (hnil rfl)
  | named tree =>
    cases kept with
    | nil => exact Content.allowed_empty
    | cons e es => exact hcomplex (by simp)

theorem safe_copyWithin (hs : source.Sound given) (depth : Nat) :
    Safe given (copyWithin source depth) := by
  induction depth with
  | zero =>
    intro s n c v c' hc hin hrun
    cases hrun
    exact Gains.alloc hc hin Content.allowed_empty n (.inl rfl)
  | succ depth ih =>
    intro s n c v c' hc hin hrun
    have hread := hs.settled.content_resolve n ▸ hs.allowed n
    rw [copyWithin] at hrun
    dsimp only at hrun
    generalize source.resolve n = k at hrun hread
    split at hrun
    · rename_i copy hget
      cases hrun
      exact ⟨⟨.refl hc, hin⟩, hin _ _ hget⟩
    · cases hcon : source.content k with
      | complex children =>
        rcases hkids : copyChildren (copyWithin source depth) s children.entries c with ⟨kept, c₁⟩
        obtain ⟨h₁, hkept⟩ := Safe.copyChildren ih s children.entries hc hin hkids
        have hcontent : (s.content kept).Allowed given c₁.target.size := by
          refine allowed_content hkept ?_
          rintro rfl rfl
          have hes : children.entries = [] := copyChildren_eq_nil (congrArg Prod.fst hkids)
          obtain rfl : children = .empty := SortedMap.ext hes
          exact hcon ▸ hread.given (.inl hcon)
        obtain ⟨h₂, hv⟩ := Gains.alloc h₁.builds.sound h₁.inRange hcontent k (.inr rfl)
        simp only [hcon, hkids] at hrun
        cases hrun
        exact ⟨h₁.trans h₂, hv⟩
      | empty =>
        simp only [hcon] at hrun
        cases hrun
        exact Gains.alloc hc hin Content.allowed_empty k (.inr rfl)
      | atom a =>
        have hcontent : (Content.atom a).Allowed given c.target.size :=
          ⟨fun hd => (by cases hd), hcon ▸ hread.given⟩
        simp only [hcon] at hrun
        cases hrun
        exact Gains.alloc hc hin hcontent k (.inr rfl)

theorem select_gains (hs : source.Sound given) (hc : c.target.Sound given)
    (hin : InRange c.copies c.target) (s : Selection) (n : NodeId) :
    Gains given c (c.select source s n).2 ∧
      (c.select source s n).1 < (c.select source s n).2.target.size :=
  safe_copyWithin hs source.size s n c _ _ hc hin rfl

end Copying

/-! ## Workspaces -/

structure Workspace where
  arena : Arena
  maps : List CloneMap

namespace Workspace

def start : Workspace := ⟨.empty, []⟩

def put (w : Workspace) (g : Arena) : Workspace := { w with arena := g }

/-- What copying into a workspace leaves, with the map it went by. -/
def keep (w : Workspace) (c : Copying) : Workspace := ⟨c.target, c.copies :: w.maps⟩

/-- `v` is reached from `w`. Content handed to `alloc` is whatever fits, degenerate content only if
it is `given`. A merge that ends may end either way; it may go to any depth. -/
inductive Runs (given : Content → Prop) : Workspace → Workspace → Prop
  | refl (w : Workspace) : Runs given w w
  | alloc {w v : Workspace} {c : Content} (h : Runs given w v)
      (hc : c.Allowed given v.arena.size) : Runs given w (v.put (v.arena.alloc c).2)
  | dechain {w v : Workspace} {n : NodeId} (h : Runs given w v) (hn : n < v.arena.size) :
      Runs given w (v.put (v.arena.dechain n).2)
  | materialize {w v : Workspace} {n : NodeId} (h : Runs given w v) (hn : n < v.arena.size)
      (p : Path) : Runs given w (v.put (v.arena.materialize n p).2)
  | linkPath {w v : Workspace} {n t : NodeId} (h : Runs given w v) (hn : n < v.arena.size)
      (p : Path) (ht : t < v.arena.size) : Runs given w (v.put (v.arena.linkPath n p t).2)
  | createValue {w v : Workspace} {n : NodeId} (h : Runs given w v) (hn : n < v.arena.size)
      (p : Path) (a : Atom) : Runs given w (v.put (v.arena.createValue n p a).2)
  | assignAtom {w v : Workspace} {n : NodeId} (h : Runs given w v) (hn : n < v.arena.size)
      (a : Atom) : Runs given w (v.put (v.arena.assignAtom n a).2)
  | unify {w v : Workspace} {l r : NodeId} {depth : Nat} {b : Bool} {g : Arena}
      (h : Runs given w v) (hl : l < v.arena.size) (hr : r < v.arena.size)
      (hrun : Arena.unifyWithin depth v.arena l r = some (b, g)) : Runs given w (v.put g)
  | select {w v source : Workspace} {n : NodeId} {copies : CloneMap} (h : Runs given w v)
      (hs : Runs given start source) (hn : n < source.arena.size) (s : Selection)
      (hm : copies = .empty ∨ copies ∈ v.maps) :
      Runs given w (v.keep (Copying.select ⟨v.arena, copies⟩ source.arena s n).2)

/-- A sound arena, and maps that lead to nodes of it. -/
structure Sound (given : Content → Prop) (w : Workspace) : Prop where
  arena : w.arena.Sound given
  inRange {copies : CloneMap} : copies ∈ w.maps → Copying.InRange copies w.arena

variable {w v : Workspace} {g : Arena}

theorem sound_start : start.Sound given := ⟨.start, fun h => absurd h List.not_mem_nil⟩

theorem Sound.put (hw : w.Sound given) (hg : Follows given w.arena g) : (w.put g).Sound given :=
  ⟨hg.sound, fun hm k n hn => hg.lt (hw.inRange hm k n hn)⟩

theorem Sound.keep (hw : w.Sound given) {copies : CloneMap} {c : Copying}
    (hc : Copying.Gains given ⟨w.arena, copies⟩ c) : (w.keep c).Sound given := by
  refine ⟨hc.builds.sound, fun {copies'} hm => ?_⟩
  rcases List.mem_cons.1 hm with rfl | hm
  · exact hc.inRange
  · exact fun k n hn => hc.lt (hw.inRange hm k n hn)

namespace Runs

/-- What one operation keeps, a run keeps. -/
theorem follows (h : Runs given w v) (hw : w.Sound given) :
    v.Sound given ∧ w.arena.Later v.arena := by
  have hput : ∀ {w v : Workspace} {g}, v.Sound given ∧ w.arena.Later v.arena →
      Follows given v.arena g → (v.put g).Sound given ∧ w.arena.Later g :=
    fun ⟨hv, hl⟩ hg => ⟨hv.put hg, hl.trans hg.later⟩
  induction h with
  | refl w => exact ⟨hw, .refl _⟩
  | alloc _ hc ih =>
    have hv := (ih hw).1.arena
    exact hput (ih hw) ((Builds.alloc hv hc).follows hv)
  | dechain _ hn ih =>
    have hv := (ih hw).1.arena
    exact hput (ih hw) ((Adds.dechain hv hn rfl).1.follows hv)
  | materialize _ hn p ih =>
    have hv := (ih hw).1.arena
    exact hput (ih hw) ((Adds.materialize hv hn rfl).1.follows hv)
  | linkPath _ hn p ht ih =>
    have hv := (ih hw).1.arena
    exact hput (ih hw) ((Adds.linkPath hv hn ht rfl).follows hv)
  | createValue _ hn p a ih =>
    have hv := (ih hw).1.arena
    exact hput (ih hw) ((Adds.createValue hv hn a rfl).follows hv)
  | assignAtom _ hn a ih =>
    have hv := (ih hw).1.arena
    exact hput (ih hw) ((Adds.assignAtom hv hn a rfl).follows hv)
  | unify _ hl hr hrun ih =>
    have hv := (ih hw).1.arena
    exact hput (ih hw) (.unifyWithin hv hl hr hrun)
  | @select w v source n copies _ _ hn s hm ih ihs =>
    obtain ⟨hv, hl⟩ := ih hw
    have hin : Copying.InRange copies v.arena := by
      rcases hm with rfl | hm
      · exact fun k n hn => (by cases hn)
      · exact hv.inRange hm
    have hgain := (Copying.select_gains (c := ⟨v.arena, copies⟩) (ihs sound_start).1.arena hv.arena
      hin s n).1
    exact ⟨hv.keep hgain, hl.trans (hgain.builds.later hv.arena.settled)⟩

theorem sound (h : Runs given start w) : w.arena.Sound given := (h.follows sound_start).1.arena

theorem later (h : Runs given start w) (h' : Runs given w v) : w.arena.Later v.arena :=
  (h'.follows (h.follows sound_start).1).2

end Runs

end Workspace

end FeatureLogic
