import FeatureLogic.Interpretation.Extension
import FeatureLogic.Proofs.Interpretation.Locality
import FeatureLogic.Proofs.Structure.Invariant
import FeatureLogic.Proofs.Weight
/-!
The arenas of interpretations. Evaluating works in place, whether it succeeds or stops halfway; to
add a candidate makes a new arena. The last theorem is the invariant of all arenas there are.
-/
set_option autoImplicit false

namespace FeatureLogic

open Arena (Adds Builds Follows)

variable {W : Type} [Weight W] {given : Content → Prop} {g : Arena}

namespace Interpretation

variable {i j k : Interpretation W}

omit [Weight W] in
/-- An interpretation whose slots start at nodes of a sound arena. -/
structure Sound (given : Content → Prop) (i : Interpretation W) : Prop where
  arena : i.arena.Sound given
  root_lt (s : SlotIndex) (n : NodeId) : i.slots.get? s = some n → n < i.arena.size

omit [Weight W] in
theorem Sound.entry_lt (hi : i.Sound given) :
    ∀ slot ∈ i.slots.entries, slot.2 < i.arena.size := by
  intro slot hslot
  exact hi.root_lt slot.1 slot.2 ((SortedMap.get?_eq_some_iff _).2 hslot)

/-- `j` is sound and goes on in the arena of `i`. -/
structure Proceeds (given : Content → Prop) (i j : Interpretation W) : Prop where
  sound : j.Sound given
  later : i.arena.Later j.arena

namespace Proceeds

omit [Weight W] in
theorem refl (hi : i.Sound given) : Proceeds given i i := ⟨hi, .refl _⟩

omit [Weight W] in
theorem trans (hij : Proceeds given i j) (hjk : Proceeds given j k) : Proceeds given i k :=
  ⟨hjk.sound, hij.later.trans hjk.later⟩

omit [Weight W] in
/-- Slots are kept, or all given up. -/
theorem of_follows (hi : i.Sound given) (hg : Follows given i.arena g)
    {slots : SortedMap SlotIndex NodeId} (hs : slots = i.slots ∨ slots = .empty) (p : W) :
    Proceeds given i ⟨g, slots, p⟩ := by
  refine ⟨⟨hg.sound, fun s n hn => ?_⟩, hg.later⟩
  rcases hs with rfl | rfl
  · exact hg.lt (hi.root_lt s n hn)
  · cases hn

variable (hi : i.Sound given)
include hi

omit [Weight W] in
theorem checkAbsolute (c : Absolute) : Proceeds given i (i.checkAbsolute c).2 := by
  unfold Interpretation.checkAbsolute
  split
  · exact refl hi
  · rename_i root hroot
    split
    · exact refl hi
    · split
      · rename_i hcreate
        exact of_follows hi ((Adds.createValue hi.arena (hi.root_lt _ _ hroot) _ hcreate).follows
          hi.arena) (.inl rfl) _
      · rename_i hcreate
        exact of_follows hi ((Adds.createValue hi.arena (hi.root_lt _ _ hroot) _ hcreate).follows
          hi.arena) (.inl rfl) _
    · exact refl hi

omit [Weight W] in
theorem checkRelative (c : Relative) : Proceeds given i (i.checkRelative c).2 := by
  unfold Interpretation.checkRelative
  split
  · rename_i lhs rhs hlhs hrhs
    have hl := hi.root_lt _ _ hlhs
    have hr := hi.root_lt _ _ hrhs
    split
    · rename_i g₁ hmat
      exact of_follows hi ((Adds.materialize hi.arena hl hmat).1.follows hi.arena) (.inl rfl) _
    · rename_i l g₁ hmat
      obtain ⟨h₁, hl₁⟩ := Adds.materialize hi.arena hl hmat
      have hr₁ := Nat.lt_of_lt_of_le hr h₁.size_le
      split
      · rename_i g₂ hmat₂
        exact of_follows hi ((h₁.trans (Adds.materialize h₁.sound hr₁ hmat₂).1).follows hi.arena)
          (.inl rfl) _
      · rename_i r g₂ hmat₂
        obtain ⟨h₂, hr₂⟩ := Adds.materialize h₁.sound hr₁ hmat₂
        have hu := ((h₁.trans h₂).follows hi.arena).trans
          (.unify h₂.sound (Nat.lt_of_lt_of_le (hl₁ l rfl).1 h₂.size_le) (hr₂ r rfl).1)
        split
        · rename_i g₃ hunify
          rw [hunify] at hu
          exact of_follows hi hu (.inl rfl) _
        · rename_i g₃ hunify
          rw [hunify] at hu
          exact of_follows hi hu (.inr rfl) _
  · exact refl hi

theorem check (c : Constraint W) : Proceeds given i (i.check c).2 := by
  cases c with
  | absolute c => exact checkAbsolute hi c
  | relative c => exact checkRelative hi c
  | choice c =>
    obtain ⟨harena, hslots⟩ := checkChoice_arena i c
    have hg : Follows given i.arena (i.checkChoice c).2.arena := harena.symm ▸ .refl hi.arena
    exact of_follows hi hg (.inl hslots) (i.checkChoice c).2.probability

theorem checkAll (cs : List (Constraint W)) : Proceeds given i (checkAll cs i).2 := by
  induction cs generalizing i with
  | nil => exact refl hi
  | cons c cs ih =>
    have hstep := check hi c
    rw [Interpretation.checkAll]
    rcases hc : i.check c with ⟨_ | _, j⟩
    · rw [hc] at hstep
      exact hstep
    · rw [hc] at hstep
      exact hstep.trans (ih hstep.sound)

/-- Up to the first constraint that fails, or to the end. -/
theorem eval (cs : ConstraintSet W) : Proceeds given i (i.eval cs).2 := by
  have hstart : Proceeds given i i.restart := of_follows hi (.refl hi.arena) (.inl rfl) _
  rw [eval_eq]
  split
  · exact hstart
  · exact hstart.trans (checkAll hstart.sound _)

end Proceeds

omit [Weight W] in
theorem Sound.structure? (hi : i.Sound given) {s : SlotIndex} {t : FeatureStructure}
    (ht : i.structure? s = some t) : t.Sound given := by
  obtain ⟨n, -, rfl⟩ := Option.map_eq_some_iff.1 ht
  exact FeatureStructure.sound_compact hi.arena n

theorem sound_ofStructure {s : FeatureStructure} (hs : s.arena.Sound given) (index : SlotIndex) :
    (ofStructure index s : Interpretation W).Sound given := by
  obtain ⟨hsound, hlt, -⟩ := Copying.copy_alone hs .everything s.root
  refine ⟨hsound, fun slot n hn => ?_⟩
  have hget := SortedMap.get?_singleton index slot
    ((Copying.start .empty).select s.arena .everything s.root).1
  rw [show (ofStructure index s : Interpretation W).slots.get? slot = _ from hget] at hn
  split at hn
  · cases hn
    exact hlt
  · cases hn

end Interpretation

namespace Extension
open Interpretation

variable {e : Extension W} {source : Arena} {c c' : Copying}

theorem copySlots_gains (hs : source.Sound given) (es : List (SlotIndex × NodeId))
    (hc : c.target.Sound given) (hin : Copying.InRange c.copies c.target)
    {slots : List (SlotIndex × NodeId)} (hrun : copySlots source es c = (slots, c')) :
    Copying.Gains given c c' ∧ ∀ e ∈ slots, e.2 < c'.target.size := by
  induction es generalizing c c' slots with
  | nil =>
    cases hrun
    exact ⟨⟨.refl hc, hin⟩, by simp⟩
  | cons e es ih =>
    obtain ⟨s, n⟩ := e
    obtain ⟨h₁, hlt⟩ := Copying.select_gains hs hc hin .everything n
    rcases hrest : copySlots source es (c.copy source n).2 with ⟨others, c₂⟩
    obtain ⟨h₂, hothers⟩ := ih h₁.builds.sound h₁.inRange hrest
    rw [copySlots] at hrun
    dsimp only at hrun
    rw [hrest] at hrun
    cases hrun
    exact ⟨h₁.trans h₂, List.forall_mem_cons.2 ⟨h₂.lt hlt, hothers⟩⟩

omit [Weight W] in
/-- With the candidate in its slot, also when it clashes with what is there. -/
theorem sound_merge (hb : e.base.Sound given) (hs : e.candidate.arena.Sound given) :
    e.merge.Sound given := by
  have hin : ∀ g, Copying.InRange (Copying.start g).copies (Copying.start g).target :=
    fun g k v hv => by cases hv
  rcases hslots : copySlots e.base.arena e.base.slots.entries (.start .empty) with ⟨slots, c⟩
  obtain ⟨h₁, hall⟩ :=
    copySlots_gains (c := .start .empty) hb.arena _ Arena.Sound.start (hin _) hslots
  rcases hcopy : (Copying.start c.target).copy e.candidate.arena e.candidate.root with ⟨n, c'⟩
  obtain ⟨h₂, hlt⟩ := Copying.select_gains (c := .start c.target) hs h₁.builds.sound (hin _)
    .everything e.candidate.root
  rw [show (Copying.start c.target).select e.candidate.arena .everything e.candidate.root = _ from
    hcopy] at h₂ hlt
  have hroots : ∀ s m, (SortedMap.ofList slots).get? s = some m → m < c'.target.size :=
    fun s m hm => h₂.lt (hall _ (SortedMap.mem_of_get?_ofList hm))
  unfold merge
  simp only [hslots, hcopy]
  split
  · refine ⟨h₂.builds.sound, fun s m hm => ?_⟩
    rcases (SortedMap.get?_insert_eq_some_iff _).1 hm with ⟨-, rfl⟩ | ⟨-, hm⟩
    · exact hlt
    · exact hroots s m hm
  · rename_i own hown
    have hf := Follows.unify h₂.builds.sound (hroots _ _ hown) hlt
    split
    · rename_i g hg
      rw [hg] at hf
      exact ⟨hf.sound, fun s m hm => hf.lt (hroots s m hm)⟩
    · rename_i g hg
      rw [hg] at hf
      exact ⟨hf.sound, fun s m hm => by cases hm⟩

end Extension

/-! ## All arenas -/

/-- The structures and the interpretations that there are, made out of one another. -/
inductive Arises : FeatureStructure ⊕ Interpretation W → Prop
  | atomic (a : Atom) : Arises (.inl (.atomic a))
  | ofDescription {d : Description} {s : FeatureStructure} :
      FeatureStructure.ofDescription d = .ok s → Arises (.inl s)
  | compact {s : FeatureStructure} : Arises (.inl s) → Arises (.inl s.compact)
  | select {s : FeatureStructure} (tree : FeatureTree) :
      Arises (.inl s) → Arises (.inl (s.select tree))
  | createValue {s : FeatureStructure} (p : Path) (a : Atom) :
      Arises (.inl s) → Arises (.inl (s.createValue p a).2)
  | unify {s t u : FeatureStructure} :
      Arises (.inl s) → Arises (.inl t) → s.unify? t = some u → Arises (.inl u)
  | coindex {s t : FeatureStructure} {p q : Path} :
      Arises (.inl s) → s.coindex p q = .ok (some t) → Arises (.inl t)
  | structure? {i : Interpretation W} {index : SlotIndex} {s : FeatureStructure} :
      Arises (.inr i) → i.structure? index = some s → Arises (.inl s)
  | ofStructure {s : FeatureStructure} (index : SlotIndex) :
      Arises (.inl s) → Arises (.inr (.ofStructure index s))
  | merge {e : Extension W} :
      Arises (.inr e.base) → Arises (.inl e.candidate) → Arises (.inr e.merge)
  | eval {i : Interpretation W} (cs : ConstraintSet W) :
      Arises (.inr i) → Arises (.inr (i.eval cs).2)

theorem Arises.sound {x : FeatureStructure ⊕ Interpretation W} (h : Arises x) :
    Sum.elim (FeatureStructure.Sound given) (Interpretation.Sound given) x := by
  induction h with
  | atomic a => exact FeatureStructure.sound_atomic a
  | ofDescription h => exact FeatureStructure.sound_ofDescription h
  | compact _ ih => exact FeatureStructure.sound_compact ih.arena _
  | select tree _ ih => exact FeatureStructure.Sound.select ih tree
  | createValue p a _ ih => exact FeatureStructure.Sound.createValue ih p a
  | unify _ _ hu ihs iht => exact FeatureStructure.Sound.unify ihs iht hu
  | coindex _ ht ih => exact FeatureStructure.Sound.coindex ih ht
  | structure? _ hs ih => exact Interpretation.Sound.structure? ih hs
  | ofStructure index _ ih => exact Interpretation.sound_ofStructure ih.arena index
  | merge _ _ ihb ihs => exact Extension.sound_merge ihb ihs.arena
  | eval cs _ ih => exact (Interpretation.Proceeds.eval ih cs).sound

/-- Every arena is sound, and what has become one in it stays one: arenas worked on by hand, where
degenerate content may be given to `alloc`, and those of structures and interpretations, where it is
not. No structure has a forwarding node. -/
theorem arenas_sound (given : Content → Prop) :
    (∀ w, Workspace.Runs given .start w → w.arena.Sound given ∧
      ∀ v, Workspace.Runs given w v → w.arena.Later v.arena ∧
        ∀ n t : NodeId, w.arena.cells[n]? = some (.forwards t) →
          v.arena.resolve n = v.arena.resolve t) ∧
    (∀ s : FeatureStructure, Arises (W := W) (.inl s) → s.arena.Sound (fun _ => False) ∧
      s.root < s.arena.size ∧ ∀ n t : NodeId, s.arena.cells[n]? ≠ some (.forwards t)) ∧
    ∀ i : Interpretation W, Arises (.inr i) → i.arena.Sound (fun _ => False) ∧
      (∀ s n, i.slots.get? s = some n → n < i.arena.size) ∧
      ∀ cs, i.arena.Later (i.eval cs).2.arena := by
  refine ⟨fun w hw => ⟨hw.sound, fun v hv => ⟨hw.later hv, fun n t ht => ?_⟩⟩, fun s hs => ?_,
    fun i hi => ?_⟩
  · exact (hw.later hv).resolve_eq (hw.sound.settled.resolve_of_forwards ht)
  · have hsound : s.Sound (fun _ => False) := hs.sound
    exact ⟨hsound.arena, hsound.root_lt, hsound.not_forwards⟩
  · have hsound : i.Sound (fun _ => False) := hi.sound
    exact ⟨hsound.arena, hsound.root_lt, fun cs => (Interpretation.Proceeds.eval hsound cs).later⟩

/-- Two structures that agree on one feature and clash on the next. -/
def sides : Workspace :=
  let w := Workspace.start.put (Arena.empty.alloc .empty).2
  let w := w.put (w.arena.alloc .empty).2
  let w := w.put (w.arena.createValue 0 [⟨1⟩] ⟨1⟩).2
  let w := w.put (w.arena.createValue 0 [⟨2⟩] ⟨1⟩).2
  let w := w.put (w.arena.createValue 1 [⟨1⟩] .null).2
  w.put (w.arena.createValue 1 [⟨2⟩] ⟨2⟩).2

/-- Their merge has failed, with one feature merged. -/
def torn : Workspace := sides.put (sides.arena.unify 0 1).2

theorem runs_torn : Workspace.Runs (fun _ => False) .start torn := by
  have h₀ : Workspace.Runs (fun _ => False) .start .start := .refl _
  have h₁ := (h₀.alloc Content.allowed_empty).alloc Content.allowed_empty
  have h₂ := h₁.createValue (n := 0) (by decide) [⟨1⟩] ⟨1⟩
  have h₃ := h₂.createValue (n := 0) (by decide) [⟨2⟩] ⟨1⟩
  have h₄ := h₃.createValue (n := 1) (by decide) [⟨1⟩] .null
  have h₅ : Workspace.Runs (fun _ => False) .start sides :=
    h₄.createValue (n := 1) (by decide) [⟨2⟩] ⟨2⟩
  have hfails : Arena.unifyWithin 2 sides.arena 0 1 = some (false, torn.arena) := by decide
  exact h₅.unify (by decide) (by decide) hfails

/-- What was merged before the clash stays merged. -/
theorem arenas_sound_torn : torn.arena.Sound (fun _ => False) ∧
    torn.arena.cells[4]? = some (.forwards 2) ∧
    ∀ v, Workspace.Runs (fun _ => False) torn v → v.arena.resolve 4 = v.arena.resolve 2 := by
  have hf : torn.arena.cells[4]? = some (.forwards 2) := by decide
  obtain ⟨hsound, hlater⟩ := (arenas_sound (W := Rat) (fun _ => False)).1 torn runs_torn
  exact ⟨hsound, hf, fun v hv => (hlater v hv).2 4 2 hf⟩

end FeatureLogic
