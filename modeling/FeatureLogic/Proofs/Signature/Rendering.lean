import FeatureLogic.Proofs.Arena.Listing
import FeatureLogic.Proofs.Signature.Vocabulary
/-!
Results in names. Whatever a search returns is numbered in the vocabulary of its problem, so nothing
in it is without a name, and all names are those of the document. Nothing bounds how many names there
are: if the numbers run out, later names share numbers with earlier ones, and the earlier ones are
written.

Writing a result out ends only if there is an end to its paths. Constraints that make a structure
its own part are not rejected, and their results have leaves without end.
-/
set_option autoImplicit false

namespace FeatureLogic

variable {W : Type}

theorem exists_mapM_eq_ok {ε α β : Type} {f : α → Except ε β} {P : α → β → Prop} {as : List α}
    (h : ∀ a ∈ as, ∃ b, f a = .ok b ∧ P a b) :
    ∃ bs, as.mapM f = .ok bs ∧ List.Forall₂ P as bs := by
  induction as with
  | nil => exact ⟨[], rfl, .nil⟩
  | cons a as ih =>
    obtain ⟨⟨b, hb, hab⟩, h⟩ := List.forall_mem_cons.1 h
    obtain ⟨bs, hbs, habs⟩ := ih h
    refine ⟨b :: bs, ?_, .cons hab habs⟩
    rw [List.mapM_cons, hb, hbs]
    rfl

namespace Document

/-- The text of a leaf below `n`. Its features and its atom are written in their names, all of them
from the document; where nothing stands there is an underscore. -/
structure Names (d : Document W) (v : Vocabulary) (g : Arena) (n : NodeId) (leaf : Path × Atom)
    (text : String × String) : Prop where
  path : ∃ names, text.1 = "<" ++ " ".intercalate names ++ ">" ∧
    List.Forall₂ (fun f name => name ∈ d.featureNames ∧ v.featureId? name = some f) leaf.1 names
  atom : (text.2 ∈ d.atomNames ∧ v.atomId? text.2 = some leaf.2) ∨
    (text.2 = "_" ∧ leaf.2 = .null ∧ ∃ m, g.lookup n leaf.1 = .found m ∧ g.content m = .empty)

/-- Slot by slot and leaf by leaf. -/
structure Reads (d : Document W) (v : Vocabulary) (i : Interpretation W) (reading : Reading W) :
    Prop where
  probability : reading.probability = i.probability
  slots : List.Forall₂ (fun slot texts => texts.1 = slot.1 ∧
    List.Forall₂ (d.Names v i.arena slot.2) (i.arena.leaves slot.2) texts.2)
    i.slots.entries reading.slots

end Document

namespace Vocabulary

variable {v : Vocabulary} {d : Document W} {g : Arena} {n : NodeId}

theorem idxOf?_of_nodup {names : Array String} (hnodup : names.toList.Nodup) {k : Nat}
    (hk : k < names.size) : names.idxOf? names[k] = some k := by
  obtain ⟨names⟩ := names
  rw [List.idxOf?_toArray, List.idxOf?_eq_some_iff]
  refine ⟨hk, rfl, fun j hj he => ?_⟩
  exact Nat.ne_of_lt hj (hnodup.getElem_inj_iff.1 he)

theorem exists_featureName (hv : v.Within d.featureNames d.atomNames) {f : Feature}
    (hf : v.signature.feature f) : ∃ name, v.featureName f = .ok name ∧
      name ∈ d.featureNames ∧ v.featureId? name = some f := by
  have hname := Array.getElem?_eq_getElem hf
  refine ⟨_, by rw [featureName, hname], hv.feature_mem (Array.mem_of_getElem? hname), ?_⟩
  rw [featureId?, idxOf?_of_nodup hv.features_nodup hf]
  exact congrArg (fun k => some (Feature.mk k)) (UInt32.ofNat_toNat)

theorem exists_atomName (hv : v.Within d.featureNames d.atomNames) {a : Atom}
    (ha : v.signature.atom a) (hne : a ≠ .null) : ∃ name, v.atomName a = .ok name ∧
      name ∈ d.atomNames ∧ v.atomId? name = some a := by
  have hid : a.id.toNat ≠ 0 := fun h => hne (congrArg Atom.mk (UInt32.toNat_inj.1 h))
  have hlt : a.id.toNat - 1 < v.atoms.size := Nat.lt_of_lt_of_le (Nat.sub_one_lt hid) ha
  have hname := Array.getElem?_eq_getElem hlt
  refine ⟨_, ?_, hv.atom_mem (Array.mem_of_getElem? hname), ?_⟩
  · rw [atomName, Atom.isNull, decide_eq_false hne, hname]
    rfl
  · rw [atomId?, idxOf?_of_nodup hv.atoms_nodup hlt, Option.map_some, Nat.sub_one_add_one hid,
      UInt32.ofNat_toNat]

section Within
variable (hv : v.Within d.featureNames d.atomNames)
include hv

theorem exists_renderPath {p : Path} (hp : p.Over v.signature) :
    ∃ names, v.renderPath p = .ok ("<" ++ " ".intercalate names ++ ">") ∧
      List.Forall₂ (fun f name => name ∈ d.featureNames ∧ v.featureId? name = some f) p names := by
  obtain ⟨names, hrun, hnames⟩ := exists_mapM_eq_ok fun f hf => exists_featureName hv (hp f hf)
  refine ⟨names, ?_, hnames⟩
  rw [renderPath, hrun]
  rfl

theorem exists_renderLeaf (hg : g.Over v.signature) (hs : g.Settled) {leaf : Path × Atom}
    (hleaf : leaf ∈ g.leaves n) :
    ∃ text, v.renderLeaf leaf = .ok text ∧ d.Names v g n leaf text := by
  obtain ⟨p, a⟩ := leaf
  obtain ⟨m, hm, hend, rfl⟩ := Arena.lookup_of_mem_leavesWithin hs hleaf
  obtain ⟨names, hpath, hnames⟩ := exists_renderPath hv (hg.of_lookup hm)
  have hread := hg.content m
  have hrun : ∀ {text}, v.atomName (g.content m).atom? = .ok text →
      v.renderLeaf (p, (g.content m).atom?) = .ok ("<" ++ " ".intercalate names ++ ">", text) := by
    intro text htext
    rw [renderLeaf, hpath]
    simp only [bind, Except.bind, htext]
    rfl
  cases hcon : g.content m with
  | complex children => simp [hcon, Content.isComplex] at hend
  | empty =>
    rw [hcon] at hrun
    exact ⟨_, hrun rfl, ⟨names, rfl, hnames⟩, .inr ⟨rfl, rfl, m, hm, hcon⟩⟩
  | atom b =>
    rw [hcon] at hread hrun
    obtain ⟨hne, hb⟩ := hread.atom rfl
    obtain ⟨name, hname, hmem⟩ := exists_atomName hv hb hne
    exact ⟨_, hrun hname, ⟨names, rfl, hnames⟩, .inl hmem⟩

theorem exists_renderSlot (hg : g.Over v.signature) (hs : g.Settled)
    (slot : SlotIndex × NodeId) : ∃ texts, v.renderSlot g slot = .ok texts ∧ texts.1 = slot.1 ∧
      List.Forall₂ (d.Names v g slot.2) (g.leaves slot.2) texts.2 := by
  obtain ⟨texts, hrun, htexts⟩ :=
    exists_mapM_eq_ok fun leaf hleaf => exists_renderLeaf hv hg hs (n := slot.2) hleaf
  refine ⟨(slot.1, texts), ?_, rfl, htexts⟩
  rw [renderSlot, hrun]
  rfl

theorem exists_render {i : Interpretation W} (hi : i.arena.Over v.signature)
    (hs : i.arena.Settled) : ∃ reading, v.render i = .ok reading ∧ d.Reads v i reading := by
  obtain ⟨slots, hrun, hslots⟩ := exists_mapM_eq_ok fun slot _ => exists_renderSlot hv hi hs slot
  refine ⟨⟨i.probability, slots⟩, ?_, rfl, hslots⟩
  rw [render, hrun]
  rfl

end Within

/-! ## Without a bound -/

/-- Writing out slots in turn ends with `outcome`: an error at the first name that is not known, or
the texts of them all. Nothing bounds how deep the leaves of a slot are. -/
inductive RendersSlots (v : Vocabulary) (g : Arena) : List (SlotIndex × NodeId) →
    Except UnknownSymbol (List (SlotIndex × List (String × String))) → Prop
  | done : RendersSlots v g [] (.ok [])
  | unknown {slot : SlotIndex × NodeId} {rest : List (SlotIndex × NodeId)}
    {leaves : List (Path × Atom)} {e : UnknownSymbol} (hlist : g.Lists slot.2 leaves)
    (hnames : leaves.mapM v.renderLeaf = .error e) : RendersSlots v g (slot :: rest) (.error e)
  | next {slot : SlotIndex × NodeId} {rest : List (SlotIndex × NodeId)}
    {leaves : List (Path × Atom)} {texts : List (String × String)}
    {outcome : Except UnknownSymbol (List (SlotIndex × List (String × String)))}
    (hlist : g.Lists slot.2 leaves) (hnames : leaves.mapM v.renderLeaf = .ok texts)
    (hrest : RendersSlots v g rest outcome) :
    RendersSlots v g (slot :: rest) (outcome.map ((slot.1, texts) :: ·))

/-- Writing out `i` ends with `outcome`. -/
def Renders (v : Vocabulary) (i : Interpretation W)
    (outcome : Except UnknownSymbol (Reading W)) : Prop :=
  ∃ slots, v.RendersSlots i.arena i.slots.entries slots ∧
    outcome = slots.map (Reading.mk i.probability)

section Unbounded
variable {given : Content → Prop} {slots : List (SlotIndex × NodeId)}
  {outcome : Except UnknownSymbol (List (SlotIndex × List (String × String)))} (hg : g.Sound given)
include hg

theorem RendersSlots.eq_mapM (h : v.RendersSlots g slots outcome)
    (hlt : ∀ slot ∈ slots, slot.2 < g.size) : outcome = slots.mapM (v.renderSlot g) := by
  induction h with
  | done => rfl
  | unknown hlist hnames =>
    obtain ⟨-, rfl⟩ := (Arena.lists_iff hg (hlt _ List.mem_cons_self)).1 hlist
    rw [List.mapM_cons, renderSlot, hnames]
    rfl
  | @next slot rest leaves texts outcome hlist hnames _ ih =>
    obtain ⟨-, rfl⟩ := (Arena.lists_iff hg (hlt _ List.mem_cons_self)).1 hlist
    have hrest := ih fun slot hslot => hlt slot (List.mem_cons_of_mem _ hslot)
    rw [List.mapM_cons, renderSlot, hnames, ← hrest]
    cases outcome <;> rfl

/-- With no error, every slot has been listed. -/
theorem RendersSlots.grounded {texts : List (SlotIndex × List (String × String))}
    (h : v.RendersSlots g slots outcome) (hok : outcome = .ok texts) :
    ∀ slot ∈ slots, g.Grounded slot.2 := by
  induction h generalizing texts with
  | done => exact List.forall_mem_nil _
  | unknown => cases hok
  | @next _ _ _ _ outcome hlist _ _ ih =>
    cases outcome with
    | error e => cases hok
    | ok texts => exact List.forall_mem_cons.2 ⟨hlist.grounded hg.settled, ih rfl⟩

theorem exists_rendersSlots (v : Vocabulary) (hlt : ∀ slot ∈ slots, slot.2 < g.size)
    (hA : ∀ slot ∈ slots, g.Grounded slot.2) : ∃ outcome, v.RendersSlots g slots outcome := by
  induction slots with
  | nil => exact ⟨_, .done⟩
  | cons slot rest ih =>
    obtain ⟨hslot, hlt⟩ := List.forall_mem_cons.1 hlt
    obtain ⟨hground, hA⟩ := List.forall_mem_cons.1 hA
    have hlist := (Arena.lists_iff hg hslot).2 ⟨hground, rfl⟩
    cases hnames : (g.leaves slot.2).mapM v.renderLeaf with
    | error e => exact ⟨_, .unknown hlist hnames⟩
    | ok texts =>
      obtain ⟨outcome, hrest⟩ := ih hlt hA
      exact ⟨_, .next hlist hnames hrest⟩

end Unbounded

section Renders
variable {given : Content → Prop} {i : Interpretation W} (hi : i.Sound given)
include hi

theorem Renders.eq_render {outcome : Except UnknownSymbol (Reading W)}
    (h : v.Renders i outcome) : outcome = v.render i := by
  obtain ⟨slots, hslots, rfl⟩ := h
  rw [render, ← hslots.eq_mapM hi.arena hi.entry_lt]
  cases slots <;> rfl

/-- If no number is without a name, writing out ends unless there is a cycle. -/
theorem exists_renders_iff {reading : Reading W} (hrun : v.render i = .ok reading) :
    (∃ outcome, v.Renders i outcome) ↔ ∀ slot ∈ i.slots.entries, i.arena.Grounded slot.2 := by
  constructor
  · rintro ⟨outcome, h⟩
    have hok := (h.eq_render hi).trans hrun
    obtain ⟨slots, hslots, rfl⟩ := h
    cases slots with
    | error e => cases hok
    | ok texts => exact hslots.grounded hi.arena rfl
  · intro hA
    obtain ⟨slots, hslots⟩ := exists_rendersSlots hi.arena v hi.entry_lt hA
    exact ⟨_, slots, hslots, rfl⟩

end Renders

end Vocabulary

namespace Problem

variable [Weight W]

/-- Nothing in a result of a problem is without a name in its document. -/
theorem exists_reading {d : Document W} {p q : Problem W} (hp : ofDocument d = .ok p)
    (hq : q = p ∨ q = p.addWildcards) (settings : SearchSettings) :
    ∀ i ∈ (q.eval settings).results, i.Sound (fun _ => False) ∧
      ∃ reading, q.vocabulary.render i = .ok reading ∧ d.Reads q.vocabulary i reading := by
  have hq : Compiled d q := by
    rcases hq with rfl | rfl
    · exact compiled_ofDocument hp
    · exact (compiled_ofDocument hp).addWildcards
  intro i hi
  have hover := Search.over_results (fun e he s hs => (hq.table e he s hs).1) hq.constraints i hi
  have hsound := Search.sound_results (fun e he s hs => (hq.table e he s hs).2) i hi
  exact ⟨hsound, Vocabulary.exists_render hq.names hover hsound.arena.settled⟩

/-- Whatever document it comes from, writing out a result of a problem comes upon no number without
a name, and all the names are from that document. It ends exactly if the result has no cycle. -/
theorem render_results {d : Document W} {p q : Problem W} (hp : ofDocument d = .ok p)
    (hq : q = p ∨ q = p.addWildcards) (settings : SearchSettings) :
    ∀ i ∈ (q.eval settings).results,
      (∀ outcome, q.vocabulary.Renders i outcome → ∃ reading, outcome = .ok reading ∧
        q.vocabulary.render i = .ok reading ∧ d.Reads q.vocabulary i reading) ∧
      ((∃ outcome, q.vocabulary.Renders i outcome) ↔
        ∀ slot ∈ i.slots.entries, i.arena.Grounded slot.2) := by
  intro i hi
  obtain ⟨hsound, reading, hrun, hreads⟩ := exists_reading hp hq settings i hi
  refine ⟨fun outcome h => ?_, Vocabulary.exists_renders_iff hsound hrun⟩
  exact ⟨reading, (h.eq_render hsound).trans hrun, hrun, hreads⟩

/-- One slot with a candidate that has an empty leaf, and a second one without candidates. -/
def sketch : Document Float where
  slots := [⟨1, [⟨[⟨["F"], some "a"⟩, ⟨["G"], none⟩], []⟩]⟩]
  constraints := [.relative ⟨1, ["F"]⟩ ⟨2, ["H", "F"]⟩]

theorem render_results_sketch : ∃ p, ofDocument sketch = .ok p ∧
    ∃ i ∈ (p.addWildcards.eval ⟨true⟩).results, ∃ reading,
      p.addWildcards.vocabulary.Renders i (.ok reading) ∧
        sketch.Reads p.addWildcards.vocabulary i reading := by
  let level (n : NodeId) : Nat := if n = 3 then 2 else if n = 2 ∨ n = 4 then 1 else 0
  have hany : (match ofDocument sketch with
      | .ok p => (p.addWildcards.eval ⟨true⟩).results.any fun i =>
        (∀ n < i.arena.size, level (i.arena.resolve n) = level n) ∧
          ∀ n < i.arena.size, ∀ e ∈ (i.arena.content n).children, level e.2 < level n
      | .error _ => false) = true := by decide +kernel
  cases hp : ofDocument sketch with
  | error e => simp [hp] at hany
  | ok p =>
    rw [hp] at hany
    obtain ⟨i, hi, hlevel⟩ := List.any_eq_true.1 hany
    obtain ⟨hres, hchild⟩ := of_decide_eq_true hlevel
    have hA : i.arena.Acyclic := Arena.acyclic_of_level level hres hchild
    have hsound := (exists_reading hp (.inr rfl) ⟨true⟩ i hi).1
    obtain ⟨hends, hiff⟩ := render_results hp (.inr rfl) ⟨true⟩ i hi
    obtain ⟨outcome, hout⟩ := hiff.2 fun slot _ => hA.grounded hsound.arena slot.2
    obtain ⟨reading, rfl, -, hreads⟩ := hends outcome hout
    exact ⟨p, rfl, i, hi, reading, hout, hreads⟩

example : (match ofDocument sketch with
    | .ok p => (p.addWildcards.eval ⟨true⟩).results.map fun i =>
        ((p.vocabulary.render i).toOption.map Reading.slots)
    | .error _ => []) =
      [some [(1, [("<F>", "a"), ("<G>", "_")]), (2, [("<H F>", "a")])]] := by decide +kernel

/-- A slot that shall be its own part. -/
def looped : Document Float where
  slots := [⟨1, [⟨[⟨["F"], some "a"⟩], []⟩]⟩]
  constraints := [.relative ⟨1, []⟩ ⟨1, ["G"]⟩]

/-- The slot has become one with its child, and the list of its leaves has no end. -/
theorem render_endless : ∃ p, ofDocument looped = .ok p ∧
    ∃ i ∈ (p.eval ⟨true⟩).results, ¬ ∃ outcome, p.vocabulary.Renders i outcome := by
  have hany : (match ofDocument looped with
      | .ok p => (p.eval ⟨true⟩).results.any fun i => ∃ slot ∈ i.slots.entries,
        i.arena.lookup slot.2 [⟨1⟩] = .found (i.arena.resolve slot.2)
      | .error _ => false) = true := by decide +kernel
  cases hp : ofDocument looped with
  | error e => simp [hp] at hany
  | ok p =>
    rw [hp] at hany
    obtain ⟨i, hi, hloop⟩ := List.any_eq_true.1 hany
    obtain ⟨slot, hslot, hback⟩ := of_decide_eq_true hloop
    obtain ⟨hsound, reading, hrun, -⟩ := exists_reading hp (.inl rfl) ⟨true⟩ i hi
    refine ⟨p, rfl, i, hi, fun hends => ?_⟩
    have hA := (Vocabulary.exists_renders_iff hsound hrun).1 hends slot hslot
    exact List.cons_ne_nil _ _ (hA.eq_nil hsound.arena.settled hback)

end Problem

end FeatureLogic
