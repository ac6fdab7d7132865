import FeatureLogic.Proofs.Arena.Congruence
import FeatureLogic.Proofs.Arena.Retention
import FeatureLogic.Proofs.Arena.Runs
/-!
Information only grows. Whatever the operations on an arena do, and wherever they stop, as long as
no cycle has been made all that could be read before can be read still.
-/
set_option autoImplicit false

namespace FeatureLogic

open Arena (Adds)

variable {given : Content → Prop}

namespace Arena

variable {g h : Arena} {n : NodeId} {p : Path}

namespace Spares

theorem blocked (hh : h.Settled) (hgh : g.Spares h) (hn : h.Grounded n)
    (hl : g.lookup n p = .blocked) : h.lookup n p = .blocked := by
  induction p generalizing n with
  | nil => cases hl
  | cons f p ih =>
    cases hcon : g.content n with
    | empty =>
      rw [lookup_of_empty hcon] at hl
      cases hl
    | atom a => exact lookup_of_atom (hgh.atom hcon) f p
    | complex children =>
      cases hc : g.child? n f with
      | none =>
        rw [child?_eq, hcon] at hc
        simp only [Content.child?] at hc
        simp [Arena.lookup, hcon, hc] at hl
      | some c =>
        rw [lookup_cons_of_child hc] at hl
        obtain ⟨d, hd, hdc⟩ := hgh.child hn hc
        rw [lookup_cons_of_child hd, hh.lookup_congr hdc]
        exact ih ((hn.child hd).congr hh hdc) hl

end Spares

end Arena

/-! ## Copies -/

namespace Copying

/-- `h` is `g` with nodes added to it. -/
def Allocates : Arena → Arena → Prop := Relation.ReflTransGen fun g h => ∃ c, h = (g.alloc c).2

theorem Allocates.spares {g h : Arena} (hg : g.Settled) (hgh : Allocates g h) :
    g.Spares h ∧ h.Settled := by
  induction hgh with
  | refl => exact ⟨.refl hg, hg⟩
  | tail _ hstep ih =>
    obtain ⟨c, rfl⟩ := hstep
    exact ⟨ih.1.trans (.alloc ih.2 c), Arena.settled_alloc ih.2 c⟩

theorem allocates_copyChildren {copy : Selection → NodeId → Copying → NodeId × Copying}
    (hcopy : ∀ s n c, Allocates c.target (copy s n c).2.target) (s : Selection)
    (es : List (Feature × NodeId)) (c : Copying) :
    Allocates c.target (copyChildren copy s es c).2.target := by
  induction es generalizing c with
  | nil => exact .refl
  | cons e es ih =>
    rw [copyChildren]
    split
    · exact ih c
    · exact (hcopy _ _ c).trans (ih _)

theorem allocates_copyWithin (source : Arena) (depth : Nat) (s : Selection) (n : NodeId)
    (c : Copying) : Allocates c.target (copyWithin source depth s n c).2.target := by
  induction depth generalizing s n c with
  | zero => exact .single ⟨_, rfl⟩
  | succ depth ih =>
    rw [copyWithin]
    dsimp only
    split
    · exact .refl
    · split
      · exact (allocates_copyChildren ih s _ c).tail ⟨_, rfl⟩
      · exact .single ⟨_, rfl⟩

end Copying

/-! ## Runs -/

/-- What is found in `g` is found in `h`, where each node has become, or still is, one that holds
all that it held. What is blocked stays blocked, and nodes reached by two paths are still shared. -/
structure Arena.Retains (g h : Arena) : Prop where
  found {n m : NodeId} {p : Path} : g.lookup n p = .found m → h.lookup n p = .found (h.resolve m)
  atom {n m m' : NodeId} {p : Path} {a : Atom} : g.lookup n p = .found m →
    h.lookup n p = .found m' → g.content m = .atom a → h.content m' = .atom a
  complex {n m m' : NodeId} {p : Path} : g.lookup n p = .found m →
    h.lookup n p = .found m' → (g.content m).isComplex = true → (h.content m').isComplex = true ∧
      ∀ f, (g.child? m f).isSome = true → (h.child? m' f).isSome = true
  blocked {n : NodeId} {p : Path} : g.lookup n p = .blocked → h.lookup n p = .blocked
  shared {n n' m : NodeId} {p q : Path} : g.lookup n p = .found m → g.lookup n' q = .found m →
    ∃ m', h.lookup n p = .found m' ∧ h.lookup n' q = .found m'

theorem Arena.Spares.retains {g h : Arena} (hh : h.Settled) (hgh : g.Spares h)
    (hgrounded : ∀ n, h.Grounded n) : g.Retains h := by
  have hfound : ∀ {n m p}, g.lookup n p = .found m → h.lookup n p = .found (h.resolve m) :=
    fun hl => hgh.lookup hh (hgrounded _) hl
  have hat : ∀ {n m m' p}, g.lookup n p = .found m → h.lookup n p = .found m' →
      m' = h.resolve m := fun hl hl' => Lookup.found.inj (hl'.symm.trans (hfound hl))
  refine ⟨hfound, fun hl hl' ha => ?_, fun hl hl' hc => ?_, hgh.blocked hh (hgrounded _),
    fun hl hl' => ⟨_, hfound hl, hfound hl'⟩⟩
  · rw [hat hl hl', hh.content_resolve]
    exact hgh.atom ha
  · rw [hat hl hl', hh.content_resolve]
    refine ⟨hgh.complex hc, fun f hf => ?_⟩
    obtain ⟨c, hc⟩ := Option.isSome_iff_exists.1 hf
    obtain ⟨d, hd, -⟩ := hgh.child (hgrounded _) hc
    rw [hh.child?_congr (hh.resolve_resolve _), hd]
    rfl

namespace Workspace
variable {w v : Workspace}

theorem Runs.spares (hw : w.Sound given) (h : Runs given w v) : w.arena.Spares v.arena := by
  have hstep : ∀ {g h i : Arena}, g.Spares h → h.Sound given → Adds given h i → g.Spares i :=
    fun hgh hh hhi => hgh.trans (.of_adds hh.settled hhi)
  induction h with
  | refl w => exact .refl hw.arena.settled
  | alloc h hc ih =>
    have hv := (h.follows hw).1.arena
    exact hstep (ih hw) hv (.alloc hv hc)
  | dechain h hn ih =>
    have hv := (h.follows hw).1.arena
    exact hstep (ih hw) hv (Adds.dechain hv hn rfl).1
  | materialize h hn p ih =>
    have hv := (h.follows hw).1.arena
    exact hstep (ih hw) hv (Adds.materialize hv hn rfl).1
  | linkPath h hn p ht ih =>
    have hv := (h.follows hw).1.arena
    exact hstep (ih hw) hv (.linkPath hv hn ht rfl)
  | createValue h hn p a ih =>
    have hv := (h.follows hw).1.arena
    exact hstep (ih hw) hv (.createValue hv hn a rfl)
  | assignAtom h hn a ih =>
    have hv := (h.follows hw).1.arena
    exact hstep (ih hw) hv (.assignAtom hv hn a rfl)
  | unify h hl hr hrun ih =>
    exact (ih hw).trans (Arena.unifyWithin_spares (h.follows hw).1.arena hl hr hrun).spares
  | @select _ v source n copies h _ _ s _ ih _ =>
    have hcopy := Copying.allocates_copyWithin source.arena source.arena.size s n ⟨v.arena, copies⟩
    exact (ih hw).trans (hcopy.spares (h.follows hw).1.arena.settled).1

/-- Of what could be read before a run, nothing is lost if the run ends without a cycle, not even
when merges in it have failed halfway. -/
theorem Runs.retains_information (hw : w.Sound given) (h : Runs given w v) (hv : v.arena.Acyclic) :
    w.arena.Acyclic ∧ w.arena.Retains v.arena := by
  have hsound := (h.follows hw).1.arena
  have hspares := h.spares hw
  have hgrounded := hv.grounded hsound
  exact ⟨Arena.acyclic_of_grounded hw.arena.settled fun n => hspares.grounded (hgrounded n),
    hspares.retains hsound.settled hgrounded⟩

/-- `forked` with one more atom below either of its nodes, and these are different. The merge of the
nodes has failed there, after their first children had been merged. -/
def split : Workspace :=
  let w : Workspace := ⟨.forked, []⟩
  let w := w.put (w.arena.createValue 0 [⟨2⟩] ⟨1⟩).2
  let w := w.put (w.arena.createValue 1 [⟨2⟩] ⟨2⟩).2
  w.put (w.arena.unify 0 4).2

theorem runs_split : Runs (fun _ => False) ⟨.forked, []⟩ split := by
  have h₀ : Runs (fun _ => False) ⟨.forked, []⟩ ⟨.forked, []⟩ := .refl _
  have h₁ := h₀.createValue (n := 0) (by decide) [⟨2⟩] ⟨1⟩
  have h₂ := h₁.createValue (n := 1) (by decide) [⟨2⟩] ⟨2⟩
  exact h₂.unify (by decide) (by decide)
    (show Arena.unifyWithin 2 _ 0 4 = some (false, split.arena) by decide)

theorem Runs.retains_information_split :
    split.arena.Acyclic ∧ Arena.Retains .forked split.arena := by
  have hw : Sound (fun _ => False) ⟨.forked, []⟩ :=
    ⟨Arena.forked_sound, fun h => absurd h List.not_mem_nil⟩
  have hA : split.arena.Acyclic :=
    Arena.acyclic_of_level (fun n => if n = 0 ∨ n = 1 ∨ n = 4 then 1 else 0) (by decide) (by decide)
  exact ⟨hA, (runs_split.retains_information hw hA).2⟩

end Workspace

end FeatureLogic
