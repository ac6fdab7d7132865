import FeatureLogic.Arena.Copying
import FeatureLogic.Proofs.Arena.Calls
import FeatureLogic.Proofs.Arena.Lookup
/-!
Signatures: the features and atoms that something may hold. An arena comes to hold no others than
those it is given, whatever becomes of a step, in cyclic arenas and in those that a failed merge
leaves as well.
-/
set_option autoImplicit false

namespace FeatureLogic

structure Signature where
  feature : Feature → Prop
  atom : Atom → Prop

/-- `τ` has all that `σ` has. -/
structure Signature.Extends (σ τ : Signature) : Prop where
  feature {f : Feature} : σ.feature f → τ.feature f
  atom {a : Atom} : σ.atom a → τ.atom a

namespace Signature.Extends

variable {σ τ υ : Signature}

theorem refl (σ : Signature) : σ.Extends σ := ⟨id, id⟩

theorem trans (h : σ.Extends τ) (h' : τ.Extends υ) : σ.Extends υ :=
  ⟨fun hf => h'.feature (h.feature hf), fun ha => h'.atom (h.atom ha)⟩

end Signature.Extends

variable {σ τ : Signature} {f : Feature} {p : Path} {a : Atom}

namespace Path

def Over (σ : Signature) (p : Path) : Prop := ∀ f ∈ p, σ.feature f

theorem over_nil : Over σ [] := by simp [Over]

theorem over_cons : Over σ (f :: p) ↔ σ.feature f ∧ Over σ p := List.forall_mem_cons

theorem over_concat : Over σ (p ++ [f]) ↔ Over σ p ∧ σ.feature f := by
  simp [Over, or_imp, forall_and]

theorem Over.mono (hp : Over σ p) (h : σ.Extends τ) : Over τ p := fun f hf => h.feature (hp f hf)

end Path

namespace Content

variable {c : Content}

/-- Null is no atom that content holds: a leaf without an atom is empty. -/
structure Over (σ : Signature) (c : Content) : Prop where
  feature {e : Feature × NodeId} : e ∈ c.children → σ.feature e.1
  atom {a : Atom} : c = .atom a → a ≠ .null ∧ σ.atom a

theorem Over.mono (hc : c.Over σ) (h : σ.Extends τ) : c.Over τ :=
  ⟨fun he => h.feature (hc.feature he), fun ha => (hc.atom ha).imp id h.atom⟩

theorem over_empty : empty.Over σ := ⟨fun he => absurd he List.not_mem_nil, fun ha => by cases ha⟩

theorem over_complex {children : SortedMap Feature NodeId} :
    (complex children).Over σ ↔ ∀ e ∈ children.entries, σ.feature e.1 :=
  ⟨fun hc _ => hc.feature, fun h => ⟨fun {e} he => h e he, fun ha => by cases ha⟩⟩

theorem over_leaf (ha : σ.atom a) : (leaf a).Over σ := by
  refine ⟨fun {e} he => ?_, fun hb => ?_⟩
  · unfold leaf at he
    split at he <;> exact absurd he List.not_mem_nil
  · obtain ⟨rfl, hne⟩ := leaf_eq_atom.1 hb
    exact ⟨hne, ha⟩

theorem Over.insert {children : SortedMap Feature NodeId} (hc : (complex children).Over σ)
    (hf : σ.feature f) (n : NodeId) : (complex (children.insert f n)).Over σ := by
  refine over_complex.2 fun e he => ?_
  rcases mem_insertEntry he with rfl | he
  · exact hf
  · exact hc.feature he

theorem over_ofList {kept : List (Feature × NodeId)} (h : ∀ e ∈ kept, σ.feature e.1) :
    (complex (SortedMap.ofList kept)).Over σ :=
  over_complex.2 fun e he =>
    h e (SortedMap.mem_of_get?_ofList ((SortedMap.get?_eq_some_iff _).2 he))

end Content

namespace Arena

def Over (σ : Signature) (g : Arena) : Prop :=
  ∀ (n : NodeId) (c : Content), g.cells[n]? = some (.holds c) → c.Over σ

variable {g h : Arena} {n m l r t : NodeId} {b : Bool}

theorem over_empty : empty.Over σ := by
  intro n c hc
  simp [empty] at hc

namespace Over
variable (hg : g.Over σ)
include hg

theorem mono (hσ : σ.Extends τ) : g.Over τ := fun n c hc => (hg n c hc).mono hσ

theorem content (n : NodeId) : (g.content n).Over σ := by
  unfold Arena.content
  split
  · rename_i c hc
    exact hg _ c hc
  · exact Content.over_empty

/-- What is found has a path in the signature. -/
theorem of_lookup (hl : g.lookup n p = .found m) : p.Over σ := by
  induction p generalizing n with
  | nil => exact Path.over_nil
  | cons f p ih =>
    obtain ⟨c, hc, hrest⟩ := lookup_cons_eq_found.1 hl
    exact Path.over_cons.2 ⟨(hg.content n).feature (mem_children_iff (e := (f, c)).2 hc), ih hrest⟩

/-! ## Building -/

theorem set {cell : Cell} (hc : ∀ c, cell = .holds c → c.Over σ) : (g.set n cell).Over σ := by
  intro m c hm
  rw [Arena.set, Array.getElem?_setIfInBounds] at hm
  split at hm
  · split at hm
    · cases hm
      exact hc c rfl
    · cases hm
  · exact hg m c hm

theorem forward (n t : NodeId) : (g.set n (.forwards t)).Over σ :=
  hg.set fun c hc => by cases hc

theorem alloc {c : Content} (hc : c.Over σ) : (g.alloc c).2.Over σ := by
  intro m d hm
  rw [Arena.alloc, Array.getElem?_push] at hm
  split at hm
  · cases hm
    exact hc
  · exact hg m d hm

theorem shorten (k : Nat) : (shorten t k n g).Over σ := by
  induction k generalizing n g with
  | zero => exact hg
  | succ k ih =>
    rw [Arena.shorten]
    split
    · exact hg
    · split
      · exact ih (hg.forward n t)
      · exact hg

theorem dechain (hrun : g.dechain n = (m, h)) : h.Over σ := by
  cases hrun
  exact hg.shorten g.size

theorem attach (hf : σ.feature f) (n m : NodeId) : (g.attach n f m).Over σ := by
  unfold Arena.attach
  split
  · rename_i children hn
    refine hg.set fun c hc => ?_
    cases hc
    exact (hg n _ hn).insert hf m
  · refine hg.set fun c hc => ?_
    cases hc
    exact (Content.over_complex.2 fun e he => absurd he List.not_mem_nil).insert hf m

theorem childOrCreate (hf : σ.feature f) {outcome : Except StructureError NodeId}
    (hrun : g.childOrCreate n f = (outcome, h)) : h.Over σ := by
  rcases hdn : g.dechain n with ⟨n', g₁⟩
  have hd := hg.dechain hdn
  rw [Arena.childOrCreate, hdn] at hrun
  dsimp only at hrun
  split at hrun
  · cases hrun
    exact hd
  · split at hrun <;> cases hrun
    · exact hd
    · exact (hd.alloc Content.over_empty).attach hf n' _

theorem materialize (hp : p.Over σ) {outcome : Except StructureError NodeId}
    (hrun : g.materialize n p = (outcome, h)) : h.Over σ := by
  induction p generalizing g n with
  | nil =>
    rw [Arena.materialize] at hrun
    cases hrun
    exact hg.dechain rfl
  | cons f p ih =>
    obtain ⟨hf, hp⟩ := Path.over_cons.1 hp
    rw [Arena.materialize] at hrun
    split at hrun
    · rename_i hchild
      exact ih (hg.childOrCreate hf hchild) hp hrun
    · rename_i hchild
      cases hrun
      exact hg.childOrCreate hf hchild

theorem linkPath (hp : p.Over σ) {outcome : Except StructureError Unit}
    (hrun : g.linkPath n p t = (outcome, h)) : h.Over σ := by
  rcases p.eq_nil_or_concat' with rfl | ⟨up, last, rfl⟩
  · cases hrun
    exact hg
  · obtain ⟨hup, hlast⟩ := Path.over_concat.1 hp
    have hsplit : Path.splitLast? (up ++ [last]) = some (up, last) := Path.splitLast?_child up last
    rw [Arena.linkPath, hsplit] at hrun
    dsimp only at hrun
    split at hrun
    · rename_i hmat
      cases hrun
      exact hg.materialize hup hmat
    · rename_i parent g₁ hmat
      have h₁ := hg.materialize hup hmat
      split at hrun
      · cases hrun
        exact h₁
      · split at hrun <;> cases hrun
        · exact h₁
        · exact h₁.attach hlast parent t

theorem createValue (hp : p.Over σ) (ha : σ.atom a) {outcome : Except StructureError NodeId}
    (hrun : g.createValue n p a = (outcome, h)) : h.Over σ := by
  have hleaf := hg.alloc (Content.over_leaf ha)
  unfold Arena.createValue at hrun
  dsimp only at hrun
  split at hrun <;> rename_i hlink <;> cases hrun <;> exact hleaf.linkPath hp hlink

theorem assignAtom (ha : σ.atom a) {outcome : Except StructureError Unit}
    (hrun : g.assignAtom n a = (outcome, h)) : h.Over σ := by
  rcases hdn : g.dechain n with ⟨m, g₁⟩
  have hd := hg.dechain hdn
  rw [Arena.assignAtom, hdn] at hrun
  dsimp only at hrun
  split at hrun <;> cases hrun
  · refine hd.set fun c hc => ?_
    cases hc
    exact Content.over_leaf ha
  · exact hd
  · exact hd

/-! ## Merging -/

theorem mergeEnds (hends : g.mergeEnds l r = some (b, h)) : h.Over σ := by
  obtain ⟨-, -, rfl⟩ | ⟨-, rfl, -⟩ | ⟨-, -, ⟨-, rfl⟩ | ⟨-, rfl⟩⟩ := mergeEnds_eq_some hends
  · exact hg
  · exact hg
  · exact hg.forward l r
  · exact hg.forward r l

end Over

/-- The features that the call puts in place. -/
def Call.Over (σ : Signature) : Call → Prop
  | children _ rest => ∀ e ∈ rest, σ.feature e.1
  | merge .. | complex .. => True

theorem Returns.over {call : Call} {d : Nat} (hret : Returns d g call b h) (hg : g.Over σ)
    (hcall : call.Over σ) : h.Over σ := by
  induction hret with
  | merge hl hr hends => exact ((hg.dechain hl).dechain hr).mergeEnds hends
  | descend hl hr _ _ ih => exact ih ((hg.dechain hl).dechain hr) trivial
  | complex _ hl hr ih =>
    have hd := ((ih hg fun _ => (hg.content _).feature).dechain hl).dechain hr
    split
    · exact hd
    · exact hd.forward _ _
  | clash _ ih => exact ih hg fun _ => (hg.content _).feature
  | done => exact hg
  | attach hr _ _ ih =>
    obtain ⟨hf, hrest⟩ := List.forall_mem_cons.1 hcall
    exact ih ((hg.dechain hr).attach hf _ _) hrest
  | next hr _ _ _ ihcall ihrest =>
    exact ihrest (ihcall (hg.dechain hr) trivial) (List.forall_mem_cons.1 hcall).2
  | stop hr _ _ ih => exact ih (hg.dechain hr) trivial

namespace Over
variable (hg : g.Over σ)
include hg

theorem unify (hrun : g.unify l r = (b, h)) : h.Over σ := by
  rw [Arena.unify] at hrun
  cases hwithin : Arena.unifyWithin g.size g l r with
  | none =>
    rw [hwithin] at hrun
    cases hrun
    exact hg
  | some outcome =>
    rw [hwithin] at hrun
    obtain rfl : outcome = (b, h) := hrun
    obtain ⟨d, hret⟩ := exists_returns hwithin
    exact hret.over hg trivial

end Over

end Arena

/-! ## Copying -/

namespace Copying

variable {source : Arena} {c c' : Copying}

/-- What is asked of copying a node. -/
def Kept (σ : Signature) (copy : Selection → NodeId → Copying → NodeId × Copying) : Prop :=
  ∀ s n c, c.target.Over σ → (copy s n c).2.target.Over σ

theorem Kept.copyChildren {copy : Selection → NodeId → Copying → NodeId × Copying}
    (hcopy : Kept σ copy) (s : Selection) {es : List (Feature × NodeId)}
    (hes : ∀ e ∈ es, σ.feature e.1) (hc : c.target.Over σ) {kept : List (Feature × NodeId)}
    (hrun : copyChildren copy s es c = (kept, c')) :
    c'.target.Over σ ∧ ∀ e ∈ kept, σ.feature e.1 := by
  induction es generalizing c c' kept with
  | nil =>
    cases hrun
    exact ⟨hc, by simp⟩
  | cons e es ih =>
    obtain ⟨f, child⟩ := e
    obtain ⟨hf, hes⟩ := List.forall_mem_cons.1 hes
    rw [Copying.copyChildren] at hrun
    split at hrun
    · exact ih hes hc hrun
    · rename_i below _
      rcases htail : Copying.copyChildren copy s es (copy below child c).2 with ⟨others, c₂⟩
      obtain ⟨h₂, hothers⟩ := ih hes (hcopy below child c hc) htail
      dsimp only at hrun
      rw [htail] at hrun
      cases hrun
      exact ⟨h₂, List.forall_mem_cons.2 ⟨hf, hothers⟩⟩

theorem over_content {s : Selection} {kept : List (Feature × NodeId)}
    (h : ∀ e ∈ kept, σ.feature e.1) : (s.content kept).Over σ := by
  cases s with
  | everything => exact Content.over_ofList h
  | named tree =>
    cases kept with
    | nil => exact Content.over_empty
    | cons e kept => exact Content.over_ofList h

theorem kept_copyWithin (hs : source.Over σ) (depth : Nat) :
    Kept σ (copyWithin source depth) := by
  induction depth with
  | zero => exact fun s n c hc => hc.alloc Content.over_empty
  | succ depth ih =>
    intro s n c hc
    have hread := hs.content (source.resolve n)
    rw [copyWithin]
    dsimp only
    split
    · exact hc
    · cases hcon : source.content (source.resolve n) with
      | complex children =>
        rw [hcon] at hread
        obtain ⟨h₁, hkept⟩ := ih.copyChildren s (Content.over_complex.1 hread) hc rfl
        exact h₁.alloc (over_content hkept)
      | empty => exact hc.alloc Content.over_empty
      | atom a =>
        rw [hcon] at hread
        exact hc.alloc hread

theorem over_select (hs : source.Over σ) (hc : c.target.Over σ) (s : Selection) (n : NodeId) :
    (c.select source s n).2.target.Over σ :=
  kept_copyWithin hs source.size s n c hc

end Copying

end FeatureLogic
