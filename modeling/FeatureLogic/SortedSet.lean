/-!
Finite sets as strictly ascending lists. Elements that compare as equal are one element, and the
first to come in represents them.
-/
set_option autoImplicit false

namespace FeatureLogic

variable {α : Type}

section Elements
variable [Ord α]

def insertElement (a : α) : List α → List α
  | [] => [a]
  | b :: bs =>
    match compare a b with
    | .lt => a :: b :: bs
    | .eq => b :: bs
    | .gt => b :: insertElement a bs

def hasElement (a : α) (bs : List α) : Bool := bs.any fun b => compare a b == .eq

theorem mem_insertElement {a b : α} {bs : List α} (h : b ∈ insertElement a bs) :
    b = a ∨ b ∈ bs := by
  induction bs with
  | nil => simpa [insertElement] using h
  | cons c bs ih =>
    simp only [insertElement] at h
    split at h <;> simp only [List.mem_cons] at h ⊢
    · exact h
    · exact .inr h
    · rcases h with h | h
      · exact .inr (.inl h)
      · exact (ih h).imp id .inr

theorem pairwise_insertElement [Std.TransOrd α] {bs : List α}
    (h : bs.Pairwise fun a b => compare a b = .lt) (a : α) :
    (insertElement a bs).Pairwise fun a b => compare a b = .lt := by
  induction bs with
  | nil => simp [insertElement]
  | cons b bs ih =>
    obtain ⟨hb, hs⟩ := List.pairwise_cons.1 h
    simp only [insertElement]
    split
    · rename_i hab
      refine List.pairwise_cons.2 ⟨fun c hc => ?_, h⟩
      rcases List.mem_cons.1 hc with rfl | hc
      · exact hab
      · exact Std.TransCmp.lt_trans hab (hb c hc)
    · exact h
    · rename_i hab
      refine List.pairwise_cons.2 ⟨fun c hc => ?_, ih hs⟩
      rcases mem_insertElement hc with rfl | hc
      · exact Std.OrientedCmp.lt_of_gt hab
      · exact hb c hc

end Elements

structure SortedSet (α : Type) [Ord α] where
  toList : List α
  ascending : toList.Pairwise fun a b => compare a b = .lt

namespace SortedSet
variable [Ord α]

theorem ext {s t : SortedSet α} (h : s.toList = t.toList) : s = t := by
  cases s; cases t; simp_all

def empty : SortedSet α := ⟨[], .nil⟩

instance : EmptyCollection (SortedSet α) := ⟨empty⟩
instance : Inhabited (SortedSet α) := ⟨empty⟩

def contains (s : SortedSet α) (a : α) : Bool := hasElement a s.toList

def size (s : SortedSet α) : Nat := s.toList.length

/-- Sets compare as their ascending lists do. -/
instance : Ord (SortedSet α) := ⟨fun s t => compare s.toList t.toList⟩

variable [Std.TransOrd α]

instance : Std.TransOrd (SortedSet α) :=
  inferInstanceAs (Std.TransCmp (compareOn SortedSet.toList))

/-- An element that is present already keeps its representative. -/
def insert (s : SortedSet α) (a : α) : SortedSet α :=
  ⟨insertElement a s.toList, pairwise_insertElement s.ascending a⟩

def ofList (as : List α) : SortedSet α := as.foldl insert empty

end SortedSet

end FeatureLogic
