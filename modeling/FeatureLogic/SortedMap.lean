/-!
Finite maps as association lists with strictly ascending keys. Each map has one list, so maps with
the same entries are equal.
-/
set_option autoImplicit false

namespace FeatureLogic

variable {κ α β : Type}

section Entries
variable [Ord κ]

def insertEntry (k : κ) (a : α) : List (κ × α) → List (κ × α)
  | [] => [(k, a)]
  | (k', a') :: es =>
    match compare k k' with
    | .lt => (k, a) :: (k', a') :: es
    | .eq => (k, a) :: es
    | .gt => (k', a') :: insertEntry k a es

def findEntry (k : κ) : List (κ × α) → Option α
  | [] => none
  | (k', a) :: es => if compare k k' = .eq then some a else findEntry k es

def Ascending (es : List (κ × α)) : Prop :=
  es.Pairwise fun a b => compare a.1 b.1 = .lt

theorem mem_insertEntry {k : κ} {a : α} {e : κ × α} {es : List (κ × α)}
    (h : e ∈ insertEntry k a es) : e = (k, a) ∨ e ∈ es := by
  induction es with
  | nil => simpa [insertEntry] using h
  | cons d es ih =>
    simp only [insertEntry] at h
    split at h <;> simp only [List.mem_cons] at h ⊢
    · exact h
    · rcases h with h | h
      · exact .inl h
      · exact .inr (.inr h)
    · rcases h with h | h
      · exact .inr (.inl h)
      · rcases ih h with h | h
        · exact .inl h
        · exact .inr (.inr h)

theorem Ascending.insertEntry [Std.TransOrd κ] {es : List (κ × α)} (h : Ascending es) (k : κ)
    (a : α) : Ascending (insertEntry k a es) := by
  induction es with
  | nil => simp [FeatureLogic.insertEntry, Ascending]
  | cons d es ih =>
    obtain ⟨hd, he⟩ := List.pairwise_cons.1 h
    simp only [FeatureLogic.insertEntry]
    split
    · rename_i hk
      refine List.pairwise_cons.2 ⟨fun e he' => ?_, h⟩
      rcases List.mem_cons.1 he' with rfl | he'
      · exact hk
      · exact Std.TransCmp.lt_trans hk (hd e he')
    · rename_i hk
      refine List.pairwise_cons.2 ⟨fun e he' => ?_, he⟩
      exact (Std.TransCmp.congr_left hk).trans (hd e he')
    · rename_i hk
      refine List.pairwise_cons.2 ⟨fun e he' => ?_, ih he⟩
      rcases mem_insertEntry he' with rfl | he'
      · exact Std.OrientedCmp.lt_of_gt hk
      · exact hd e he'

theorem Ascending.filter {es : List (κ × α)} (h : Ascending es) (p : κ × α → Bool) :
    Ascending (es.filter p) :=
  List.Pairwise.filter p h

end Entries

structure SortedMap (κ : Type) [Ord κ] (α : Type) where
  entries : List (κ × α)
  ascending : Ascending entries

namespace SortedMap
variable [Ord κ]

theorem ext {m m' : SortedMap κ α} (h : m.entries = m'.entries) : m = m' := by
  cases m; cases m'; simp_all

instance [DecidableEq κ] [DecidableEq α] : DecidableEq (SortedMap κ α) := fun m m' =>
  decidable_of_iff (m.entries = m'.entries) ⟨ext, fun h => h ▸ rfl⟩

def empty : SortedMap κ α := ⟨[], .nil⟩

instance : EmptyCollection (SortedMap κ α) := ⟨empty⟩
instance : Inhabited (SortedMap κ α) := ⟨empty⟩

def get? (m : SortedMap κ α) (k : κ) : Option α := findEntry k m.entries

def contains (m : SortedMap κ α) (k : κ) : Bool := (m.get? k).isSome

def keys (m : SortedMap κ α) : List κ := m.entries.map (·.1)

def values (m : SortedMap κ α) : List α := m.entries.map (·.2)

def size (m : SortedMap κ α) : Nat := m.entries.length

def isEmpty (m : SortedMap κ α) : Bool := m.entries.isEmpty

variable [Std.TransOrd κ]

/-- A key that is present gets the new value. -/
def insert (m : SortedMap κ α) (k : κ) (a : α) : SortedMap κ α :=
  ⟨insertEntry k a m.entries, m.ascending.insertEntry k a⟩

def singleton (k : κ) (a : α) : SortedMap κ α := empty.insert k a

/-- Of entries with one key the last counts. -/
def ofList (es : List (κ × α)) : SortedMap κ α :=
  es.foldl (fun m e => m.insert e.1 e.2) empty

end SortedMap

section Lookup
variable [Ord κ]

theorem findEntry_insertEntry_self [Std.TransOrd κ] (k : κ) (a : α) (es : List (κ × α)) :
    findEntry k (insertEntry k a es) = some a := by
  induction es with
  | nil => simp [insertEntry, findEntry]
  | cons d es ih =>
    simp only [insertEntry]
    split
    · simp [findEntry]
    · simp [findEntry]
    · rename_i hk
      simp [findEntry, hk, ih]

theorem findEntry_insertEntry_ne [Std.LawfulEqOrd κ] {k k' : κ} (h : k ≠ k') (a : α)
    (es : List (κ × α)) : findEntry k' (insertEntry k a es) = findEntry k' es := by
  induction es with
  | nil => simp [insertEntry, findEntry, Ne.symm h]
  | cons d es ih =>
    simp only [insertEntry]
    split
    · simp [findEntry, Ne.symm h]
    · rename_i hk
      have hd := Std.LawfulEqOrd.eq_of_compare hk
      subst hd
      simp [findEntry, Ne.symm h]
    · simp only [findEntry, ih]

namespace SortedMap

@[simp] theorem get?_empty (k : κ) : (empty : SortedMap κ α).get? k = none := rfl

@[simp] theorem get?_insert_self [Std.TransOrd κ] (m : SortedMap κ α) (k : κ) (a : α) :
    (m.insert k a).get? k = some a :=
  findEntry_insertEntry_self k a m.entries

theorem get?_insert_ne [Std.TransOrd κ] [Std.LawfulEqOrd κ] (m : SortedMap κ α) {k k' : κ}
    (h : k ≠ k') (a : α) : (m.insert k a).get? k' = m.get? k' :=
  findEntry_insertEntry_ne h a m.entries

end SortedMap
end Lookup

end FeatureLogic
