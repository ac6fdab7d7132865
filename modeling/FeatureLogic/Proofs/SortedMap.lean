import FeatureLogic.SortedMap
import Mathlib.Data.List.Nodup
import Mathlib.Data.List.Perm.Basic
import Mathlib.Data.Prod.Basic
/-!
Look-up in sorted maps, stated through membership: a map holds an entry exactly if its key leads
to the value.
-/
set_option autoImplicit false

namespace FeatureLogic

variable {κ α : Type} [Ord κ] [Std.LawfulEqOrd κ]

theorem Ascending.nodup_keys {es : List (κ × α)} (h : Ascending es) : (es.map (·.1)).Nodup := by
  refine List.pairwise_map.2 (List.Pairwise.imp ?_ h)
  intro a b hab heq
  simp [heq] at hab

theorem findEntry_eq_some_iff {es : List (κ × α)} (h : Ascending es) {k : κ} {a : α} :
    findEntry k es = some a ↔ (k, a) ∈ es := by
  induction es with
  | nil => simp [findEntry]
  | cons e es ih =>
    obtain ⟨k', a'⟩ := e
    obtain ⟨hk, hs⟩ := List.pairwise_cons.1 h
    by_cases heq : k = k'
    · subst heq
      have hfresh : (k, a) ∉ es := by
        intro hm
        have hlt := hk _ hm
        simp at hlt
      simp [findEntry, hfresh, eq_comm]
    · simp [findEntry, heq, ih hs]

/-- A new key comes somewhere between the others. -/
theorem exists_insertEntry {es : List (κ × α)} {k : κ}
    (h : k ∉ es.map (·.1)) (a : α) :
    ∃ pre post, es = pre ++ post ∧ insertEntry k a es = pre ++ (k, a) :: post := by
  induction es with
  | nil => exact ⟨[], [], rfl, rfl⟩
  | cons e es ih =>
    obtain ⟨hk, hes⟩ := not_or.1 (mt List.mem_cons.2 h)
    simp only [insertEntry]
    split
    · exact ⟨[], e :: es, rfl, rfl⟩
    · rename_i heq
      exact absurd (Std.LawfulEqOrd.eq_of_compare heq) hk
    · obtain ⟨pre, post, rfl, hins⟩ := ih hes
      exact ⟨e :: pre, post, rfl, congrArg (e :: ·) hins⟩

namespace SortedMap

theorem get?_eq_some_iff (m : SortedMap κ α) {k : κ} {a : α} :
    m.get? k = some a ↔ (k, a) ∈ m.entries :=
  findEntry_eq_some_iff m.ascending

theorem contains_iff_mem_keys {m : SortedMap κ α} {k : κ} : m.contains k = true ↔ k ∈ m.keys := by
  simp [contains, keys, Option.isSome_iff_exists, get?_eq_some_iff]

variable [Std.TransOrd κ]

/-- Maps with the same keys have them in the same order. -/
theorem keys_eq_of_mem_iff {β : Type} {m : SortedMap κ α} {m' : SortedMap κ β}
    (h : ∀ k, k ∈ m.keys ↔ k ∈ m'.keys) : m.keys = m'.keys := by
  have hperm : m.keys.Perm m'.keys :=
    (List.perm_ext_iff_of_nodup m.ascending.nodup_keys m'.ascending.nodup_keys).2 h
  have hsorted : ∀ {γ : Type} (m : SortedMap κ γ), m.keys.Pairwise (compare · · = .lt) :=
    fun m => List.pairwise_map.2 m.ascending
  refine hperm.eq_of_pairwise (fun k l _ _ hkl hlk => ?_) (hsorted m) (hsorted m')
  rw [Std.OrientedCmp.gt_of_lt hkl] at hlk
  cases hlk

theorem get?_insert [DecidableEq κ] (m : SortedMap κ α) (k k' : κ) (a : α) :
    (m.insert k a).get? k' = if k = k' then some a else m.get? k' := by
  by_cases h : k = k'
  · subst h
    simp
  · rw [get?_insert_ne m h, if_neg h]

theorem get?_insert_eq_some_iff [DecidableEq κ] (m : SortedMap κ α) {k k' : κ} {a b : α} :
    (m.insert k a).get? k' = some b ↔ k = k' ∧ a = b ∨ k ≠ k' ∧ m.get? k' = some b := by
  rw [get?_insert]
  split <;> simp [*]

theorem contains_insert [DecidableEq κ] (m : SortedMap κ α) (k k' : κ) (a : α) :
    (m.insert k a).contains k' = (decide (k = k') || m.contains k') := by
  rw [contains, get?_insert, contains]
  split <;> simp [*]

/-- A new key leaves the others as they were. -/
theorem get?_insert_of_fresh {m : SortedMap κ α} {k k' : κ} {a b : α} (hk : m.get? k = none)
    (h : m.get? k' = some b) : (m.insert k a).get? k' = some b := by
  rw [get?_insert_ne m, h]
  rintro rfl
  rw [hk] at h
  cases h

theorem get?_singleton [DecidableEq κ] (k k' : κ) (a : α) :
    (singleton k a).get? k' = if k = k' then some a else none := by
  rw [singleton, get?_insert]
  rfl

theorem get?_foldl_insert_of_notMem {k : κ} (es : List (κ × α)) (m : SortedMap κ α)
    (h : k ∉ es.map (·.1)) : (es.foldl (fun m e => m.insert e.1 e.2) m).get? k = m.get? k := by
  induction es generalizing m with
  | nil => rfl
  | cons e es ih =>
    simp only [List.map_cons, List.mem_cons, not_or] at h
    rw [List.foldl_cons, ih _ h.2, get?_insert_ne _ (Ne.symm h.1)]

theorem get?_foldl_insert_of_mem {k : κ} {a : α} (es : List (κ × α)) (m : SortedMap κ α)
    (hd : (es.map (·.1)).Nodup) (h : (k, a) ∈ es) :
    (es.foldl (fun m e => m.insert e.1 e.2) m).get? k = some a := by
  induction es generalizing m with
  | nil => simp at h
  | cons e es ih =>
    simp only [List.map_cons, List.nodup_cons] at hd
    rw [List.foldl_cons]
    rcases List.mem_cons.1 h with rfl | h
    · rw [get?_foldl_insert_of_notMem _ _ hd.1, get?_insert_self]
    · exact ih _ hd.2 h

theorem get?_ofList_eq_some_iff {es : List (κ × α)} (hd : (es.map (·.1)).Nodup) {k : κ} {a : α} :
    (ofList es).get? k = some a ↔ (k, a) ∈ es := by
  constructor
  · intro h
    by_cases hk : k ∈ es.map (·.1)
    · obtain ⟨⟨k', b⟩, hb, rfl⟩ := List.mem_map.1 hk
      have hget := get?_foldl_insert_of_mem es empty hd hb
      rw [ofList, hget] at h
      cases h
      exact hb
    · rw [ofList, get?_foldl_insert_of_notMem es empty hk] at h
      simp at h
  · exact get?_foldl_insert_of_mem es empty hd

/-- Without repeated keys a map keeps all entries it is made from. -/
theorem entries_ofList_perm {es : List (κ × α)} (hd : (es.map (·.1)).Nodup) :
    (ofList es).entries.Perm es := by
  refine (List.perm_ext_iff_of_nodup (ofList es).ascending.nodup_keys.of_map hd.of_map).2 ?_
  rintro ⟨k, a⟩
  rw [← get?_eq_some_iff, get?_ofList_eq_some_iff hd]

omit [Std.LawfulEqOrd κ] in
/-- Maps with the same entries are equal. -/
theorem eq_of_perm {m m' : SortedMap κ α} (h : m.entries.Perm m'.entries) : m = m' := by
  refine ext (h.eq_of_pairwise (fun d e _ _ hde hed => ?_) m.ascending m'.ascending)
  rw [Std.OrientedCmp.gt_of_lt hde] at hed
  cases hed

/-- In whatever order the entries of a map are listed, they make that map. -/
theorem ofList_eq_of_perm {es : List (κ × α)} {m : SortedMap κ α} (h : es.Perm m.entries) :
    ofList es = m := by
  have hnodup : (es.map (·.1)).Nodup := (h.map (·.1)).nodup_iff.2 m.ascending.nodup_keys
  exact eq_of_perm ((entries_ofList_perm hnodup).trans h)

theorem mem_of_get?_ofList {es : List (κ × α)} {k : κ} {a : α} (h : (ofList es).get? k = some a) :
    (k, a) ∈ es := by
  have hfold : ∀ (es : List (κ × α)) (m : SortedMap κ α),
      (k, a) ∈ (es.foldl (fun m e => m.insert e.1 e.2) m).entries →
        (k, a) ∈ es ∨ (k, a) ∈ m.entries := by
    intro es
    induction es with
    | nil => exact fun m hm => .inr hm
    | cons e es ih =>
      intro m hm
      rcases ih _ hm with hm | hm
      · exact .inl (List.mem_cons_of_mem _ hm)
      · rcases mem_insertEntry hm with he | hm
        · exact .inl (List.mem_cons.2 (.inl he))
        · exact .inr hm
  exact (hfold es empty ((get?_eq_some_iff _).1 h)).resolve_right List.not_mem_nil

omit [Std.LawfulEqOrd κ] in
theorem ofList_ne_empty {es : List (κ × α)} (h : es ≠ []) : ofList es ≠ empty := by
  obtain ⟨es, e, rfl⟩ := es.eq_nil_or_concat'.resolve_left h
  intro he
  have hlast : (ofList (es ++ [e])).get? e.1 = some e.2 := by
    rw [ofList, List.foldl_append]
    exact get?_insert_self ..
  rw [he, get?_empty] at hlast
  cases hlast

/-! ## New keys and new values -/

section MapKeys
variable {f : κ → κ} {m : SortedMap κ α}

def mapKeys (f : κ → κ) (m : SortedMap κ α) : SortedMap κ α :=
  ofList (m.entries.map (Prod.map f id))

omit [Std.TransOrd κ] in
theorem nodup_mapKeys (hf : Function.Injective f) :
    ((m.entries.map (Prod.map f id)).map (·.1)).Nodup := by
  have hkeys : (m.entries.map (Prod.map f id)).map (·.1) = (m.entries.map (·.1)).map f := by
    simp [List.map_map, Function.comp_def]
  exact hkeys ▸ m.ascending.nodup_keys.map hf

theorem get?_mapKeys_eq_some_iff (hf : Function.Injective f) {k : κ} {a : α} :
    (m.mapKeys f).get? k = some a ↔ ∃ l, f l = k ∧ m.get? l = some a := by
  rw [mapKeys, get?_ofList_eq_some_iff (nodup_mapKeys hf), List.mem_map]
  simp only [get?_eq_some_iff]
  constructor
  · rintro ⟨⟨l, b⟩, hl, he⟩
    obtain ⟨rfl, rfl⟩ := Prod.mk.inj he
    exact ⟨l, rfl, hl⟩
  · rintro ⟨l, rfl, hl⟩
    exact ⟨(l, a), hl, rfl⟩

theorem get?_mapKeys (hf : Function.Injective f) (k : κ) :
    (m.mapKeys f).get? (f k) = m.get? k := by
  refine Option.ext fun a => (get?_mapKeys_eq_some_iff hf).trans ⟨?_, fun h => ⟨k, rfl, h⟩⟩
  rintro ⟨l, hl, h⟩
  rwa [hf hl] at h

theorem mapKeys_injective (hf : Function.Injective f) :
    Function.Injective (mapKeys f : SortedMap κ α → SortedMap κ α) := by
  intro m m' h
  have hperm : (m.entries.map (Prod.map f id)).Perm (m'.entries.map (Prod.map f id)) :=
    (entries_ofList_perm (nodup_mapKeys hf)).symm.trans
      ((List.Perm.of_eq (congrArg entries h)).trans (entries_ofList_perm (nodup_mapKeys hf)))
  exact eq_of_perm ((List.map_perm_map_iff (hf.prodMap Function.injective_id)).1 hperm)

theorem values_mapKeys_perm (hf : Function.Injective f) :
    (m.mapKeys f).values.Perm m.values := by
  refine ((entries_ofList_perm (nodup_mapKeys hf)).map (·.2)).trans (.of_eq ?_)
  simp [values, List.map_map, Function.comp_def]

end MapKeys

section Restrict

/-- The entries whose keys are chosen. -/
def restrict (m : SortedMap κ α) (p : κ → Bool) : SortedMap κ α :=
  ⟨m.entries.filter fun e => p e.1, m.ascending.filter _⟩

omit [Std.TransOrd κ] in
theorem get?_restrict (m : SortedMap κ α) (p : κ → Bool) (k : κ) :
    (m.restrict p).get? k = if p k then m.get? k else none := by
  refine Option.ext fun a => ?_
  rw [get?_eq_some_iff, restrict, List.mem_filter, ← get?_eq_some_iff]
  split <;> simp [*]

end Restrict

section MapValues
variable {β : Type}

def mapValues (f : α → β) (m : SortedMap κ α) : SortedMap κ β where
  entries := m.entries.map (Prod.map id f)
  ascending := List.pairwise_map.2 m.ascending

omit [Std.TransOrd κ] in
theorem contains_mapValues (f : α → β) (m : SortedMap κ α) (k : κ) :
    (m.mapValues f).contains k = m.contains k := by
  have hkeys : (m.mapValues f).keys = m.keys := by simp [keys, mapValues, Function.comp_def]
  rw [Bool.eq_iff_iff, contains_iff_mem_keys, contains_iff_mem_keys, hkeys]

end MapValues

end SortedMap

end FeatureLogic
