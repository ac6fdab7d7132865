import FeatureLogic.Arena.Unification
/-!
The calls of a merge. A merge and the procedure for complex nodes call each other on an arena that
changes meanwhile. What they return is described here call by call, with no bound on how far they
may go, so that whatever holds of each call holds of every merge.
-/
set_option autoImplicit false

namespace FeatureLogic.Arena

variable {g h : Arena} {l r l' r' d k : Nat} {b : Bool} {rest : List (Feature × NodeId)}

/-- Contents that no node can hold together. -/
inductive Clash : Content → Content → Prop
  | atoms {a b : Atom} : a ≠ b → Clash (.atom a) (.atom b)
  | atom_complex (a : Atom) (children : SortedMap Feature NodeId) :
      Clash (.atom a) (.complex children)
  | complex_atom (children : SortedMap Feature NodeId) (a : Atom) :
      Clash (.complex children) (.atom a)

theorem Clash.symm {c c' : Content} (hc : Clash c c') : Clash c' c := by
  cases hc with
  | atoms hne => exact .atoms (Ne.symm hne)
  | atom_complex a children => exact .complex_atom children a
  | complex_atom children a => exact .atom_complex a children

/-- A merge of two nodes, the procedure for two complex ones, and its loop over children. -/
inductive Call where
  | merge (l r : NodeId)
  | complex (l r : NodeId)
  | children (r : NodeId) (rest : List (Feature × NodeId))

/-- What merging two ends of chains comes to, unless both are complex. -/
def mergeEnds (g : Arena) (l r : NodeId) : Option (Bool × Arena) :=
  if l = r then some (true, g)
  else
    match g.content l, g.content r with
    | .empty, _ => some (true, g.redirect l r)
    | _, .empty => some (true, g.redirect r l)
    | .atom a, .atom b => if a = b then some (true, g.redirect l r) else some (false, g)
    | .complex _, .complex _ => none
    | _, _ => some (false, g)

/-- The call returns `b` and leaves `h`, and nests `depth` calls deep, itself included. The loop
over children is no call of its own. -/
inductive Returns : Nat → Arena → Call → Bool → Arena → Prop
  | merge {g g₁ g₂ h : Arena} {l r l' r' : NodeId} {b : Bool} (hl : g.dechain l = (l', g₁))
      (hr : g₁.dechain r = (r', g₂)) (hends : g₂.mergeEnds l' r' = some (b, h)) :
      Returns 1 g (.merge l r) b h
  | descend {g g₁ g₂ h : Arena} {l r l' r' : NodeId} {b : Bool} {d : Nat}
      (hl : g.dechain l = (l', g₁)) (hr : g₁.dechain r = (r', g₂))
      (hends : g₂.mergeEnds l' r' = none) (hcall : Returns d g₂ (.complex l' r') b h) :
      Returns (d + 1) g (.merge l r) b h
  | complex {g h h₁ h₂ : Arena} {l r l' r' : NodeId} {d : Nat}
      (hloop : Returns d g (.children r (g.content l).children) true h)
      (hl : h.dechain l = (l', h₁)) (hr : h₁.dechain r = (r', h₂)) :
      Returns (d + 1) g (.complex l r) true (if l' = r' then h₂ else h₂.redirect l' r')
  | clash {g h : Arena} {l r : NodeId} {d : Nat}
      (hloop : Returns d g (.children r (g.content l).children) false h) :
      Returns (d + 1) g (.complex l r) false h
  | done {g : Arena} {r : NodeId} : Returns 0 g (.children r []) true g
  | attach {g g₁ h : Arena} {r t c : NodeId} {f : Feature} {rest : List (Feature × NodeId)}
      {b : Bool} {d : Nat} (hr : g.dechain r = (t, g₁)) (hfree : g₁.child? t f = none)
      (hrest : Returns d (g₁.attach t f c) (.children r rest) b h) :
      Returns d g (.children r ((f, c) :: rest)) b h
  | next {g g₁ g₂ h : Arena} {r t c own : NodeId} {f : Feature} {rest : List (Feature × NodeId)}
      {b : Bool} {d e : Nat} (hr : g.dechain r = (t, g₁)) (hown : g₁.child? t f = some own)
      (hcall : Returns d g₁ (.merge c own) true g₂) (hrest : Returns e g₂ (.children r rest) b h) :
      Returns (max d e) g (.children r ((f, c) :: rest)) b h
  | stop {g g₁ h : Arena} {r t c own : NodeId} {f : Feature} {rest : List (Feature × NodeId)}
      {d : Nat} (hr : g.dechain r = (t, g₁)) (hown : g₁.child? t f = some own)
      (hcall : Returns d g₁ (.merge c own) false h) :
      Returns d g (.children r ((f, c) :: rest)) false h

/-! ## Ends of chains -/

/-- What `l` holds is held by `r` as well, as `l` is empty or has the same atom. -/
def Yields (g : Arena) (l r : NodeId) : Prop :=
  g.content l = .empty ∨ ∃ a, g.content l = .atom a ∧ g.content r = .atom a

theorem Yields.atom {a : Atom} (hy : g.Yields l r) (hl : g.content l = .atom a) :
    g.content r = .atom a := by
  rcases hy with he | ⟨c, hc, hr⟩
  · rw [he] at hl
    cases hl
  · rw [hr, ← hc, hl]

theorem Yields.not_complex (hy : g.Yields l r) : (g.content l).isComplex ≠ true := by
  rcases hy with hl | ⟨a, hl, -⟩ <;> simp [hl, Content.isComplex]

theorem Yields.child?_eq_none (hy : g.Yields l r) (f : Feature) : g.child? l f = none := by
  rcases hy with hl | ⟨a, hl, -⟩ <;> simp [child?, hl]

theorem mergeEnds_eq_some (hends : g.mergeEnds l r = some (b, h)) :
    (l = r ∧ b = true ∧ h = g) ∨ (b = false ∧ h = g ∧ Clash (g.content l) (g.content r)) ∨
      (l ≠ r ∧ b = true ∧
        (g.Yields l r ∧ h = g.redirect l r ∨ g.Yields r l ∧ h = g.redirect r l)) := by
  unfold mergeEnds at hends
  split at hends
  · cases hends
    exact .inl ⟨‹_›, rfl, rfl⟩
  · rename_i hne
    refine .inr ?_
    cases hl : g.content l with
    | empty =>
      rw [hl] at hends
      cases hends
      exact .inr ⟨hne, rfl, .inl ⟨.inl hl, rfl⟩⟩
    | atom a =>
      cases hr : g.content r with
      | empty =>
        rw [hl, hr] at hends
        cases hends
        exact .inr ⟨hne, rfl, .inr ⟨.inl hr, rfl⟩⟩
      | atom c =>
        rw [hl, hr] at hends
        dsimp only at hends
        split at hends <;> cases hends
        · rename_i hac
          exact .inr ⟨hne, rfl, .inl ⟨.inr ⟨a, hl, hac ▸ hr⟩, rfl⟩⟩
        · rename_i hac
          exact .inl ⟨rfl, rfl, .atoms hac⟩
      | complex others =>
        rw [hl, hr] at hends
        cases hends
        exact .inl ⟨rfl, rfl, .atom_complex a others⟩
    | complex children =>
      cases hr : g.content r with
      | empty =>
        rw [hl, hr] at hends
        cases hends
        exact .inr ⟨hne, rfl, .inr ⟨.inl hr, rfl⟩⟩
      | atom c =>
        rw [hl, hr] at hends
        cases hends
        exact .inl ⟨rfl, rfl, .complex_atom children c⟩
      | complex others =>
        rw [hl, hr] at hends
        cases hends

theorem mergeEnds_eq_none (hends : g.mergeEnds l r = none) :
    l ≠ r ∧ (g.content l).isComplex = true ∧ (g.content r).isComplex = true := by
  unfold mergeEnds at hends
  split at hends
  · cases hends
  · rename_i hne
    split at hends
    case h_4 hl hr => exact ⟨hne, by rw [hl]; rfl, by rw [hr]; rfl⟩
    case h_3 => split at hends <;> cases hends
    all_goals cases hends

/-! ## The calls and the program -/

def mergeComplex (merge : Arena → NodeId → NodeId → Option (Bool × Arena)) (g : Arena)
    (l r : NodeId) : Option (Bool × Arena) :=
  match mergeChildren merge r (g.content l).children g with
  | some (true, g) =>
    let (l, g) := g.dechain l
    let (r, g) := g.dechain r
    some (true, if l = r then g else g.redirect l r)
  | outcome => outcome

theorem unifyWithin_succ {g₁ g₂ : Arena} (hl : g.dechain l = (l', g₁))
    (hr : g₁.dechain r = (r', g₂)) : unifyWithin (k + 1) g l r =
      (g₂.mergeEnds l' r').or (mergeComplex (unifyWithin k) g₂ l' r') := by
  simp only [unifyWithin, mergeEnds, mergeComplex, hl, hr]
  by_cases hne : l' = r'
  · simp only [if_pos hne, Option.or]
  · simp only [if_neg hne]
    cases hcl : g₂.content l' <;> cases hcr : g₂.content r'
    case atom.atom => dsimp only; split <;> rfl
    all_goals rfl

/-- A call that may nest so deep. -/
def Call.within (k : Nat) (g : Arena) : Call → Option (Bool × Arena)
  | merge l r => unifyWithin k g l r
  | complex l r => mergeComplex (unifyWithin k) g l r
  | children r rest => mergeChildren (unifyWithin k) r rest g

theorem Returns.within {call : Call} (hret : Returns d g call b h) (hk : d ≤ k) :
    call.within k g = some (b, h) := by
  induction hret generalizing k with
  | merge hl hr hends =>
    obtain ⟨k, rfl⟩ := Nat.exists_eq_succ_of_ne_zero (Nat.pos_iff_ne_zero.1 hk)
    simp only [Call.within, unifyWithin_succ hl hr, hends, Option.or]
  | descend hl hr hends _ ih =>
    obtain ⟨k, rfl⟩ := Nat.exists_eq_succ_of_ne_zero (Nat.pos_iff_ne_zero.1 (Nat.zero_lt_of_lt hk))
    simp only [Call.within, unifyWithin_succ hl hr, hends, Option.none_or]
    exact ih (Nat.le_of_succ_le_succ hk)
  | complex _ hl hr ih =>
    have hloop := ih (Nat.le_of_succ_le hk)
    simp only [Call.within] at hloop
    simp only [Call.within, mergeComplex, hloop, hl, hr]
  | clash _ ih =>
    have hloop := ih (Nat.le_of_succ_le hk)
    simp only [Call.within] at hloop
    simp only [Call.within, mergeComplex, hloop]
  | done => rfl
  | attach hr hfree _ ih =>
    simp only [Call.within, mergeChildren, hr, hfree]
    exact ih hk
  | next hr hown _ _ ihcall ihrest =>
    have hcall := ihcall (Nat.le_trans (Nat.le_max_left ..) hk)
    simp only [Call.within] at hcall
    simp only [Call.within, mergeChildren, hr, hown, hcall]
    exact ihrest (Nat.le_trans (Nat.le_max_right ..) hk)
  | stop hr hown _ ih =>
    have hcall := ih hk
    simp only [Call.within] at hcall
    simp only [Call.within, mergeChildren, hr, hown, hcall]

theorem exists_returns_children {merge : Arena → NodeId → NodeId → Option (Bool × Arena)}
    (hmerge : ∀ g l r b h, merge g l r = some (b, h) → ∃ d, Returns d g (.merge l r) b h)
    (hrun : mergeChildren merge r rest g = some (b, h)) :
    ∃ d, Returns d g (.children r rest) b h := by
  induction rest generalizing g with
  | nil =>
    cases hrun
    exact ⟨0, .done⟩
  | cons e rest ih =>
    obtain ⟨f, c⟩ := e
    rcases hr : g.dechain r with ⟨t, g₁⟩
    rw [mergeChildren, hr] at hrun
    dsimp only at hrun
    split at hrun
    · rename_i hfree
      obtain ⟨d, hrest⟩ := ih hrun
      exact ⟨d, .attach hr hfree hrest⟩
    · rename_i own hown
      split at hrun
      · rename_i g₂ hm
        obtain ⟨d, hcall⟩ := hmerge _ _ _ _ _ hm
        obtain ⟨e, hrest⟩ := ih hrun
        exact ⟨max d e, .next hr hown hcall hrest⟩
      · rename_i hno
        cases b with
        | true => exact absurd hrun (hno _)
        | false =>
          obtain ⟨d, hcall⟩ := hmerge _ _ _ _ _ hrun
          exact ⟨d, .stop hr hown hcall⟩

theorem exists_returns (hrun : unifyWithin k g l r = some (b, h)) :
    ∃ d, Returns d g (.merge l r) b h := by
  induction k generalizing g l r b h with
  | zero => cases hrun
  | succ k ih =>
    rcases hl : g.dechain l with ⟨l', g₁⟩
    rcases hr : g₁.dechain r with ⟨r', g₂⟩
    rw [unifyWithin_succ hl hr] at hrun
    cases hends : g₂.mergeEnds l' r' with
    | some outcome =>
      rw [hends] at hrun
      cases hrun
      exact ⟨1, .merge hl hr hends⟩
    | none =>
      rw [hends, Option.none_or, mergeComplex] at hrun
      split at hrun
      · rename_i g₃ hm
        obtain ⟨d, hloop⟩ := exists_returns_children (fun _ _ _ _ _ => ih) hm
        cases hrun
        exact ⟨_, .descend hl hr hends (.complex hloop rfl rfl)⟩
      · rename_i hno
        cases b with
        | true => exact absurd hrun (hno _)
        | false =>
          obtain ⟨d, hloop⟩ := exists_returns_children (fun _ _ _ _ _ => ih) hrun
          exact ⟨_, .descend hl hr hends (.clash hloop)⟩

/-- Merges that return are those that the program computes, given room enough. -/
theorem exists_returns_iff :
    (∃ d, Returns d g (.merge l r) b h) ↔ ∃ k, unifyWithin k g l r = some (b, h) :=
  ⟨fun ⟨d, hret⟩ => ⟨d, hret.within (Nat.le_refl d)⟩, fun ⟨_, hrun⟩ => exists_returns hrun⟩

end FeatureLogic.Arena
