import FeatureLogic.Constraint.Basic
import FeatureLogic.Proofs.FeatureAlgebra
import Mathlib.Order.Lattice
/-!
Facts about structures: which paths lead to one node, and which atoms stand where. Facts force
others, since what two paths share they share all the way down. Structures are compared by their
facts, so the least structure with given facts has those that these force and no more.
-/
set_option autoImplicit false

namespace FeatureLogic

namespace PathTerm

/-- The term `q` further down. -/
def below (t : PathTerm) (q : Path) : PathTerm := { t with path := t.path ++ q }

variable {t u : PathTerm} {q r : Path}

@[simp] theorem below_nil (t : PathTerm) : t.below [] = t := by simp [below]

@[simp] theorem below_below (t : PathTerm) (q r : Path) :
    (t.below q).below r = t.below (q ++ r) := by simp [below]

theorem below_eq_below : t.below q = u.below r ↔
    (∃ e, u = t.below e ∧ q = e ++ r) ∨ ∃ e, t = u.below e ∧ r = e ++ q := by
  obtain ⟨i, p⟩ := t
  obtain ⟨j, p'⟩ := u
  simp only [below, mk.injEq, List.append_eq_append_iff]
  constructor
  · rintro ⟨rfl, ⟨e, h, h'⟩ | ⟨e, h, h'⟩⟩
    · exact .inl ⟨e, ⟨rfl, h⟩, h'⟩
    · exact .inr ⟨e, ⟨rfl, h⟩, h'⟩
  · rintro (⟨e, ⟨rfl, h⟩, h'⟩ | ⟨e, ⟨rfl, h⟩, h'⟩)
    · exact ⟨rfl, .inl ⟨e, h, h'⟩⟩
    · exact ⟨rfl, .inr ⟨e, h, h'⟩⟩

end PathTerm

/-- A path that exists is the same as itself. -/
@[ext] structure Facts where
  same : PathTerm → PathTerm → Prop
  value : PathTerm → Atom → Prop

namespace Facts

instance : SemilatticeSup Facts where
  le F G := (∀ t u, F.same t u → G.same t u) ∧ ∀ t a, F.value t a → G.value t a
  le_refl _ := ⟨fun _ _ h => h, fun _ _ h => h⟩
  le_trans _ _ _ h h' :=
    ⟨fun t u hF => h'.1 t u (h.1 t u hF), fun t a hF => h'.2 t a (h.2 t a hF)⟩
  le_antisymm _ _ h h' := by
    ext t u
    · exact ⟨h.1 t u, h'.1 t u⟩
    · exact ⟨h.2 t u, h'.2 t u⟩
  sup F G := ⟨fun t u => F.same t u ∨ G.same t u, fun t a => F.value t a ∨ G.value t a⟩
  le_sup_left _ _ := ⟨fun _ _ => .inl, fun _ _ => .inl⟩
  le_sup_right _ _ := ⟨fun _ _ => .inr, fun _ _ => .inr⟩
  sup_le _ _ _ h h' :=
    ⟨fun t u => Or.rec (h.1 t u) (h'.1 t u), fun t a => Or.rec (h.2 t a) (h'.2 t a)⟩

instance : OrderBot Facts where
  bot := ⟨fun _ _ => False, fun _ _ => False⟩
  bot_le _ := ⟨fun _ _ => False.elim, fun _ _ => False.elim⟩

def Has (F : Facts) (t : PathTerm) : Prop := F.same t t

/-- Facts that hold of some arena. -/
structure Closed (F : Facts) : Prop where
  symm {t u : PathTerm} : F.same t u → F.same u t
  trans {t u v : PathTerm} : F.same t u → F.same u v → F.same t v
  up {t : PathTerm} {q : Path} : F.Has (t.below q) → F.Has t
  congr {t u : PathTerm} {q : Path} :
    F.same t u → F.Has (t.below q) → F.same (t.below q) (u.below q)
  has_of_value {t : PathTerm} {a : Atom} : F.value t a → F.Has t
  value_congr {t u : PathTerm} {a : Atom} : F.same t u → F.value t a → F.value u a

/-- No path leads back to where it starts. -/
def Acyclic (F : Facts) : Prop := ∀ t q, F.same t (t.below q) → q = []

/-- No clash of two atoms, or of an atom with a feature. -/
structure Consistent (F : Facts) : Prop where
  value_unique {t : PathTerm} {a b : Atom} : F.value t a → F.value t b → a = b
  not_has_below {t : PathTerm} {a : Atom} {f : Feature} : F.value t a → ¬ F.Has (t.below [f])

/-- A node with neither an atom nor features. -/
structure EmptyAt (F : Facts) (t : PathTerm) : Prop where
  has : F.Has t
  not_value (a : Atom) : ¬ F.value t a
  not_has_below (f : Feature) : ¬ F.Has (t.below [f])

variable {F G H V : Facts} {t u v : PathTerm} {q : Path} {a : Atom}

theorem Acyclic.mono (h : F ≤ G) (hG : G.Acyclic) : F.Acyclic := fun t q hs => hG t q (h.1 _ _ hs)

theorem Consistent.mono (h : F ≤ G) (hG : G.Consistent) : F.Consistent :=
  ⟨fun ha hb => hG.value_unique (h.2 _ _ ha) (h.2 _ _ hb),
    fun ha hf => hG.not_has_below (h.2 _ _ ha) (h.1 _ _ hf)⟩

theorem Closed.has_left (hF : F.Closed) (h : F.same t u) : F.Has t := hF.trans h (hF.symm h)

theorem Closed.has_right (hF : F.Closed) (h : F.same t u) : F.Has u := hF.trans (hF.symm h) h

theorem Consistent.not_has_of_value_above (hF : F.Closed) (hc : F.Consistent) {f : Feature}
    (ha : F.value t a) : ¬ F.Has (t.below (f :: q)) := by
  intro h
  refine hc.not_has_below (f := f) ha (hF.up (q := q) ?_)
  simpa using h

theorem EmptyAt.congr (hF : F.Closed) (hs : F.same t u) (h : F.EmptyAt t) : F.EmptyAt u := by
  refine ⟨hF.has_right hs, fun a ha => h.not_value a (hF.value_congr (hF.symm hs) ha), ?_⟩
  intro f hf
  exact h.not_has_below f (hF.has_right (hF.congr (hF.symm hs) hf))

/-- What is at `t`, if anything, may be an atom for which `ok` holds. -/
structure Admits (F : Facts) (t : PathTerm) (ok : Atom → Prop) : Prop where
  value {a : Atom} : F.value t a → ok a
  not_has_below (f : Feature) : ¬ F.Has (t.below [f])
  not_value_above {u : PathTerm} {f : Feature} {q : Path} {a : Atom} :
    t = u.below (f :: q) → ¬ F.value u a

theorem Admits.anti {ok : Atom → Prop} (h : F ≤ G) (hG : G.Admits t ok) : F.Admits t ok where
  value ha := hG.value (h.2 _ _ ha)
  not_has_below f hf := hG.not_has_below f (h.1 _ _ hf)
  not_value_above ht ha := hG.not_value_above ht (h.2 _ _ ha)

/-- A consistent structure may take the value that it has. -/
theorem Consistent.admits (hF : F.Closed) (hc : F.Consistent) (ha : F.value t a) :
    F.Admits t (· = a) where
  value hb := hc.value_unique hb ha
  not_has_below _ := hc.not_has_below ha
  not_value_above := by
    rintro u f q b rfl hb
    exact hc.not_has_of_value_above hF hb (hF.has_of_value ha)

/-- All facts of a list together. -/
def all (Fs : List Facts) : Facts where
  same t u := ∃ F ∈ Fs, F.same t u
  value t a := ∃ F ∈ Fs, F.value t a

@[simp] theorem all_nil : all [] = ⊥ := by
  ext t u <;> simp [all, Bot.bot]

@[simp] theorem all_cons (F : Facts) (Fs : List Facts) : all (F :: Fs) = F ⊔ all Fs := by
  ext t u <;> simp [all, Max.max, SemilatticeSup.sup]

theorem all_append (Fs Gs : List Facts) : all (Fs ++ Gs) = all Fs ⊔ all Gs := by
  induction Fs with
  | nil => simp
  | cons F Fs ih => simp [ih, sup_assoc]

theorem all_perm {Fs Gs : List Facts} (h : Fs.Perm Gs) : all Fs = all Gs := by
  ext t u <;> simp only [all, h.mem_iff]

theorem all_le {Fs : List Facts} : all Fs ≤ G ↔ ∀ F ∈ Fs, F ≤ G := by
  induction Fs with
  | nil => simp
  | cons F Fs ih => simp [ih]

/-! ## What facts force -/

inductive Forces (F : Facts) : PathTerm → PathTerm → Prop
  | of {t u : PathTerm} : F.same t u → Forces F t u
  | of_value {t : PathTerm} {a : Atom} : F.value t a → Forces F t t
  | symm {t u : PathTerm} : Forces F t u → Forces F u t
  | trans {t u v : PathTerm} : Forces F t u → Forces F u v → Forces F t v
  | up {t : PathTerm} {q : Path} : Forces F (t.below q) (t.below q) → Forces F t t
  | congr {t u : PathTerm} {q : Path} : Forces F t u → Forces F (t.below q) (t.below q) →
      Forces F (t.below q) (u.below q)

/-- The facts that `F` forces, `F` itself among them. -/
def closure (F : Facts) : Facts where
  same := F.Forces
  value t a := ∃ u, F.Forces u t ∧ F.value u a

theorem closed_closure (F : Facts) : F.closure.Closed where
  symm := .symm
  trans := .trans
  up := .up
  congr := .congr
  has_of_value h := by
    obtain ⟨u, hu, -⟩ := h
    exact hu.symm.trans hu
  value_congr hs h := by
    obtain ⟨u, hu, ha⟩ := h
    exact ⟨u, hu.trans hs, ha⟩

theorem le_closure (F : Facts) : F ≤ F.closure :=
  ⟨fun _ _ => .of, fun t _ ha => ⟨t, .of_value ha, ha⟩⟩

theorem closure_le (hG : G.Closed) (h : F ≤ G) : F.closure ≤ G := by
  have hsame : ∀ t u, F.Forces t u → G.same t u := by
    intro t u hs
    induction hs with
    | of hs => exact h.1 _ _ hs
    | of_value ha => exact hG.has_of_value (h.2 _ _ ha)
    | symm _ ih => exact hG.symm ih
    | trans _ _ ih ih' => exact hG.trans ih ih'
    | up _ ih => exact hG.up ih
    | congr _ _ ih ih' => exact hG.congr ih ih'
  refine ⟨hsame, ?_⟩
  rintro t a ⟨u, hu, ha⟩
  exact hG.value_congr (hsame u t hu) (h.2 u a ha)

theorem closure_mono (h : F ≤ G) : F.closure ≤ G.closure :=
  closure_le G.closed_closure (h.trans G.le_closure)

theorem Closed.closure_eq (hF : F.Closed) : F.closure = F :=
  le_antisymm (closure_le hF le_rfl) F.le_closure

theorem closure_sup_closure (F G : Facts) : (F.closure ⊔ G).closure = (F ⊔ G).closure := by
  refine le_antisymm (closure_le (closed_closure _) (sup_le ?_ ?_)) (closure_mono ?_)
  · exact closure_mono le_sup_left
  · exact le_sup_right.trans (le_closure _)
  · exact sup_le_sup_right F.le_closure G

/-! ## Values put in place

Values that are added below what exists relate no paths to each other. -/

/-- `V` puts values and empty nodes in slots of `G`. -/
structure HangsOn (V G : Facts) : Prop where
  eq_of_same {t u : PathTerm} : V.same t u → t = u
  root {t : PathTerm} : V.Has t → G.Has ⟨t.slot, []⟩
  root_of_value {t : PathTerm} {a : Atom} : V.value t a → G.Has ⟨t.slot, []⟩

/-- Every path exists below what exists in `G`, and any value stands there. -/
def spread (G : Facts) : Facts where
  same t u := ∃ t' u' q, G.same t' u' ∧ t = t'.below q ∧ u = u'.below q
  value t _ := ∃ t' q, G.Has t' ∧ t = t'.below q

theorem spread_root (h : G.Has ⟨t.slot, []⟩) : ∃ t' q, G.Has t' ∧ t = t'.below q :=
  ⟨⟨t.slot, []⟩, t.path, h, by simp [PathTerm.below]⟩

theorem closed_spread (hG : G.Closed) : G.spread.Closed where
  symm := by
    rintro t u ⟨t', u', q, h, rfl, rfl⟩
    exact ⟨u', t', q, hG.symm h, rfl, rfl⟩
  trans := by
    rintro t u v ⟨t₁, u₁, q, h₁, rfl, rfl⟩ ⟨u₂, v₂, r, h₂, he, rfl⟩
    rcases PathTerm.below_eq_below.1 he with ⟨e, rfl, rfl⟩ | ⟨e, rfl, rfl⟩
    · have h := hG.congr (hG.symm h₁) (hG.has_left h₂)
      exact ⟨_, _, r, hG.trans (hG.symm h) h₂, by simp, rfl⟩
    · have h := hG.congr h₂ (hG.has_right h₁)
      exact ⟨_, _, q, hG.trans h₁ h, rfl, by simp⟩
  up := by
    rintro t q ⟨t', u', r, h, he, -⟩
    rcases PathTerm.below_eq_below.1 he with ⟨e, rfl, -⟩ | ⟨e, rfl, -⟩
    · exact ⟨t, t, [], hG.up (hG.has_left h), by simp, by simp⟩
    · exact ⟨t', t', e, hG.has_left h, rfl, rfl⟩
  congr := by
    rintro t u q ⟨t', u', r, h, rfl, rfl⟩ -
    exact ⟨t', u', r ++ q, h, by simp, by simp⟩
  has_of_value := by
    rintro t a ⟨t', q, h, rfl⟩
    exact ⟨t', t', q, h, rfl, rfl⟩
  value_congr := by
    rintro t u a ⟨t', u', q, h, rfl, rfl⟩ -
    exact ⟨u', q, hG.has_right h, rfl⟩

theorem acyclic_spread (hG : G.Acyclic) : G.spread.Acyclic := by
  rintro t q ⟨t', u', r, h, rfl, he⟩
  rw [PathTerm.below_below] at he
  rcases PathTerm.below_eq_below.1 he with ⟨e, rfl, hr⟩ | ⟨e, rfl, hr⟩
  · obtain rfl := hG _ _ h
    simpa using hr
  · have hlen := congrArg List.length hr
    simp only [List.length_append] at hlen
    exact List.length_eq_zero_iff.1 (by omega)

section HangsOn
variable (hG : G.Closed) (hV : V.HangsOn G)
include hG hV

theorem HangsOn.closure_le_spread : (G ⊔ V).closure ≤ G.spread := by
  refine closure_le (closed_spread hG) (sup_le ⟨?_, ?_⟩ ⟨?_, ?_⟩)
  · exact fun t u h => ⟨t, u, [], h, by simp, by simp⟩
  · exact fun t a h => ⟨t, [], hG.has_of_value h, by simp⟩
  · intro t u h
    obtain rfl := hV.eq_of_same h
    obtain ⟨t', q, ht', rfl⟩ := spread_root (hV.root h)
    exact ⟨t', t', q, ht', rfl, rfl⟩
  · exact fun t a h => spread_root (hV.root_of_value h)

theorem HangsOn.acyclic (hA : G.Acyclic) : (G ⊔ V).closure.Acyclic :=
  (acyclic_spread hA).mono (hV.closure_le_spread hG)

theorem HangsOn.same_of_forces (hs : (G ⊔ V).closure.same t u) (ht : G.Has t) : G.same t u := by
  obtain ⟨t', u', q, h, rfl, rfl⟩ := (hV.closure_le_spread hG).1 t u hs
  exact hG.congr h ht

theorem HangsOn.value_of_forces (ha : (G ⊔ V).closure.value t a) (ht : G.Has t) :
    G.value t a ∨ ∃ u, G.same u t ∧ V.value u a := by
  obtain ⟨u, hu, ha⟩ := ha
  have hs := hG.symm (hV.same_of_forces hG (Forces.symm hu) ht)
  rcases ha with ha | ha
  · exact .inl (hG.value_congr hs ha)
  · exact .inr ⟨u, hs, ha⟩

/-- What is new lies on the way to a value. -/
theorem HangsOn.has_or_value_below (hval : ∀ t, V.Has t → ∃ a, V.value t a)
    (ht : (G ⊔ V).closure.Has t) : G.Has t ∨ ∃ q a, (G ⊔ V).closure.value (t.below q) a := by
  have hcl := closed_closure (G ⊔ V)
  have hvalue : ∀ {t a}, (G ⊔ V).value t a → ∃ q a, (G ⊔ V).closure.value (t.below q) a :=
    fun {t a} ha => ⟨[], a, by simpa using (le_closure _).2 t a ha⟩
  have key : ∀ t u, (G ⊔ V).Forces t u →
      (G.Has t ∨ ∃ q a, (G ⊔ V).closure.value (t.below q) a) ∧
        (G.Has u ∨ ∃ q a, (G ⊔ V).closure.value (u.below q) a) := by
    intro t u h
    induction h with
    | of h =>
      rcases h with h | h
      · exact ⟨.inl (hG.has_left h), .inl (hG.has_right h)⟩
      · obtain rfl := hV.eq_of_same h
        obtain ⟨a, ha⟩ := hval _ h
        exact ⟨.inr (hvalue (.inr ha)), .inr (hvalue (.inr ha))⟩
    | of_value ha => exact ⟨.inr (hvalue ha), .inr (hvalue ha)⟩
    | symm _ ih => exact ih.symm
    | trans _ _ ih ih' => exact ⟨ih.1, ih'.2⟩
    | @up t q _ ih =>
      have h : G.Has t ∨ ∃ q a, (G ⊔ V).closure.value (t.below q) a := by
        rcases ih.1 with h | ⟨r, a, ha⟩
        · exact .inl (hG.up h)
        · exact .inr ⟨q ++ r, a, by simpa using ha⟩
      exact ⟨h, h⟩
    | @congr t u q hs hq _ ih =>
      refine ⟨ih.1, ?_⟩
      rcases ih.1 with h | ⟨r, a, ha⟩
      · have htu := hV.same_of_forces hG hs (hG.up h)
        exact .inl (hG.has_right (hG.congr htu h))
      · have h := hcl.congr (hcl.congr hs hq) (hcl.has_of_value ha)
        exact .inr ⟨r, a, hcl.value_congr h ha⟩
  exact (key t t ht).1

/-- Values fill no node, so what is empty afterwards was there and empty before. -/
theorem HangsOn.emptyAt (hval : ∀ t, V.Has t → ∃ a, V.value t a)
    (ht : (G ⊔ V).closure.EmptyAt t) : G.EmptyAt t := by
  have hcl := closed_closure (G ⊔ V)
  have hle : G ≤ (G ⊔ V).closure := le_sup_left.trans (le_closure _)
  rcases hV.has_or_value_below hG hval ht.has with hhas | ⟨q, a, ha⟩
  · exact ⟨hhas, fun a ha => ht.not_value a (hle.2 _ _ ha),
      fun f hf => ht.not_has_below f (hle.1 _ _ hf)⟩
  · cases q with
    | nil => exact absurd (by simpa using ha) (ht.not_value a)
    | cons f q =>
      refine absurd (hcl.up (q := q) ?_) (ht.not_has_below f)
      simpa using hcl.has_of_value ha

end HangsOn

/-! ## Levels -/

/-- Paths that are one are equally long, so no path can lead back to where it starts. -/
def Graded (F : Facts) : Prop := ∀ t u, F.same t u → t.path.length = u.path.length

theorem Graded.sup (hF : F.Graded) (hG : G.Graded) : (F ⊔ G).Graded :=
  fun t u => Or.rec (hF t u) (hG t u)

theorem Graded.all {Fs : List Facts} (h : ∀ F ∈ Fs, F.Graded) : (Facts.all Fs).Graded := by
  rintro t u ⟨F, hF, hs⟩
  exact h F hF t u hs

theorem Graded.closure (hF : F.Graded) : F.closure.Graded := by
  have hcl : Closed ⟨fun t u => t.path.length = u.path.length, fun _ _ => True⟩ := by
    refine ⟨Eq.symm, Eq.trans, fun _ => rfl, fun {t u q} h _ => ?_, fun _ => rfl,
      fun _ _ => trivial⟩
    simpa [PathTerm.below] using h
  exact (closure_le hcl ⟨hF, fun _ _ _ => trivial⟩).1

theorem Graded.acyclic (hF : F.Graded) : F.Acyclic := by
  intro t q hs
  have hlen := hF _ _ hs
  simp only [PathTerm.below, List.length_append] at hlen
  exact List.length_eq_zero_iff.1 (by omega)

end Facts

end FeatureLogic
