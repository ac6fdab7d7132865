import FeatureLogic.Proofs.Separation
/-!
One slot among others. When more comes to be said of one slot, the other slots are affected as far
as they share nodes with it: a path that comes to a node of the slot goes on as the slot does.
-/
set_option autoImplicit false

namespace FeatureLogic.Facts

variable {F G K C : Facts} {i : SlotIndex} {p q s x y : Path} {t u v : PathTerm} {a : Atom}

/-- The term comes to the path `s ++ q` of the slot through a node that it shares with `s`. -/
def Via (G : Facts) (i : SlotIndex) (s q : Path) (t : PathTerm) : Prop :=
  ∃ t', G.same t' ⟨i, s⟩ ∧ t = t'.below q

section
variable (hG : G.Closed)
include hG

theorem Via.same_of_has (ht : G.Via i s q t) (hu : G.Via i s q u) (h : G.Has t) : G.same t u := by
  obtain ⟨t', ht', rfl⟩ := ht
  obtain ⟨u', hu', rfl⟩ := hu
  exact hG.congr (hG.trans ht' (hG.symm hu')) h

/-- Terms that agree come to the same paths, possibly by a node further down. -/
theorem Via.spread (ht : G.Via i s q t) (htu : G.spread.same t u) :
    ∃ s' q', s ++ q = s' ++ q' ∧ G.Via i s' q' u ∧ ∀ v, G.Via i s q v → G.Via i s' q' v := by
  obtain ⟨t₁, ht₁, rfl⟩ := ht
  obtain ⟨t₂, u₂, q', htu, he, rfl⟩ := htu
  rcases PathTerm.below_eq_below.1 he with ⟨e, rfl, rfl⟩ | ⟨e, rfl, rfl⟩
  · -- what agrees is further down than the node that is shared
    have hs : G.same (t₁.below e) ⟨i, s ++ e⟩ := hG.congr ht₁ (hG.has_left htu)
    refine ⟨s ++ e, q', by simp, ⟨u₂, hG.trans (hG.symm htu) hs, rfl⟩, ?_⟩
    rintro v ⟨v₁, hv₁, rfl⟩
    exact ⟨v₁.below e, hG.symm (hG.congr (hG.symm hv₁) (hG.has_right hs)), by simp⟩
  · have hu : G.same (u₂.below e) ⟨i, s⟩ :=
      hG.trans (hG.symm (hG.congr htu (hG.has_left ht₁))) ht₁
    exact ⟨s, q, rfl, ⟨u₂.below e, hu, by simp⟩, fun v hv => hv⟩

end

/-- The term comes to the path of the slot. -/
def Reach (G : Facts) (i : SlotIndex) (t : PathTerm) (x : Path) : Prop :=
  ∃ s q, x = s ++ q ∧ G.Via i s q t

/-- `G`, and what `K` says of the slot as far as it can be seen from there. -/
def amalgam (G : Facts) (i : SlotIndex) (K : Facts) : Facts where
  same t u := G.same t u ∨ ∃ x y, G.Reach i t x ∧ G.Reach i u y ∧ K.same ⟨i, x⟩ ⟨i, y⟩
  value t a := G.value t a ∨ ∃ x, G.Reach i t x ∧ K.value ⟨i, x⟩ a

theorem Reach.below (h : G.Reach i t x) (q : Path) : G.Reach i (t.below q) (x ++ q) := by
  obtain ⟨s, r, rfl, t', ht, rfl⟩ := h
  exact ⟨s, r ++ q, by simp, t', ht, by simp⟩

/-- The slot comes to its own paths. -/
theorem Reach.own (h : G.Has ⟨i, []⟩) (x : Path) : G.Reach i ⟨i, x⟩ x :=
  ⟨[], x, rfl, ⟨i, []⟩, h, by simp [PathTerm.below]⟩

theorem same_spread (h : G.same t u) (q : Path) : G.spread.same (t.below q) (u.below q) :=
  ⟨t, u, q, h, rfl, rfl⟩

section
variable (hG : G.Closed)
include hG

theorem Reach.congr (h : G.Reach i t x) (htu : G.spread.same t u) : G.Reach i u x := by
  obtain ⟨s, q, rfl, ht⟩ := h
  obtain ⟨s', q', he, hu, -⟩ := ht.spread hG htu
  exact ⟨s', q', he, hu⟩

theorem Reach.congr_same (h : G.Reach i t x) (htu : G.same t u) : G.Reach i u x :=
  h.congr hG (by simpa using same_spread htu [])

theorem Reach.same_of_has (h : G.Reach i t x) (ht : G.Has t) : G.same t ⟨i, x⟩ := by
  obtain ⟨s, q, rfl, t', ht', rfl⟩ := h
  exact hG.congr ht' ht

/-- The path above comes to the slot as well, unless it goes on at least a step before that. -/
theorem Reach.up (h : G.Reach i (t.below q) x) :
    (∃ y, x = y ++ q ∧ G.Reach i t y) ∨ ∃ f r, q = f :: r ∧ G.Has (t.below [f]) := by
  obtain ⟨s, r, rfl, t', ht, he⟩ := h
  rcases PathTerm.below_eq_below.1 he with ⟨e, rfl, rfl⟩ | ⟨e, rfl, rfl⟩
  · cases e with
    | nil => exact .inl ⟨s, by simp, s, [], by simp, t, by simpa using ht, by simp⟩
    | cons f e => exact .inr ⟨f, e ++ r, rfl, hG.up (q := e) (by simpa using hG.has_left ht)⟩
  · exact .inl ⟨s ++ e, by simp, s, e, rfl, t', ht, rfl⟩

variable (hK : K.Closed) (hle : G.on (· = i) ≤ K)
include hK hle

/-- Paths of the slot that one term comes to are one, as soon as they are there. -/
theorem Reach.same (hx : G.Reach i t x) (hy : G.Reach i t y) (h : K.Has ⟨i, x⟩) :
    K.same ⟨i, x⟩ ⟨i, y⟩ := by
  obtain ⟨s, q, rfl, t₁, h₁, rfl⟩ := hx
  obtain ⟨s', q', rfl, t₂, h₂, he⟩ := hy
  rcases PathTerm.below_eq_below.1 he with ⟨e, rfl, rfl⟩ | ⟨e, rfl, rfl⟩
  · have hs : G.same ⟨i, s ++ e⟩ ⟨i, s'⟩ := hG.trans (hG.symm (hG.congr h₁ (hG.has_left h₂))) h₂
    have hdown := hK.congr (q := q') (hle.1 _ _ ⟨hs, rfl, rfl⟩)
    simp only [PathTerm.below, List.append_assoc] at hdown
    exact hdown h
  · have hs : G.same ⟨i, s⟩ ⟨i, s' ++ e⟩ := hG.trans (hG.symm h₁) (hG.congr h₂ (hG.has_left h₁))
    have hdown := hK.congr (q := q) (hle.1 _ _ ⟨hs, rfl, rfl⟩)
    simp only [PathTerm.below, List.append_assoc] at hdown
    exact hdown h

/-- Where a term comes to the slot, what is there is there in the slot. -/
theorem Reach.has_of_amalgam (hx : G.Reach i t x) (h : (G.amalgam i K).Has t) : K.Has ⟨i, x⟩ := by
  rcases h with h | ⟨y, z, hy, -, hyz⟩
  · exact hle.1 _ _ ⟨hG.has_right (hx.same_of_has hG h), rfl, rfl⟩
  · exact hK.has_right (hy.same hG hK hle hx (hK.has_left hyz))

theorem Reach.value_of_amalgam (hx : G.Reach i t x) (h : (G.amalgam i K).value t a) :
    K.value ⟨i, x⟩ a := by
  rcases h with h | ⟨y, hy, ha⟩
  · have hs := hx.same_of_has hG (hG.has_of_value h)
    exact hle.2 _ _ ⟨hG.value_congr hs h, rfl⟩
  · exact hK.value_congr (hy.same hG hK hle hx (hK.has_of_value ha)) ha

theorem closed_amalgam : (G.amalgam i K).Closed where
  symm := by
    rintro t u (h | ⟨x, y, hx, hy, h⟩)
    · exact .inl (hG.symm h)
    · exact .inr ⟨y, x, hy, hx, hK.symm h⟩
  trans := by
    rintro t u v (htu | ⟨x, y, hx, hy, hxy⟩) (huv | ⟨y', z, hy', hz, hyz⟩)
    · exact .inl (hG.trans htu huv)
    · exact .inr ⟨y', z, hy'.congr_same hG (hG.symm htu), hz, hyz⟩
    · exact .inr ⟨x, y, hx, hy.congr_same hG huv, hxy⟩
    · exact .inr ⟨x, z, hx, hz,
        hK.trans hxy (hK.trans (hy.same hG hK hle hy' (hK.has_right hxy)) hyz)⟩
  up := by
    rintro t q (h | ⟨x, y, hx, -, hxy⟩)
    · exact .inl (hG.up h)
    · rcases hx.up hG with ⟨x', rfl, hx'⟩ | ⟨f, r, -, h⟩
      · have hhas : K.Has ⟨i, x'⟩ := hK.up (q := q) (hK.has_left hxy)
        exact .inr ⟨x', x', hx', hx', hhas⟩
      · exact .inl (hG.up h)
  congr := by
    rintro t u q (htu | ⟨x, y, hx, hy, hxy⟩) hq
    · rcases hq with hq | ⟨x, y, hx, -, hxy⟩
      · exact .inl (hG.congr htu hq)
      · exact .inr ⟨x, x, hx, hx.congr hG (same_spread htu q), hK.has_left hxy⟩
    · have hhas := (hx.below q).has_of_amalgam hG hK hle hq
      exact .inr ⟨x ++ q, y ++ q, hx.below q, hy.below q, hK.congr (q := q) hxy hhas⟩
  has_of_value := by
    rintro t a (h | ⟨x, hx, ha⟩)
    · exact .inl (hG.has_of_value h)
    · exact .inr ⟨x, x, hx, hx, hK.has_of_value ha⟩
  value_congr := by
    rintro t u a (htu | ⟨x, y, hx, hy, hxy⟩) h
    · rcases h with h | ⟨x, hx, ha⟩
      · exact .inl (hG.value_congr htu h)
      · exact .inr ⟨x, hx.congr_same hG htu, ha⟩
    · exact .inr ⟨y, hy, hK.value_congr hxy (hx.value_of_amalgam hG hK hle h)⟩

/-- A clash anywhere is a clash in the slot. -/
theorem Consistent.amalgam (hGc : G.Consistent) (hKc : K.Consistent) :
    (G.amalgam i K).Consistent := by
  have hH := closed_amalgam hG hK hle
  refine ⟨fun {t a b} ha hb => ?_, fun {t a f} ha hf => ?_⟩
  · rcases ha with ha' | ⟨x, hx, ha'⟩
    · rcases hb with hb | ⟨x, hx, hb⟩
      · exact hGc.value_unique ha' hb
      · exact hKc.value_unique (hx.value_of_amalgam hG hK hle (.inl ha')) hb
    · exact hKc.value_unique ha' (hx.value_of_amalgam hG hK hle hb)
  · have hclash : ∀ x, G.Reach i t x → False := fun x hx =>
      hKc.not_has_below (hx.value_of_amalgam hG hK hle ha)
        ((hx.below [f]).has_of_amalgam hG hK hle hf)
    rcases ha with ha | ⟨x, hx, -⟩
    · rcases hf with hf | ⟨x, y, hx, -⟩
      · exact hGc.not_has_below ha hf
      · rcases hx.up hG with ⟨x', -, hx'⟩ | ⟨f', r, he, h⟩
        · exact hclash x' hx'
        · cases he
          exact hGc.not_has_below ha h
    · exact hclash x hx

end

/-- The facts that one slot brings about are those it brings about on its own, seen from wherever
it is shared. -/
theorem closure_sup_eq_amalgam (hG : G.Closed) (hC : C ≤ about (· = i)) (hroot : G.Has ⟨i, []⟩) :
    (G ⊔ C).closure = G.amalgam i (G.on (· = i) ⊔ C).closure := by
  have hK := closed_closure (G.on (· = i) ⊔ C)
  have hKle := le_closure (G.on (· = i) ⊔ C)
  have hF := closed_closure (G ⊔ C)
  have hFle := le_sup_left.trans (le_closure (G ⊔ C))
  have hKF : (G.on (· = i) ⊔ C).closure ≤ (G ⊔ C).closure :=
    closure_mono (sup_le_sup_right (G.on_le _) C)
  have hreach : ∀ {t x}, G.Reach i t x → (G ⊔ C).closure.Has ⟨i, x⟩ →
      (G ⊔ C).closure.same ⟨i, x⟩ t := by
    rintro _ _ ⟨s, q, rfl, t', ht, rfl⟩ h
    exact hF.congr (q := q) (hF.symm (hFle.1 _ _ ht)) h
  apply le_antisymm
  · refine closure_le (closed_amalgam hG hK (le_sup_left.trans hKle))
      (sup_le ⟨fun _ _ => .inl, fun _ _ => .inl⟩ ⟨?_, ?_⟩)
    · rintro ⟨j, x⟩ ⟨k, y⟩ h
      obtain ⟨rfl, rfl⟩ : j = i ∧ k = i := hC.1 _ _ h
      exact .inr ⟨x, y, .own hroot x, .own hroot y, hKle.1 _ _ (.inr h)⟩
    · rintro ⟨j, x⟩ a h
      obtain rfl : j = i := hC.2 _ _ h
      exact .inr ⟨x, .own hroot x, hKle.2 _ _ (.inr h)⟩
  · refine ⟨?_, ?_⟩
    · rintro t u (h | ⟨x, y, hx, hy, h⟩)
      · exact hFle.1 _ _ h
      · have hxy := hKF.1 _ _ h
        exact hF.trans (hF.symm (hreach hx (hF.has_left hxy)))
          (hF.trans hxy (hreach hy (hF.has_right hxy)))
    · rintro t a (h | ⟨x, hx, h⟩)
      · exact hFle.2 _ _ h
      · have ha := hKF.2 _ _ h
        exact hF.value_congr (hreach hx (hF.has_of_value ha)) ha

/-- In the slot itself there is nothing but what is said of it. -/
theorem amalgam_on (hG : G.Closed) (hK : K.Closed) (hle : G.on (· = i) ≤ K)
    (hKi : K ≤ about (· = i)) (hroot : G.Has ⟨i, []⟩) : (G.amalgam i K).on (· = i) = K := by
  apply le_antisymm
  · refine ⟨?_, ?_⟩
    · rintro ⟨j, p⟩ ⟨k, q⟩ ⟨h, hj, hk⟩
      obtain rfl : j = i := hj
      obtain rfl : k = j := hk
      rcases h with h | ⟨x, y, hx, hy, hxy⟩
      · exact hle.1 _ _ ⟨h, rfl, rfl⟩
      · have hp := hx.same hG hK hle (.own hroot p) (hK.has_left hxy)
        exact hK.trans (hK.symm hp) (hK.trans hxy
          (hy.same hG hK hle (.own hroot q) (hK.has_right hxy)))
    · rintro ⟨j, p⟩ a ⟨h, hj⟩
      obtain rfl : j = i := hj
      exact (Reach.own hroot p).value_of_amalgam hG hK hle h
  · refine ⟨?_, ?_⟩
    · rintro ⟨j, p⟩ ⟨k, q⟩ h
      obtain ⟨rfl, rfl⟩ : j = i ∧ k = i := hKi.1 _ _ h
      exact ⟨.inr ⟨p, q, .own hroot p, .own hroot q, h⟩, rfl, rfl⟩
    · rintro ⟨j, p⟩ a h
      obtain rfl : j = i := hKi.2 _ _ h
      exact ⟨.inr ⟨p, .own hroot p, h⟩, rfl⟩

end FeatureLogic.Facts
