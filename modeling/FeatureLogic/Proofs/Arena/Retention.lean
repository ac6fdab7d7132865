import FeatureLogic.Proofs.Arena.Acyclicity
/-!
What merges keep when it is not known that they make no cycle. A node that is forwarded gives up its
content, which is a loss only if it has been given children during the merge itself; then its
features lead round in a circle, and always will. So whatever is grounded in the end has lost
nothing, at whichever point the merge stopped.
-/
set_option autoImplicit false

namespace FeatureLogic.Arena

variable {given : Content → Prop} {g h i : Arena} {n m l r c d : NodeId} {f : Feature} {p q : Path}
  {a : Atom} {b : Bool}

/-- Nodes stay one, atoms stay, complex nodes stay complex, and below what is grounded in `h` no
child has been lost. -/
structure Spares (g h : Arena) : Prop where
  resolve (n : NodeId) : h.resolve (g.resolve n) = h.resolve n
  atom {n : NodeId} {a : Atom} : g.content n = .atom a → h.content n = .atom a
  complex {n : NodeId} : (g.content n).isComplex = true → (h.content n).isComplex = true
  grounded {n : NodeId} : h.Grounded n → g.Grounded n
  child {n c : NodeId} {f : Feature} : h.Grounded n → g.child? n f = some c →
    ∃ d, h.child? n f = some d ∧ h.resolve d = h.resolve c

namespace Spares

theorem resolve_eq (hgh : g.Spares h) (he : g.resolve n = g.resolve m) :
    h.resolve n = h.resolve m := by
  rw [← hgh.resolve n, ← hgh.resolve m, he]

theorem trans (hgh : g.Spares h) (hhi : h.Spares i) : g.Spares i where
  resolve n := hhi.resolve_eq (hgh.resolve n)
  atom ha := hhi.atom (hgh.atom ha)
  complex hc := hhi.complex (hgh.complex hc)
  grounded hn := hgh.grounded (hhi.grounded hn)
  child hn hc := by
    obtain ⟨d, hd, hdc⟩ := hgh.child (hhi.grounded hn) hc
    obtain ⟨e, he, hed⟩ := hhi.child hn hd
    exact ⟨e, he, hed.trans (hhi.resolve_eq hdc)⟩

/-- A cycle that grows is a cycle still. -/
theorem of_grows (hg : g.Settled) (hgh : g.Grows h)
    (hcomplex : ∀ n, (g.content n).isComplex = true → (h.content n).isComplex = true) :
    g.Spares h where
  resolve := hgh.resolve
  atom := hgh.atom
  complex := hcomplex _
  child _ hc := hgh.child hc
  grounded hn := by
    induction hn with
    | intro n _ ih =>
      refine .of_children (fun f c hc => ?_) hg
      obtain ⟨d, hd, hdc⟩ := hgh.child hc
      exact ih c ⟨f, d, hd, hdc⟩

theorem of_view (hg : g.Settled) (hv : SameView g h) : g.Spares h :=
  .of_grows hg (hv.grows hg) fun _ hn => hv.content ▸ hn

theorem refl (hg : g.Settled) : g.Spares g := .of_view hg (.refl hg)

theorem of_adds (hg : g.Settled) (hgh : Adds given g h) : g.Spares h :=
  .of_grows hg hgh.grows fun _ => hgh.complex

theorem alloc (hg : g.Settled) (c : Content) : g.Spares (g.alloc c).2 :=
  .of_grows hg (.alloc hg c) fun _ => isComplex_alloc hg c

theorem lookup (hh : h.Settled) (hgh : g.Spares h) (hn : h.Grounded n)
    (hl : g.lookup n p = .found m) : h.lookup n p = .found (h.resolve m) := by
  induction p generalizing n with
  | nil =>
    cases hl
    rw [Arena.lookup, hgh.resolve]
  | cons f p ih =>
    obtain ⟨c, hc, hrest⟩ := lookup_cons_eq_found.1 hl
    obtain ⟨d, hd, hdc⟩ := hgh.child hn hc
    rw [lookup_cons_of_child hd, hh.lookup_congr hdc]
    exact ih ((hn.child hd).congr hh hdc) hrest

theorem reaches (hh : h.Settled) (hgh : g.Spares h) (hn : h.Grounded n) (hr : g.Reaches n m) :
    h.Reaches n m := by
  obtain ⟨p, hp⟩ := hr
  exact ⟨p, by rw [hgh.lookup hh hn hp, hgh.resolve]⟩

end Spares

/-! ## Forwarding a node -/

section Forwarding
variable (he : Follows.Ends given g l r) (hne : l ≠ r)
include he hne

theorem child?_redirect_of_ne (hn : g.resolve n ≠ l) (f : Feature) :
    (g.redirect l r).child? n f = g.child? n f := by
  rw [child?_eq, child?_eq, he.content_redirect hne, if_neg hn]

theorem resolve_redirect_right (hn : g.resolve n = l ∨ g.resolve n = r) :
    (g.redirect l r).resolve n = r := by
  rw [he.resolve_redirect hne]
  rcases hn with hn | hn
  · exact if_pos hn
  · rw [if_neg (hn ▸ Ne.symm hne), hn]

theorem Reaches.redirect (h : g.Reaches n l) : (g.redirect l r).Reaches n r := by
  obtain ⟨p, hp⟩ := h
  have hstart : ∀ {n}, g.resolve n = l → (g.redirect l r).Reaches n r := fun hn =>
    .of_resolve ((resolve_redirect_right he hne (.inl hn)).trans
      (resolve_redirect_right he hne (.inr he.resolve_right)).symm)
  induction p generalizing n with
  | nil => exact hstart ((Lookup.found.inj hp).trans he.resolve_left)
  | cons f p ih =>
    by_cases hn : g.resolve n = l
    · exact hstart hn
    · obtain ⟨c, hc, hrest⟩ := lookup_cons_eq_found.1 hp
      exact .of_child ((child?_redirect_of_ne he hne hn f).trans hc) (ih hrest)

/-- If `r` leads to `l`, it has been made to lead back to itself. -/
theorem not_reaches_of_redirect (hend : (g.redirect l r).Grounded r) : ¬ g.Reaches r l := by
  rintro ⟨p, hp⟩
  cases p with
  | nil =>
    rw [lookup, he.resolve_right, he.resolve_left] at hp
    exact hne (Lookup.found.inj hp).symm
  | cons f p =>
    obtain ⟨c, hc, hrest⟩ := lookup_cons_eq_found.1 hp
    obtain ⟨q, hq⟩ := Reaches.redirect he hne ⟨p, hrest⟩
    have hrl : g.resolve r ≠ l := by rw [he.resolve_right]; exact Ne.symm hne
    have hback : (g.redirect l r).lookup r (f :: q) = .found ((g.redirect l r).resolve r) := by
      rw [lookup_cons_of_child ((child?_redirect_of_ne he hne hrl f).trans hc), hq]
    cases hend.eq_nil (he.redirect hne).sound.settled hback

theorem grounded_of_redirect (hend : (g.redirect l r).Grounded r) : g.Grounded r := by
  have hg := he.sound.settled
  have hapart := not_reaches_of_redirect he hne hend
  have key : ∀ n, (g.redirect l r).Grounded n → g.Reaches r n → g.Grounded n := by
    intro n hn
    induction hn with
    | intro n _ ih =>
      intro hreach
      have hnl : g.resolve n ≠ l := fun hnl => by
        obtain ⟨p, hp⟩ := hreach
        exact hapart ⟨p, by rw [hp, hnl, he.resolve_left]⟩
      refine .of_children (fun f c hc => ?_) hg
      have hc' := (child?_redirect_of_ne he hne hnl f).trans hc
      exact ih c ⟨f, c, hc', rfl⟩ (hreach.child hg hc)
  exact key r hend (.of_resolve rfl)

/-- If `r` ends up on a cycle, so does whatever leads to `l`. -/
theorem Spares.redirect_of_not_grounded (hatom : ∀ a, g.content l = .atom a → g.content r = .atom a)
    (hcomplex : (g.content l).isComplex = true → (g.content r).isComplex = true)
    (hend : ¬ (g.redirect l r).Grounded r) : g.Spares (g.redirect l r) := by
  have hg := he.sound.settled
  have hs := (he.redirect hne).sound.settled
  have hres := he.resolve_redirect hne
  have hcon := he.content_redirect hne
  have hl : ∀ {n}, g.resolve n = l → g.content n = g.content l := fun hn => by
    rw [← hn, hg.content_resolve]
  have hapart : ∀ {n}, (g.redirect l r).Grounded n → g.resolve n ≠ l := by
    intro n hn hnl
    exact hend (hn.congr hs ((resolve_redirect_right he hne (.inl hnl)).trans
      (resolve_redirect_right he hne (.inr he.resolve_right)).symm))
  have hchild := fun {n f} hn => child?_redirect_of_ne (n := n) he hne hn f
  refine ⟨fun n => ?_, fun {n a} ha => ?_, fun {n} hc => ?_, fun {n} hn => ?_,
    fun {n c f} hn hc => ?_⟩
  · rw [hres, hres, hg.resolve_resolve]
  · rw [hcon]
    split
    · rename_i hnl
      exact hatom a (hl hnl ▸ ha)
    · exact ha
  · rw [hcon]
    split
    · rename_i hnl
      exact hcomplex (hl hnl ▸ hc)
    · exact hc
  · induction hn with
    | intro n hacc ih =>
      have hnl := hapart (.intro n hacc)
      refine .of_children (fun f c hc => ?_) hg
      exact ih c ⟨f, c, (hchild hnl).trans hc, rfl⟩
  · exact ⟨c, (hchild (hapart hn)).trans hc, rfl⟩

/-- To forward a node to one that has all that it holds. -/
theorem Spares.redirect (hatom : ∀ a, g.content l = .atom a → g.content r = .atom a)
    (hcomplex : (g.content l).isComplex = true → (g.content r).isComplex = true)
    (hchild : ∀ f c, g.child? l f = some c →
      ∃ d, g.child? r f = some d ∧ g.resolve d = g.resolve c) : g.Spares (g.redirect l r) := by
  have hg := he.sound.settled
  refine .of_grows hg (.redirect hg he.left_lt he.right_lt he.resolve_left he.resolve_right hne
    hatom hchild) fun n hn => ?_
  rw [he.content_redirect hne]
  split
  · rename_i hnl
    refine hcomplex ?_
    rwa [← hnl, hg.content_resolve]
  · exact hn

end Forwarding

/-! ## Merging -/

/-- Only nodes in the region `R` are read differently in `h`. -/
def Touches (R : NodeId → Prop) (g h : Arena) : Prop :=
  ∀ n, (h.resolve n = g.resolve n ∧ h.content n = g.content n) ∨ R n

namespace Touches
variable {R S : NodeId → Prop}

theorem of_view (hv : SameView g h) : Touches R g h :=
  fun _ => .inl ⟨by rw [hv.resolve], by rw [hv.content]⟩

theorem mono (hRS : ∀ n, R n → S n) (hgh : Touches R g h) : Touches S g h :=
  fun n => (hgh n).imp id (hRS n)

theorem trans (hgh : Touches R g h) (hhi : Touches R h i) : Touches R g i := by
  intro n
  rcases hgh n with ⟨hr, hc⟩ | hn
  · exact (hhi n).imp (fun ⟨hr', hc'⟩ => ⟨hr'.trans hr, hc'.trans hc⟩) id
  · exact .inr hn

theorem redirect (he : Follows.Ends given g l r) (hne : l ≠ r) :
    Touches (fun n => (g.redirect l r).resolve n = r) g (g.redirect l r) := by
  intro n
  by_cases hn : g.resolve n = l
  · exact .inr (resolve_redirect_right he hne (.inl hn))
  · exact .inl ⟨(he.resolve_redirect hne n).trans (if_neg hn),
      (he.content_redirect hne n).trans (if_neg hn)⟩

end Touches

/-- `h` is `g` after a merge of `l` and `r`, however that ended. -/
structure Unites (g : Arena) (l r : NodeId) (b : Bool) (h : Arena) : Prop where
  spares : g.Spares h
  resolve_eq : b = true → h.resolve l = h.resolve r
  touches : h.Grounded l → h.Grounded r → Touches (fun n => h.Reaches l n ∨ h.Reaches r n) g h

namespace Unites

theorem symm (hu : Unites g l r b h) : Unites g r l b h :=
  ⟨hu.spares, fun hb => (hu.resolve_eq hb).symm,
    fun hr hl => (hu.touches hl hr).mono fun _ => Or.symm⟩

/-- What the ends of two chains come to, the nodes come to from which these start. -/
theorem of_dechain {g₁ : Arena} {l' r' : NodeId} (hg : g.Settled) (hi : i.Settled)
    (hdl : g.dechain l = (l', g₁)) (hdr : g₁.dechain r = (r', h)) (hu : Unites h l' r' b i) :
    Unites g l r b i := by
  obtain ⟨rfl, rfl, hv⟩ := dechain_both hg hdl hdr
  have hspares := (Spares.of_view hg hv).trans hu.spares
  have hl := hspares.resolve l
  have hr := hspares.resolve r
  refine ⟨hspares, fun hb => by rw [← hl, ← hr, hu.resolve_eq hb], fun hgl hgr => ?_⟩
  refine (Touches.of_view hv).trans ((hu.touches (hgl.congr hi hl.symm) (hgr.congr hi hr.symm)).mono
    fun n hn => ?_)
  exact hn.imp (.congr_left hi hl) (.congr_left hi hr)

theorem unchanged (hg : g.Settled) (hb : b = true → g.resolve l = g.resolve r) :
    Unites g l r b g :=
  ⟨.refl hg, hb, fun _ _ => .of_view (.refl hg)⟩

end Unites

/-- The nodes that change while children go into `r`: `r` itself, and what lies below the
children. -/
def Nearby (h : Arena) (r : NodeId) (es : List (Feature × NodeId)) (n : NodeId) : Prop :=
  h.resolve n = h.resolve r ∨
    ∃ e ∈ es, h.Reaches e.2 n ∨ ∃ d, h.child? r e.1 = some d ∧ h.Reaches d n

/-- A merge of the child `c` with the child that `r` has, seen from any later arena. -/
theorem Unites.touches_child (hh : h.Settled) (hi : i.Settled) {own : NodeId}
    (hown : g.child? r f = some own) (hu : Unites g c own b h) (hhi : h.Spares i)
    (hr : i.Grounded r) (hc : i.Grounded c) :
    Touches (fun n => i.Reaches c n ∨ ∃ d, i.child? r f = some d ∧ i.Reaches d n) g h := by
  obtain ⟨d, hd, hdown⟩ := hu.spares.child (hhi.grounded hr) hown
  obtain ⟨e, he, hed⟩ := hhi.child hr hd
  have hown' : h.Grounded own := ((hhi.grounded hr).child hd).congr hh hdown
  have heown : i.resolve e = i.resolve own := hed.trans (hhi.resolve_eq hdown)
  refine (hu.touches (hhi.grounded hc) hown').mono fun n hn => ?_
  rcases hn with hn | hn
  · exact .inl (hhi.reaches hi hc hn)
  · have hreach := hhi.reaches hi ((hr.child he).congr hi heown) hn
    exact .inr ⟨e, he, hreach.congr_left hi heown.symm⟩

/-- While the children `es` go into `r`, which is complex, nothing is lost that is grounded in the
end; those that are in place are one with the children of `r`. -/
structure Fills (g : Arena) (r : NodeId) (es : List (Feature × NodeId)) (b : Bool) (h : Arena) :
    Prop where
  spares : g.Spares h
  children : b = true → h.Grounded r →
    ∀ e ∈ es, ∃ d, h.child? r e.1 = some d ∧ h.resolve d = h.resolve e.2
  touches : h.Grounded r → (∀ e ∈ es, h.Grounded e.2) → Touches (h.Nearby r es) g h

theorem Nearby.of_rest {es : List (Feature × NodeId)} {e : Feature × NodeId}
    (hn : h.Nearby r es n) : h.Nearby r (e :: es) n := by
  rcases hn with hn | ⟨e', he, hn⟩
  · exact .inl hn
  · exact .inr ⟨e', List.mem_cons_of_mem _ he, hn⟩

namespace Fills
variable {es : List (Feature × NodeId)} {own : NodeId}

theorem of_view (hg : g.Settled) (hv : SameView g h) (hf : Fills h r es b i) : Fills g r es b i :=
  ⟨(Spares.of_view hg hv).trans hf.spares, hf.children,
    fun hr hes => (Touches.of_view hv).trans (hf.touches hr hes)⟩

theorem to_view (hh : h.Settled) (hv : SameView h i) (hf : Fills g r es b h) :
    Fills g r es b i := by
  have hnear : ∀ n, h.Nearby r es n → i.Nearby r es n := fun n => by
    simp only [Nearby, hv.reaches_iff, hv.child?, hv.resolve, imp_self]
  refine ⟨hf.spares.trans (.of_view hh hv), ?_, fun hr hes => ?_⟩
  · simpa only [hv.grounded_iff, hv.child?, hv.resolve] using hf.children
  · simp only [hv.grounded_iff] at hr hes
    exact ((hf.touches hr hes).mono hnear).trans (.of_view hv)

/-- A child that `r`, which ends at `n`, has not got yet. -/
theorem attach (hg : g.Settled) (hn : n < g.size) (he : g.resolve n = n) (hr : g.resolve r = n)
    (hs : g.Spares (g.attach n f c)) (hf : Fills (g.attach n f c) r es b h) :
    Fills g r ((f, c) :: es) b h := by
  obtain ⟨-, -, hres, hcon⟩ := attach_view hg hn he f c
  have hchild : (g.attach n f c).child? r f = some c := by
    rw [child?_attach hg hn he, if_pos ⟨hr, rfl⟩]
  have htouched : Touches (h.Nearby r ((f, c) :: es)) g (g.attach n f c) := by
    intro m
    by_cases hm : g.resolve m = n
    · refine .inr (.inl (hf.spares.resolve_eq ?_))
      rw [hres, hres, hm, hr]
    · exact .inl ⟨hres m, by rw [hcon, if_neg hm]⟩
  refine ⟨hs.trans hf.spares, fun hb hgr => ?_, fun hgr hges => ?_⟩
  · exact List.forall_mem_cons.2 ⟨hf.spares.child hgr hchild, hf.children hb hgr⟩
  · exact htouched.trans ((hf.touches hgr (List.forall_mem_cons.1 hges).2).mono
      fun _ => Nearby.of_rest)

theorem nearby (hh : h.Settled) (hi : i.Settled) (hown : g.child? r f = some own)
    (hu : Unites g c own b h) (hhi : h.Spares i) (hr : i.Grounded r)
    (hes : ∀ e ∈ (f, c) :: es, i.Grounded e.2) : Touches (i.Nearby r ((f, c) :: es)) g h := by
  refine (hu.touches_child hh hi hown hhi hr (hes (f, c) List.mem_cons_self)).mono fun n hn => ?_
  exact .inr ⟨(f, c), List.mem_cons_self, hn⟩

/-- A child that has been merged with the one that `r` has. -/
theorem merge (hh : h.Settled) (hi : i.Settled) (hown : g.child? r f = some own)
    (hu : Unites g c own true h) (hf : Fills h r es b i) : Fills g r ((f, c) :: es) b i := by
  refine ⟨hu.spares.trans hf.spares, fun hb hgr => ?_, fun hgr hges => ?_⟩
  · obtain ⟨d, hd, hdown⟩ := hu.spares.child (hf.spares.grounded hgr) hown
    obtain ⟨e, he, hed⟩ := hf.spares.child hgr hd
    have hone : h.resolve d = h.resolve c := hdown.trans (hu.resolve_eq rfl).symm
    exact List.forall_mem_cons.2 ⟨⟨e, he, hed.trans (hf.spares.resolve_eq hone)⟩,
      hf.children hb hgr⟩
  · exact (nearby hh hi hown hu hf.spares hgr hges).trans
      ((hf.touches hgr (List.forall_mem_cons.1 hges).2).mono fun _ => Nearby.of_rest)

/-- A child that clashes with the one that `r` has. -/
theorem stop (hh : h.Settled) (hown : g.child? r f = some own) (hu : Unites g c own false h) :
    Fills g r ((f, c) :: es) false h :=
  ⟨hu.spares, fun hb => (by cases hb),
    fun hgr hges => nearby hh hh hown hu (.refl hh) hgr hges⟩

end Fills

/-- What has changed lies below `r`, or below a node that has all these children. -/
theorem Fills.touches_reached {es : List (Feature × NodeId)} (hh : h.Settled)
    (hf : Fills g r es b h) (hr : h.Grounded r) (hm : h.Grounded m)
    (hes : ∀ e ∈ es, ∃ d, h.child? m e.1 = some d ∧ h.resolve d = h.resolve e.2) :
    Touches (fun n => h.Reaches m n ∨ h.Reaches r n) g h := by
  have hgrounded : ∀ e ∈ es, h.Grounded e.2 := by
    intro e he
    obtain ⟨d, hd, hde⟩ := hes e he
    exact (hm.child hd).congr hh hde
  refine (hf.touches hr hgrounded).mono fun n hn => ?_
  rcases hn with hn | ⟨e, he, hn | ⟨d, hd, hn⟩⟩
  · exact .inr (.of_resolve hn.symm)
  · obtain ⟨d, hd, hde⟩ := hes e he
    exact .inl (.of_child hd (hn.congr_left hh hde.symm))
  · exact .inr (.of_child hd hn)

theorem Fills.touches_below {es : List (Feature × NodeId)} (hh : h.Settled)
    (hf : Fills g r es true h) (hr : h.Grounded r) : Touches (h.Reaches r) g h :=
  (hf.touches_reached hh hr hr (hf.children rfl hr)).mono fun _ => or_self_iff.1

/-- `l` is as it was, unless `r` has come to lead to it. -/
theorem Fills.child?_eq {es : List (Feature × NodeId)} (hh : h.Settled) (hf : Fills g r es true h)
    (hr : h.Grounded r) (hapart : ¬ h.Reaches r l) (f : Feature) :
    h.child? l f = g.child? l f := by
  obtain ⟨-, hcon⟩ := (hf.touches_below hh hr l).resolve_right hapart
  rw [Arena.child?_eq, Arena.child?_eq, hcon]

/-! ## Merging two complex nodes -/

variable {l' r' : NodeId}

/-- The content of `l` is in place below `r`, so that forwarding `l` loses nothing, unless `r` has
come to lead to `l`. -/
theorem Fills.unites_redirect (hcl : (g.content l).isComplex = true)
    (hcr : (g.content r).isComplex = true) (hf : Fills g r (g.content l).children true h)
    (hends : Follows.Ends given h l' r') (hl' : h.resolve l = l') (hr' : h.resolve r = r')
    (hne' : l' ≠ r') : Unites g l r true (h.redirect l' r') := by
  have hh := hends.sound.settled
  have hend := (hends.redirect hne').sound.settled
  have hcomplexl : (h.content l').isComplex = true := by
    rw [← hl', hh.content_resolve]
    exact hf.spares.complex hcl
  have hcomplexr : (h.content r').isComplex = true := by
    rw [← hr', hh.content_resolve]
    exact hf.spares.complex hcr
  have hatom : ∀ a, h.content l' = .atom a → h.content r' = .atom a := fun a ha =>
    absurd ha (Content.ne_atom_of_isComplex hcomplexl a)
  have hresl := resolve_redirect_right hends hne' (.inl hl')
  have hresr := resolve_redirect_right hends hne' (.inr hr')
  have hresr' := resolve_redirect_right hends hne' (.inr hends.resolve_right)
  -- unless `r` ends up on a cycle, `l` is as it was and its children are in place below `r`
  by_cases hgr' : (h.redirect l' r').Grounded r'
  · have hgr : h.Grounded r :=
      (grounded_of_redirect hends hne' hgr').congr hh (hends.resolve_right.trans hr'.symm)
    have hapart : ¬ h.Reaches r l := by
      rintro ⟨p, hp⟩
      refine not_reaches_of_redirect hends hne' hgr' ⟨p, ?_⟩
      rw [← hh.lookup_congr (hr'.trans hends.resolve_right.symm), hp, hl', hends.resolve_left]
    have hspares : h.Spares (h.redirect l' r') := by
      refine .redirect hends hne' hatom (fun _ => hcomplexr) fun f c hc => ?_
      rw [hh.child?_congr (hends.resolve_left.trans hl'.symm), hf.child?_eq hh hgr hapart] at hc
      rw [hh.child?_congr (hends.resolve_right.trans hr'.symm)]
      exact hf.children rfl hgr (f, c) (mem_children_iff.2 hc)
    refine ⟨hf.spares.trans hspares, fun _ => hresl.trans hresr.symm, fun _ hend' => ?_⟩
    refine ((hf.touches_below hh hgr).mono
      fun n hn => .inr (hspares.reaches hend hend' hn)).trans ?_
    exact (Touches.redirect hends hne').mono fun n hn => .inr (.of_resolve (hresr.trans hn.symm))
  · refine ⟨hf.spares.trans (.redirect_of_not_grounded hends hne' hatom (fun _ => hcomplexr) hgr'),
      fun _ => hresl.trans hresr.symm, fun _ hgr => ?_⟩
    exact absurd (hgr.congr hend (hresr.trans hresr'.symm)) hgr'

theorem Fills.unites_of_resolve_eq {es : List (Feature × NodeId)} (hh : h.Settled)
    (hf : Fills g r es true h) (hlr : h.resolve l = h.resolve r) : Unites g l r true h :=
  ⟨hf.spares, fun _ => hlr, fun _ hr => (hf.touches_below hh hr).mono fun _ => .inr⟩

/-- Children of `l` that are left halfway have changed only what lies below them and below `r`. -/
theorem Fills.unites_of_stop (hh : h.Settled) (hf : Fills g r (g.content l).children false h) :
    Unites g l r false h :=
  ⟨hf.spares, fun hb => (by cases hb), fun hl hr => hf.touches_reached hh hr hl
    fun _ he => hf.spares.child hl (mem_children_iff.1 he)⟩

/-- To forward an end to another that has what it holds. -/
theorem Unites.redirect_leaf (he : Follows.Ends given g l r) (hne : l ≠ r) (hy : g.Yields l r) :
    Unites g l r true (g.redirect l r) := by
  have hl := resolve_redirect_right he hne (.inl he.resolve_left)
  have hr := resolve_redirect_right he hne (.inr he.resolve_right)
  refine ⟨.redirect he hne (fun _ => hy.atom) (fun hc => absurd hc hy.not_complex)
    fun f c hc => absurd (hc.symm.trans (hy.child?_eq_none f)) (by simp),
    fun _ => hl.trans hr.symm, fun _ _ => ?_⟩
  exact (Touches.redirect he hne).mono fun n hn => .inr (.of_resolve (hr.trans hn.symm))

theorem Unites.mergeEnds (he : Follows.Ends given g l r)
    (hends : g.mergeEnds l r = some (b, h)) : Unites g l r b h := by
  obtain ⟨rfl, rfl, rfl⟩ | ⟨rfl, rfl, -⟩ | ⟨hne, rfl, ⟨hy, rfl⟩ | ⟨hy, rfl⟩⟩ :=
    mergeEnds_eq_some hends
  · exact .unchanged he.sound.settled fun _ => rfl
  · exact .unchanged he.sound.settled fun hb => (by cases hb)
  · exact .redirect_leaf he hne hy
  · exact (Unites.redirect_leaf he.symm (Ne.symm hne) hy).symm

/-! ## Calls -/

/-- The nodes that the call takes to be complex are so. -/
def Call.Complex (g : Arena) : Call → Prop
  | merge .. => True
  | complex l r => (g.content l).isComplex = true ∧ (g.content r).isComplex = true
  | children r _ => (g.content r).isComplex = true

def Call.Spares (g : Arena) (b : Bool) (h : Arena) : Call → Prop
  | merge l r => Unites g l r b h
  | complex l r => Unites g l r b h
  | children r rest => Fills g r rest b h

/-- However a call ends, it loses nothing that is grounded in the end. -/
theorem Returns.spares {call : Call} {d : Nat} (hret : Returns d g call b h) (hg : g.Sound given)
    (hin : call.Inside g) (hc : call.Complex g) : call.Spares g b h := by
  induction hret with
  | merge hl hr hends =>
    obtain ⟨-, he⟩ := Follows.Ends.of_dechain hg hin.1 hin.2 hl hr
    exact .of_dechain hg.settled (he.mergeEnds hends).sound.settled hl hr (.mergeEnds he hends)
  | descend hl hr hends hcall ih =>
    obtain ⟨-, he⟩ := Follows.Ends.of_dechain hg hin.1 hin.2 hl hr
    have hin' : Call.Inside _ (.complex _ _) := ⟨he.left_lt, he.right_lt⟩
    exact .of_dechain hg.settled (hcall.follows he.sound hin').sound.settled hl hr
      (ih he.sound hin' (mergeEnds_eq_none hends).2)
  | complex hloop hl hr ih =>
    have hin' := hin.loop hg
    have hf := hloop.follows hg hin'
    obtain ⟨-, he⟩ := Follows.Ends.of_dechain hf.sound (hf.lt hin.1) (hf.lt hin.2) hl hr
    obtain ⟨hl', hr', hv⟩ := dechain_both hf.sound.settled hl hr
    rw [← hv.resolve] at hl' hr'
    have hfills := (ih hg hin' hc.2).to_view hf.sound.settled hv
    split
    · rename_i hone
      exact hfills.unites_of_resolve_eq he.sound.settled (hl'.symm.trans (hone.trans hr'))
    · rename_i hne
      exact hfills.unites_redirect hc.1 hc.2 he hl'.symm hr'.symm hne
  | clash hloop ih =>
    have hin' := hin.loop hg
    exact (ih hg hin' hc.2).unites_of_stop (hloop.follows hg hin').sound.settled
  | done => exact ⟨.refl hg.settled, by simp, fun _ _ => .of_view (.refl hg.settled)⟩
  | @attach g g₁ h r t c f rest b d hr hfree hrest ih =>
    obtain ⟨hd, hlt, he⟩ := Adds.dechain hg hin.1 hr
    obtain ⟨hn, hv⟩ := dechain_spec hg.settled hr
    have hclt := Nat.lt_of_lt_of_le (hin.2 _ List.mem_cons_self) hd.size_le
    have hatom : ∀ a, g₁.content t ≠ .atom a := by
      rw [content_dechain hg.settled hr]
      exact Content.ne_atom_of_isComplex hc
    have hstep : Adds given g₁ (g₁.attach t f c) := .attach hd.sound hlt he hatom hfree hclt
    have hf := ih hstep.sound (hin.tail ((hd.trans hstep).follows hg))
      (hstep.complex (hd.complex hc))
    exact .of_view hg.settled hv (.attach hv.settled hlt he ((congrFun hv.resolve r).trans hn.symm)
      (.of_adds hv.settled hstep) hf)
  | next hr hown hcall hrest ihcall ihrest =>
    have hd := (Adds.dechain hg hin.1 hr).1.follows hg
    obtain ⟨-, hv⟩ := dechain_spec hg.settled hr
    have hin' := hin.head hd hown
    have hf := hcall.follows hd.sound hin'
    have hin'' := hin.tail (hd.trans hf)
    have hu := ihcall hd.sound hin' trivial
    rw [child?_dechain hg.settled hr] at hown
    exact .of_view hg.settled hv (.merge hf.sound.settled
      (hrest.follows hf.sound hin'').sound.settled hown hu
      (ihrest hf.sound hin'' (hu.spares.complex (hv.content ▸ hc))))
  | stop hr hown hcall ih =>
    have hd := (Adds.dechain hg hin.1 hr).1.follows hg
    obtain ⟨-, hv⟩ := dechain_spec hg.settled hr
    have hin' := hin.head hd hown
    have hf := hcall.follows hd.sound hin'
    have hu := ih hd.sound hin' trivial
    rw [child?_dechain hg.settled hr] at hown
    exact .of_view hg.settled hv (.stop hf.sound.settled hown hu)

theorem unifyWithin_spares {depth : Nat} (hg : g.Sound given) (hl : l < g.size) (hr : r < g.size)
    (hrun : unifyWithin depth g l r = some (b, h)) : Unites g l r b h := by
  obtain ⟨d, hret⟩ := exists_returns hrun
  exact hret.spares hg ⟨hl, hr⟩ trivial

end FeatureLogic.Arena
