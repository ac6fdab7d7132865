import FeatureLogic.Proofs.Arena.Growth
/-!
Building paths. A path that no atom blocks can be put in place; this adds nothing but the nodes on
the way that were absent, and the new nodes stand for the points that the path leads to.
-/
set_option autoImplicit false

namespace FeatureLogic.Arena

variable {g h i : Arena} {A : FeatureAlgebra} {den : NodeId → A.Point → Prop}
  {n m c : NodeId} {x y : A.Point} {f : Feature} {p q : Path} {a : Atom}

theorem lookup_append_of_not_found (hl : ∀ m, g.lookup n p ≠ .found m) (q : Path) :
    g.lookup n (p ++ q) = g.lookup n p := by
  induction p generalizing n with
  | nil => exact absurd rfl (hl (g.resolve n))
  | cons f p ih =>
    rw [List.cons_append]
    cases hc : g.child? n f with
    | some c =>
      rw [lookup_cons_of_child hc] at hl
      rw [lookup_cons_of_child hc, lookup_cons_of_child hc, ih hl]
    | none => rw [lookup_cons_of_childless hc, lookup_cons_of_childless hc]

theorem lookup_append_blocked (hl : g.lookup n p = .blocked) (q : Path) :
    g.lookup n (p ++ q) = .blocked := by
  rw [lookup_append_of_not_found (by simp [hl]), hl]

theorem lookup_append_missing (hl : g.lookup n p = .missing) (q : Path) :
    g.lookup n (p ++ q) = .missing := by
  rw [lookup_append_of_not_found (by simp [hl]), hl]

theorem lookup_of_empty (hc : g.content n = .empty) (f : Feature) (p : Path) :
    g.lookup n (f :: p) = .missing := by
  rw [lookup, hc]

theorem lookup_of_atom (hc : g.content n = .atom a) (f : Feature) (p : Path) :
    g.lookup n (f :: p) = .blocked := by
  rw [lookup, hc]

theorem Grows.lookup_of_blocked (hg : g.Settled) (hh : h.Settled) (hgh : g.Grows h)
    (hl : g.lookup n p = .blocked) : h.lookup n p = .blocked := by
  obtain ⟨q, f, r, m, a, rfl, hm, ha⟩ := hg.lookup_eq_blocked hl
  have hcon : h.content (h.resolve m) = .atom a := by rw [hh.content_resolve, hgh.atom ha]
  rw [hh.lookup_append (hgh.lookup hh hm), lookup_of_atom hcon]

theorem child?_of_missing (hl : g.lookup n [f] = .missing) :
    g.child? n f = none ∧ ∀ a, g.content n ≠ .atom a := by
  constructor
  · cases hc : g.child? n f with
    | none => rfl
    | some c =>
      rw [lookup_cons_of_child hc] at hl
      cases hl
  · intro a ha
    rw [lookup_of_atom ha] at hl
    cases hl

theorem Bounded.lookup_alloc (hg : g.Bounded) (hn : n < g.size) (c : Content) (p : Path) :
    (g.alloc c).2.lookup n p = g.lookup n p := by
  induction p generalizing n with
  | nil => simp only [lookup, resolve_alloc hg.settled]
  | cons f p ih =>
    have hcon : (g.alloc c).2.content n = g.content n := by
      rw [content_alloc hg.settled, if_neg (Nat.ne_of_lt hn)]
    cases hc : g.child? n f with
    | some d =>
      have hc' : (g.alloc c).2.child? n f = some d := by rw [child?_eq, hcon, ← child?_eq, hc]
      rw [lookup_cons_of_child hc, lookup_cons_of_child hc', ih (hg.child_lt hc)]
    | none =>
      rw [child?_eq] at hc
      rw [lookup, lookup, hcon]
      cases hcn : g.content n with
      | empty => rfl
      | atom a => rfl
      | complex children =>
        have hget : children.get? f = none := by simpa [hcn, Content.child?] using hc
        simp [hget]

/-- `h` is `g` with a new empty child under `f` in the node `n`. -/
structure Sprouts (g : Arena) (n : NodeId) (f : Feature) (h : Arena) : Prop where
  bounded : h.Bounded
  wellFormed : g.WellFormed → h.WellFormed
  grows : g.Grows h
  resolve : h.resolve = g.resolve
  frame {k : NodeId} : k < g.size → g.resolve k ≠ g.resolve n → h.content k = g.content k
  child : h.child? n f = some g.size
  lt : g.size < h.size
  content : h.content g.size = .empty
  denotes {A : FeatureAlgebra} {den : NodeId → A.Point → Prop} {x y : A.Point} :
    g.Denotes A den → den n x → A.edge x f y →
      h.Denotes A fun m z => den m z ∨ m = g.size ∧ z = y

theorem Sprouts.of_attach (hg : g.Bounded) (hn : n < g.size) (he : g.resolve n = n)
    (hatom : ∀ a, g.content n ≠ .atom a) (hfree : g.child? n f = none) :
    Sprouts g n f ((g.alloc .empty).2.attach n f g.size) := by
  have hg₁ : (g.alloc .empty).2.Bounded := hg.alloc_leaf .null
  have hs₁ := hg₁.settled
  have hn₁ : n < (g.alloc .empty).2.size := by
    rw [size_alloc]
    exact Nat.lt_succ_of_lt hn
  have hlt : g.size < (g.alloc .empty).2.size := by simp
  have he₁ : (g.alloc .empty).2.resolve n = n := by rw [resolve_alloc hg.settled, he]
  have hcon₁ : (g.alloc .empty).2.content n = g.content n := by
    rw [content_alloc hg.settled, if_neg (Nat.ne_of_lt hn)]
  have hfree₁ : (g.alloc .empty).2.child? n f = none := by
    rw [child?_alloc hg.settled, if_neg (Nat.ne_of_lt hn), hfree]
  obtain ⟨-, hsize, hres, hcon⟩ := attach_view hs₁ hn₁ he₁ f g.size
  refine ⟨hg₁.attach hn₁ he₁ f hlt, ?_, ?_, ?_, ?_, ?_, ?_, ?_, ?_⟩
  · exact fun hg => (WellFormed.alloc_leaf hg .null).attach hn₁ he₁ f hlt
  · exact (Grows.alloc hg.settled _).trans (.attach hs₁ hn₁ he₁ hfree₁ (by simpa [hcon₁]))
  · funext k
    rw [hres, resolve_alloc hg.settled]
  · intro k hk hne
    rw [hcon, resolve_alloc hg.settled, if_neg (he ▸ hne), content_alloc hg.settled,
      if_neg (Nat.ne_of_lt hk)]
  · rw [child?_attach hs₁ hn₁ he₁, if_pos ⟨he₁, rfl⟩]
  · rw [hsize]
    exact hlt
  · have hne : (g.alloc .empty).2.resolve g.size ≠ n := by
      rw [resolve_alloc hg.settled, resolve_of_size_le (Nat.le_refl _)]
      exact Ne.symm (Nat.ne_of_lt hn)
    rw [hcon, if_neg hne, content_alloc hg.settled, if_pos rfl]
  · intro A den x y hd hx hxy
    have hd₁ := hd.alloc (y := y) hg.settled .empty (by simp [Content.child?]) (by simp)
    exact hd₁.attach hs₁ hn₁ he₁ (.inl hx) hxy (.inr ⟨rfl, rfl⟩)

/-- Every answer comes from the same test, on a node that is no atom. -/
theorem childOrCreate_eq (hg : g.Settled) (hatom : ∀ a, g.content n ≠ .atom a) (f : Feature) :
    g.childOrCreate n f = match g.child? n f with
      | some c => (.ok c, (g.dechain n).2)
      | none => (.ok (g.dechain n).2.size,
          ((g.dechain n).2.alloc .empty).2.attach (g.resolve n) f (g.dechain n).2.size) := by
  have hcon : (g.dechain n).2.content (g.resolve n) = g.content n := by
    rw [(dechain_view hg n).content, hg.content_resolve]
  have hchild : (g.dechain n).2.child? (g.resolve n) f = g.child? n f := by
    rw [child?_eq, hcon, ← child?_eq]
  unfold childOrCreate
  rcases hdn : g.dechain n with ⟨t, g₁⟩
  obtain rfl : g.resolve n = t := congrArg Prod.fst hdn
  rw [hdn] at hcon hchild
  simp only [hcon, hchild]
  cases hc : g.content n with
  | atom a => exact absurd hc (hatom a)
  | empty => cases g.child? n f <;> rfl
  | complex children => cases g.child? n f <;> rfl

theorem childOrCreate_of_atom (hg : g.Settled) (ha : g.content n = .atom a) (f : Feature) :
    g.childOrCreate n f = (.error .atomicNode, (g.dechain n).2) := by
  have hcon : (g.dechain n).2.content (g.resolve n) = .atom a := by
    rw [(dechain_view hg n).content, hg.content_resolve, ha]
  unfold childOrCreate
  rcases hdn : g.dechain n with ⟨t, g₁⟩
  obtain rfl : g.resolve n = t := congrArg Prod.fst hdn
  rw [hdn] at hcon
  simp only [hcon]

theorem childOrCreate_spec (hg : g.Bounded) (hn : n < g.size) (f : Feature) :
    (∃ a h, g.childOrCreate n f = (.error .atomicNode, h) ∧ g.content n = .atom a ∧
      SameView g h) ∨
    (∃ c h, g.childOrCreate n f = (.ok c, h) ∧ g.child? n f = some c ∧ SameView g h) ∨
    ∃ h, g.childOrCreate n f = (.ok g.size, h) ∧ Sprouts g n f h := by
  have hv := dechain_view hg.settled n
  have hcon : (g.dechain n).2.content (g.resolve n) = g.content n := by
    rw [hv.content, hg.settled.content_resolve]
  by_cases ha : ∃ a, g.content n = .atom a
  · obtain ⟨a, ha⟩ := ha
    exact .inl ⟨a, _, childOrCreate_of_atom hg.settled ha f, ha, hv⟩
  · have hatom : ∀ a, g.content n ≠ .atom a := fun a h => ha ⟨a, h⟩
    have heq := childOrCreate_eq hg.settled hatom f
    cases hc : g.child? n f with
    | some c => exact .inr (.inl ⟨c, _, by rw [heq, hc], rfl, hv⟩)
    | none =>
      have hs := Sprouts.of_attach (hv.bounded hg) (f := f)
        (hv.size ▸ hg.settled.resolve_lt hn)
        (by rw [hv.resolve, hg.settled.resolve_resolve]) (by rwa [hcon])
        (by rw [child?_eq, hcon, ← child?_eq, hc])
      refine .inr (.inr ⟨_, by rw [heq, hc, hv.size], hs.bounded,
        fun hg => hs.wellFormed (hv.wellFormed hg), (hv.grows hg.settled).trans hs.grows, hs.resolve.trans hv.resolve,
        fun {k} hk hne => ?_, ?_, hv.size ▸ hs.lt, hv.size ▸ hs.content, ?_⟩)
      · rw [hs.frame (hv.size ▸ hk) (by rwa [hv.resolve, hg.settled.resolve_resolve]), hv.content]
      · have hres := hs.grows.resolve n
        rw [hv.resolve] at hres
        rw [← hs.bounded.settled.child?_congr hres, hs.child, hv.size]
      · intro A den x y hd hx hxy
        simpa only [hv.size] using hs.denotes (hd.of_view hv) (hd.resolve hx) hxy

/-- `h` is `g` with the path `p` in place below `n`; it ends in `m`. -/
structure Materializes (g : Arena) (n : NodeId) (p : Path) (m : NodeId) (h : Arena) : Prop where
  bounded : h.Bounded
  wellFormed : g.WellFormed → h.WellFormed
  grows : g.Grows h
  resolve : h.resolve = g.resolve
  found : h.lookup n p = .found m
  denotes {A : FeatureAlgebra} {den : NodeId → A.Point → Prop} {x y : A.Point} :
    g.Denotes A den → den n x → A.Walk x p y →
      ∃ den', (∀ k z, den k z → den' k z) ∧ h.Denotes A den' ∧ den' m y
  missing {f : Feature} {q : Path} :
    g.lookup n (p ++ f :: q) = .missing → h.lookup m (f :: q) = .missing
  frame {k : NodeId} : k < g.size → g.resolve k = k → (∀ q, g.lookup n q ≠ .found k) →
    m ≠ k ∧ h.content k = g.content k

theorem Materializes.cons (hwf : g.WellFormed → h.WellFormed) (hgh : g.Grows h)
    (hres : h.resolve = g.resolve) (hc : h.child? n f = some c)
    (hd : ∀ {A : FeatureAlgebra} {den : NodeId → A.Point → Prop} {x y : A.Point},
      g.Denotes A den → den n x → A.edge x f y →
        ∃ den', (∀ k z, den k z → den' k z) ∧ h.Denotes A den' ∧ den' c y)
    (hmiss : ∀ {f' q}, g.lookup n (f :: (p ++ f' :: q)) = .missing →
      h.lookup c (p ++ f' :: q) = .missing)
    (hframe : ∀ {k}, k < g.size → g.resolve k = k → (∀ q, g.lookup n q ≠ .found k) →
      (∀ q, h.lookup c q ≠ .found k) ∧ h.content k = g.content k)
    (hm : Materializes h c p m i) : Materializes g n (f :: p) m i where
  bounded := hm.bounded
  wellFormed hg := hm.wellFormed (hwf hg)
  grows := hgh.trans hm.grows
  resolve := hm.resolve.trans hres
  found := by
    obtain ⟨d, hd, hdc⟩ := hm.grows.child hc
    rw [lookup_cons_of_child hd, hm.bounded.settled.lookup_congr hdc, hm.found]
  denotes hden hx hw := by
    obtain ⟨z, hz, hw⟩ := hw
    obtain ⟨den₁, hsub₁, hden₁, hc₁⟩ := hd hden hx hz
    obtain ⟨den₂, hsub₂, hden₂, hm₂⟩ := hm.denotes hden₁ hc₁ hw
    exact ⟨den₂, fun k z hk => hsub₂ k z (hsub₁ k z hk), hden₂, hm₂⟩
  missing hl := hm.missing (hmiss hl)
  frame hk he hout := by
    obtain ⟨hout', hcon⟩ := hframe hk he hout
    obtain ⟨hne, hcon'⟩ := hm.frame (Nat.lt_of_lt_of_le hk hgh.size_le) (by rw [hres, he]) hout'
    exact ⟨hne, hcon'.trans hcon⟩

theorem Materializes.nil (hg : g.Bounded) (n : NodeId) :
    Materializes g n [] (g.resolve n) (g.dechain n).2 := by
  have hv := dechain_view hg.settled n
  refine ⟨hv.bounded hg, hv.wellFormed, hv.grows hg.settled, hv.resolve, ?_, ?_, ?_, ?_⟩
  · rw [hv.lookup, lookup]
  · rintro A den x y hd hx rfl
    exact ⟨den, fun _ _ hk => hk, hd.of_view hv, hd.resolve hx⟩
  · intro f q hl
    rw [hv.lookup, hg.settled.lookup_congr (hg.settled.resolve_resolve n)]
    exact hl
  · intro k _ _ hout
    exact ⟨fun he => hout [] (congrArg Lookup.found he), by rw [hv.content]⟩

/-- The first step is there. -/
theorem Materializes.of_child (hg : g.Bounded) (hc : g.child? n f = some c) (hv : SameView g h)
    (hm : Materializes h c p m i) : Materializes g n (f :: p) m i := by
  refine .cons hv.wellFormed (hv.grows hg.settled) hv.resolve (hv.child? .. ▸ hc) ?_ ?_ ?_ hm
  · intro A den x y hd hx hxy
    obtain ⟨z, hz, hcz⟩ := hd.child hx hc
    cases A.edge_unique hxy hz
    exact ⟨den, fun _ _ hk => hk, hd.of_view hv, hcz⟩
  · intro f' q hl
    rwa [hv.lookup, ← lookup_cons_of_child hc]
  · intro k _ he hout
    refine ⟨fun q => ?_, by rw [hv.content]⟩
    rw [hv.lookup, ← lookup_cons_of_child hc]
    exact hout (f :: q)

/-- The first step is new, and so is everything behind it. -/
theorem Materializes.of_sprout (hs : Sprouts g n f h) (hm : Materializes h g.size p m i) :
    Materializes g n (f :: p) m i := by
  have hfresh : ∀ f' q, h.lookup g.size (f' :: q) = .missing := lookup_of_empty hs.content
  refine .cons hs.wellFormed hs.grows hs.resolve hs.child ?_ ?_ ?_ hm
  · intro A den x y hd hx hxy
    exact ⟨_, fun _ _ hk => .inl hk, hs.denotes hd hx hxy, .inr ⟨rfl, rfl⟩⟩
  · intro f' q _
    cases p with
    | nil => exact hfresh f' q
    | cons f'' p => exact hfresh f'' _
  · intro k hk he hout
    have hne : g.resolve k ≠ g.resolve n := fun h => hout [] (by rw [lookup, ← h, he])
    refine ⟨fun q => ?_, hs.frame hk hne⟩
    cases q with
    | nil =>
      rw [lookup, hs.resolve, resolve_of_size_le (Nat.le_refl _)]
      exact fun h => Nat.ne_of_gt hk (Lookup.found.inj h)
    | cons f' q => simp [hfresh]

theorem materialize_spec (hg : g.Bounded) (hn : n < g.size) (p : Path) :
    (∃ h, g.materialize n p = (.error .atomicNode, h) ∧ g.lookup n p = .blocked ∧
      SameView g h) ∨
    ∃ m h, g.materialize n p = (.ok m, h) ∧ Materializes g n p m h := by
  induction p generalizing g n with
  | nil => exact .inr ⟨g.resolve n, (g.dechain n).2, rfl, .nil hg n⟩
  | cons f p ih =>
    rcases childOrCreate_spec hg hn f with ⟨a, h, hrun, ha, hv⟩ | ⟨c, g₁, hrun, hc, hv⟩ |
      ⟨g₁, hrun, hs⟩
    · exact .inl ⟨h, by simp [materialize, hrun], lookup_of_atom ha f p, hv⟩
    · have hlt : c < g₁.size := hv.size ▸ hg.child_lt hc
      rcases ih (hv.bounded hg) hlt with ⟨h, hrun', hl, hv'⟩ | ⟨m, h, hrun', hm⟩
      · refine .inl ⟨h, by simp [materialize, hrun, hrun'], ?_, hv.trans hv'⟩
        rw [lookup_cons_of_child hc, ← hv.lookup, hl]
      · exact .inr ⟨m, h, by simp [materialize, hrun, hrun'], .of_child hg hc hv hm⟩
    · rcases ih hs.bounded hs.lt with ⟨h, hrun', hl, hv'⟩ | ⟨m, h, hrun', hm⟩
      · -- a new node blocks nothing
        cases p with
        | nil => cases hl
        | cons f' p =>
          rw [lookup_of_empty hs.content] at hl
          cases hl
      · exact .inr ⟨m, h, by simp [materialize, hrun, hrun'], .of_sprout hs hm⟩

/-- A path that is there is followed to its end. -/
theorem materialize_of_found (hg : g.Settled) (hl : g.lookup n p = .found m) :
    ∃ h, g.materialize n p = (.ok m, h) ∧ SameView g h := by
  induction p generalizing g n with
  | nil =>
    cases hl
    exact ⟨_, rfl, dechain_view hg n⟩
  | cons f p ih =>
    obtain ⟨c, hc, hl⟩ := lookup_cons_eq_found.1 hl
    have hv := dechain_view hg n
    have hrun : g.childOrCreate n f = (.ok c, (g.dechain n).2) := by
      rw [childOrCreate_eq hg (fun _ => not_atom_of_child hc), hc]
    obtain ⟨h, hrest, hv'⟩ := ih hv.settled ((hv.lookup c p).trans hl)
    exact ⟨h, by simp only [materialize, hrun, hrest], hv.trans hv'⟩

theorem materialize_of_lookup_blocked (hg : g.Bounded) (hn : n < g.size)
    (hl : g.lookup n p = .blocked) : ∃ h, g.materialize n p = (.error .atomicNode, h) := by
  rcases materialize_spec hg hn p with ⟨h, hrun, -, -⟩ | ⟨m, h, -, hm⟩
  · exact ⟨h, hrun⟩
  · -- what blocks the path would still block it once it is built
    have hblocked := hm.grows.lookup_of_blocked hg.settled hm.bounded.settled hl
    rw [hm.found] at hblocked
    cases hblocked

theorem exists_child_of_ne_nil (hp : p ≠ []) : ∃ up f, p = up ++ [f] :=
  ⟨p.dropLast, p.getLast hp, (List.dropLast_append_getLast hp).symm⟩

/-- A node put at a path that is missing. -/
theorem linkPath_spec (hg : g.Bounded) (hn : n < g.size) (hc : c < g.size)
    (hl : g.lookup n p = .missing) :
    ∃ h, g.linkPath n p c = (.ok (), h) ∧ h.Bounded ∧ (g.WellFormed → h.WellFormed) ∧
      g.Grows h ∧ h.resolve = g.resolve ∧ h.lookup n p = .found (h.resolve c) ∧
      (∀ {k}, k < g.size → g.resolve k = k → (∀ q, g.lookup n q ≠ .found k) →
        h.content k = g.content k) ∧
      ∀ {A : FeatureAlgebra} {den : NodeId → A.Point → Prop} {x y : A.Point},
        g.Denotes A den → den n x → A.Walk x p y → den c y →
          ∃ den', (∀ k z, den k z → den' k z) ∧ h.Denotes A den' := by
  obtain ⟨up, f, rfl⟩ : ∃ up f, p = up ++ [f] := by
    refine exists_child_of_ne_nil ?_
    rintro rfl
    cases hl
  have hsplit : Path.splitLast? (up ++ [f]) = some (up, f) := Path.splitLast?_child up f
  rcases materialize_spec hg hn up with ⟨h, -, hb, -⟩ | ⟨parent, g₁, hrun, hm⟩
  · rw [lookup_append_blocked hb] at hl
    cases hl
  · obtain ⟨hfree, hatom⟩ := child?_of_missing (hm.missing (q := []) hl)
    have hs := hm.bounded.settled
    have hep : g₁.resolve parent = parent := hs.resolve_of_lookup hm.found
    have hp : parent < g₁.size :=
      hm.bounded.lookup_lt (Nat.lt_of_lt_of_le hn hm.grows.size_le) hm.found
    have hgrow : g₁.Grows (g₁.attach parent f c) := .attach hs hp hep hfree hatom
    have hclt := Nat.lt_of_lt_of_le hc hm.grows.size_le
    have hb := hm.bounded.attach hp hep f hclt
    obtain ⟨-, -, hres, hcon⟩ := attach_view hs hp hep f c
    refine ⟨g₁.attach parent f c, ?_, hb, fun hg => (hm.wellFormed hg).attach hp hep f hclt,
      hm.grows.trans hgrow, (funext hres).trans hm.resolve, ?_, ?_, ?_⟩
    · unfold linkPath
      simp only [hsplit, hrun, hfree]
    · have hfound := hgrow.lookup hb.settled hm.found
      rw [hb.settled.lookup_append hfound, hb.settled.lookup_congr (hb.settled.resolve_resolve _),
        lookup_cons_eq_found]
      refine ⟨c, ?_, rfl⟩
      rw [child?_attach hs hp hep, if_pos ⟨hep, rfl⟩]
    · intro k hk he hout
      obtain ⟨hne, hcon'⟩ := hm.frame hk he hout
      rw [hcon, hm.resolve, he, if_neg (Ne.symm hne), hcon']
    · intro A den x y hd hx hw hy
      obtain ⟨z, hz, w, hzy, rfl⟩ := FeatureAlgebra.walk_append.1 hw
      obtain ⟨den', hsub, hd', hpz⟩ := hm.denotes hd hx hz
      exact ⟨den', hsub, hd'.attach hs hp hep hpz hzy (hsub _ _ hy)⟩

/-- Nothing is put at a path that leads to a node. -/
theorem linkPath_of_found (hg : g.Bounded) (hn : n < g.size) (hp : p ≠ [])
    (hl : g.lookup n p = .found m) (c : NodeId) :
    ∃ h, g.linkPath n p c = (.error (.valueExists p), h) := by
  obtain ⟨up, f, rfl⟩ := exists_child_of_ne_nil hp
  have hsplit : Path.splitLast? (up ++ [f]) = some (up, f) := Path.splitLast?_child up f
  obtain ⟨k, hk⟩ := lookup_prefix hl
  rcases materialize_spec hg hn up with ⟨h, -, hb, -⟩ | ⟨parent, g₁, hrun, hm⟩
  · cases hk.symm.trans hb
  · -- what stood below the parent stands there still
    have hs := hm.bounded.settled
    have hparent : parent = g₁.resolve k :=
      Lookup.found.inj (hm.found.symm.trans (hm.grows.lookup hs hk))
    rw [hg.settled.lookup_append hk] at hl
    obtain ⟨d, hd, -⟩ := lookup_cons_eq_found.1 hl
    obtain ⟨d', hd', -⟩ := hm.grows.child hd
    have hchild : g₁.child? parent f = some d' := by
      rw [hparent, hs.child?_congr (hs.resolve_resolve k), hd']
    refine ⟨g₁, ?_⟩
    unfold linkPath
    simp only [hsplit, hrun, hchild]
    cases hc : g₁.content parent with
    | atom a => exact absurd hc (not_atom_of_child hchild)
    | empty | complex => rfl

/-- Nothing is put behind an atom. -/
theorem linkPath_of_blocked (hg : g.Bounded) (hn : n < g.size)
    (hl : g.lookup n p = .blocked) (c : NodeId) :
    ∃ h, g.linkPath n p c = (.error .atomicNode, h) := by
  obtain ⟨up, f, rfl⟩ : ∃ up f, p = up ++ [f] := by
    refine exists_child_of_ne_nil ?_
    rintro rfl
    cases hl
  have hsplit : Path.splitLast? (up ++ [f]) = some (up, f) := Path.splitLast?_child up f
  rcases materialize_spec hg hn up with ⟨h, hrun, -, -⟩ | ⟨parent, g₁, hrun, hm⟩
  · refine ⟨h, ?_⟩
    unfold linkPath
    simp only [hsplit, hrun]
  · -- with the path up to the last feature in place, the atom is at its end
    have hs := hm.bounded.settled
    have hblocked := hm.grows.lookup_of_blocked hg.settled hs hl
    rw [hs.lookup_append hm.found] at hblocked
    obtain ⟨a, ha⟩ : ∃ a, g₁.content parent = .atom a := by
      rw [lookup] at hblocked
      cases hcon : g₁.content parent with
      | atom a => exact ⟨a, rfl⟩
      | empty => simp [hcon] at hblocked
      | complex children => cases hget : children.get? f <;> simp [hcon, hget, lookup] at hblocked
    refine ⟨g₁, ?_⟩
    unfold linkPath
    simp only [hsplit, hrun, ha]

theorem createValue_eq (g : Arena) (n : NodeId) (p : Path) (a : Atom) :
    g.createValue n p a = match (g.alloc (.leaf a)).2.linkPath n p g.size with
      | (.ok (), h) => (.ok g.size, h)
      | (.error e, h) => (.error e, h) := rfl

/-- No leaf is put at a path that leads to a node. -/
theorem createValue_of_found (hg : g.Bounded) (hn : n < g.size) (hp : p ≠ [])
    (hl : g.lookup n p = .found m) (a : Atom) :
    ∃ h, g.createValue n p a = (.error (.valueExists p), h) := by
  have hn' : n < (g.alloc (.leaf a)).2.size := by
    rw [size_alloc]
    exact Nat.lt_succ_of_lt hn
  obtain ⟨h, hrun⟩ := linkPath_of_found (hg.alloc_leaf a) hn' hp
    ((hg.lookup_alloc hn _ p).trans hl) g.size
  exact ⟨h, by rw [createValue_eq, hrun]⟩

theorem createValue_of_blocked (hg : g.Bounded) (hn : n < g.size)
    (hl : g.lookup n p = .blocked) (a : Atom) :
    ∃ h, g.createValue n p a = (.error .atomicNode, h) := by
  have hn' : n < (g.alloc (.leaf a)).2.size := by
    rw [size_alloc]
    exact Nat.lt_succ_of_lt hn
  obtain ⟨h, hrun⟩ := linkPath_of_blocked (hg.alloc_leaf a) hn'
    ((hg.lookup_alloc hn _ p).trans hl) g.size
  exact ⟨h, by rw [createValue_eq, hrun]⟩

theorem Bounded.lookup_alloc_ne (hg : g.Bounded) (hn : n < g.size) (c : Content) (p : Path) :
    (g.alloc c).2.lookup n p ≠ .found g.size := by
  rw [hg.lookup_alloc hn]
  exact fun hl => Nat.lt_irrefl _ (hg.lookup_lt hn hl)

/-- A leaf at a path that is missing. -/
theorem createValue_spec (hg : g.Bounded) (hn : n < g.size) (a : Atom)
    (hl : g.lookup n p = .missing) :
    ∃ h, g.createValue n p a = (.ok g.size, h) ∧ h.Bounded ∧ (g.WellFormed → h.WellFormed) ∧
      g.Grows h ∧ h.lookup n p = .found g.size ∧ h.content g.size = .leaf a ∧
      ∀ {A : FeatureAlgebra} {den : NodeId → A.Point → Prop} {x y : A.Point},
        g.Denotes A den → den n x → A.Walk x p y → (a ≠ .null → A.label y a) →
          ∃ den', (∀ k z, den k z → den' k z) ∧ h.Denotes A den' := by
  have hsize : (g.alloc (.leaf a)).2.size = g.size + 1 := size_alloc ..
  have hleaf : g.size < (g.alloc (.leaf a)).2.size :=
    Nat.lt_of_lt_of_eq (Nat.lt_succ_self _) hsize.symm
  have hend : (g.alloc (.leaf a)).2.resolve g.size = g.size := by
    rw [resolve_alloc hg.settled, resolve_of_size_le (Nat.le_refl _)]
  have hn₁ : n < (g.alloc (.leaf a)).2.size := Nat.lt_trans hn hleaf
  obtain ⟨h, hrun, hb, hwf, hgrow, hres, hfound, hframe, hden⟩ :=
    linkPath_spec (hg.alloc_leaf a) hn₁ hleaf ((hg.lookup_alloc hn _ p).trans hl)
  refine ⟨h, ?_, hb, fun hg => hwf (hg.alloc_leaf a), (Grows.alloc hg.settled _).trans hgrow,
    ?_, ?_, ?_⟩
  · rw [createValue_eq, hrun]
  · rw [hfound, hres, hend]
  · rw [hframe hleaf hend (hg.lookup_alloc_ne hn _), content_alloc hg.settled, if_pos rfl]
  · intro A den x y hd hx hw hy
    have hd₁ : (g.alloc (.leaf a)).2.Denotes A fun m z => den m z ∨ m = g.size ∧ z = y := by
      refine hd.alloc hg.settled _ (by simp [Content.child?_leaf]) fun b hb => ?_
      obtain ⟨rfl, hne⟩ := Content.leaf_eq_atom.1 hb
      exact hy hne
    obtain ⟨den', hsub, hd'⟩ := hden hd₁ (.inl hx) hw (.inr ⟨rfl, rfl⟩)
    exact ⟨den', fun k z hk => hsub k z (.inl hk), hd'⟩

end FeatureLogic.Arena
