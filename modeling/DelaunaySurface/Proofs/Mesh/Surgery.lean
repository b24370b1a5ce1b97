import DelaunaySurface.Proofs.Mesh.Filling
/-!
# Surgery on a closed surface

A patch of a closed surface is cut out and a fan is glued in along its rim. If each corner of the rim
begins one side of it and ends one, the result is a closed surface again (`Surgery.closedSurface`).
Nothing is asked of the verdicts that chose the patch.
-/

namespace DelaunaySurface

open Triple (next previous)

namespace Mesh

/-- The rim consists of loops that visit no corner twice. -/
structure Loops (rim : List RimSide) : Prop where
  tails : (rim.map (·.side.tail)).Nodup
  heads : (rim.map (·.side.head)).Nodup
  next : ∀ s ∈ rim, ∃ r ∈ rim, r.side.tail = s.side.head
  previous : ∀ s ∈ rim, ∃ r ∈ rim, r.side.head = s.side.tail

theorem closesUp_iff (rim : List RimSide) : closesUp rim = true ↔ Loops rim := by
  simp only [closesUp, Bool.and_eq_true, decide_eq_true_eq, List.all_map, List.all_eq_true, Function.comp_apply,
    List.mem_map]
  constructor
  · rintro ⟨⟨⟨h1, h2⟩, h3⟩, h4⟩
    exact ⟨h1, h2, h3, h4⟩
  · rintro ⟨h1, h2, h3, h4⟩
    exact ⟨⟨⟨h1, h2⟩, h3⟩, h4⟩

/-- The fan `blades` around the point `i` takes the place of the cells `l` of `m`, which makes `n`. -/
structure Surgery (m : Mesh) (sites l : List Nat) (i : Nat) (blades : List Blade) (n : Mesh) : Prop where
  surface : m.ClosedSurface sites
  live : ∀ t ∈ l, m.Live t
  new : i ∉ sites
  loops : Loops (m.rimOf l)
  filled : m.Filled l (m.rimOf l) i blades n

namespace Surgery

variable {m n : Mesh} {sites l : List Nat} {i : Nat} {blades : List Blade}

/-! ## Old and new cells -/

theorem map_side (h : Surgery m sites l i blades n) (f : Side → Corner) :
    blades.map (fun b => f b.side) = (m.rimOf l).map (fun s => f s.side) := by
  have := congrArg (List.map f) h.filled.sides
  simpa only [List.map_map, Function.comp_def] using this

theorem tails_nodup (h : Surgery m sites l i blades n) : (blades.map (·.side.tail)).Nodup :=
  (h.map_side Side.tail).symm ▸ h.loops.tails

theorem heads_nodup (h : Surgery m sites l i blades n) : (blades.map (·.side.head)).Nodup :=
  (h.map_side Side.head).symm ▸ h.loops.heads

theorem blade_eq_of_tail (h : Surgery m sites l i blades n) {b c : Blade} (hb : b ∈ blades) (hc : c ∈ blades)
    (e : b.side.tail = c.side.tail) : b = c :=
  List.inj_on_of_nodup_map h.tails_nodup hb hc e

theorem blade_eq_of_head (h : Surgery m sites l i blades n) {b c : Blade} (hb : b ∈ blades) (hc : c ∈ blades)
    (e : b.side.head = c.side.head) : b = c :=
  List.inj_on_of_nodup_map h.heads_nodup hb hc e

/-- A new cell stands on a side of a member, with what lay across that side still across it. -/
theorem blade_origin (h : Surgery m sites l i blades n) {b : Blade} (hb : b ∈ blades) :
    ∃ t ∈ l, ∃ k, m.behind t k ∉ l ∧ b.side = m.side t k ∧ n.behind (m.behind t k) (m.twin (t, k)).2 = b.slot ∧
      n.cell b.slot = ⟨⟨b.side.tail, b.side.head, .site i⟩, ⟨after blades b, before blades b, m.behind t k⟩, true⟩ := by
  obtain ⟨s, hs⟩ := exists_zip_of_mem h.filled.sides hb
  obtain ⟨t, ht, k, hk, rfl⟩ := mem_rimOf.1 (List.of_mem_zip hs).1
  refine ⟨t, ht, k, hk, zip_side h.filled.sides hs, ?_, h.filled.blade _ b hs⟩
  exact h.filled.behind_rim _ b hs _ (h.surface.side_twin (h.live t ht) k).symm

theorem exists_blade (h : Surgery m sites l i blades n) {t : Nat} {k : Fin 3} (ht : t ∈ l) (hk : m.behind t k ∉ l) :
    ∃ b ∈ blades, b.side = m.side t k := by
  obtain ⟨b, hb⟩ := exists_zip_of_mem_rim h.filled.sides (mem_rimOf.2 ⟨t, ht, k, hk, rfl⟩)
  exact ⟨b, (List.of_mem_zip hb).2, zip_side h.filled.sides hb⟩

theorem live_cases (h : Surgery m sites l i blades n) {t : Nat} (ht : n.Live t) :
    (m.Live t ∧ t ∉ l) ∨ ∃ b ∈ blades, b.slot = t := (h.filled.live_iff t).1 ht

theorem live_kept (h : Surgery m sites l i blades n) {t : Nat} (ht : m.Live t) (hl : t ∉ l) : n.Live t :=
  (h.filled.live_iff t).2 (.inl ⟨ht, hl⟩)

theorem live_blade (h : Surgery m sites l i blades n) {b : Blade} (hb : b ∈ blades) : n.Live b.slot :=
  (h.filled.live_iff _).2 (.inr ⟨b, hb, rfl⟩)

theorem side_kept (h : Surgery m sites l i blades n) {t : Nat} (ht : m.Live t) (hl : t ∉ l) (k : Fin 3) :
    n.side t k = m.side t k := by
  simp only [side, Cell.side, h.filled.corners_kept t ht hl]

theorem corners_blade (h : Surgery m sites l i blades n) {b : Blade} (hb : b ∈ blades) :
    (n.cell b.slot).corners = ⟨b.side.tail, b.side.head, .site i⟩ := by
  obtain ⟨_, _, _, _, _, _, hc⟩ := h.blade_origin hb
  rw [hc]

theorem side_blade_zero (h : Surgery m sites l i blades n) {b : Blade} (hb : b ∈ blades) :
    n.side b.slot 0 = ⟨b.side.head, .site i⟩ := by
  simp only [side, Cell.side, h.corners_blade hb]; rfl

theorem side_blade_one (h : Surgery m sites l i blades n) {b : Blade} (hb : b ∈ blades) :
    n.side b.slot 1 = ⟨.site i, b.side.tail⟩ := by
  simp only [side, Cell.side, h.corners_blade hb]; rfl

theorem side_blade_two (h : Surgery m sites l i blades n) {b : Blade} (hb : b ∈ blades) :
    n.side b.slot 2 = b.side := by
  simp only [side, Cell.side, h.corners_blade hb]; rfl

/-- The new point is no corner of an old cell. -/
theorem corner_ne (h : Surgery m sites l i blades n) {t : Nat} (ht : m.Live t) (k : Fin 3) :
    (m.cell t).corners.get k ≠ .site i := fun e => h.new (h.surface.among t k i ht e)

theorem blade_ends (h : Surgery m sites l i blades n) {b : Blade} (hb : b ∈ blades) :
    b.side.tail ≠ .site i ∧ b.side.head ≠ .site i ∧ b.side.tail ≠ b.side.head := by
  obtain ⟨t, ht, k, -, e, -⟩ := h.blade_origin hb
  rw [e]
  exact ⟨h.corner_ne (h.live t ht) _, h.corner_ne (h.live t ht) _, Cell.tail_ne_head (h.surface.proper t (h.live t ht)) k⟩

/-! ## Across sides -/

/-- An old cell keeps its old neighbours. -/
theorem behind_kept (h : Surgery m sites l i blades n) {t : Nat} (ht : m.Live t) (hl : t ∉ l) {k : Fin 3}
    (hk : m.behind t k ∉ l) : n.behind t k = m.behind t k := by
  refine h.filled.behind_kept t k ht hl ?_
  rintro s hs - e
  obtain ⟨u, hu, j, -, rfl⟩ := mem_rimOf.1 hs
  -- The cell across `k` is the one with the reversed side, and that one is a member.
  exact hk ((h.surface.behind_eq ht (h.live u hu) (Side.reverse_eq_iff.1 e)).1 ▸ hu)

/-- Where a member lay across a side, there is now the new cell on that side. -/
theorem behind_cut (h : Surgery m sites l i blades n) {t : Nat} (ht : m.Live t) (hl : t ∉ l) {k : Fin 3}
    (hk : m.behind t k ∈ l) : ∃ b ∈ blades, b.side = (m.side t k).reverse ∧ n.behind t k = b.slot := by
  have hback : m.behind (m.twin (t, k)).1 (m.twin (t, k)).2 = t := h.surface.behind_twin ht k
  have hs : (⟨m.side (m.twin (t, k)).1 (m.twin (t, k)).2, m.behind (m.twin (t, k)).1 (m.twin (t, k)).2⟩ : RimSide) ∈ m.rimOf l :=
    mem_rimOf.2 ⟨_, hk, _, fun hmem => hl (hback ▸ hmem), rfl⟩
  obtain ⟨b, hb⟩ := exists_zip_of_mem_rim h.filled.sides hs
  have hside := h.surface.side_twin ht k
  refine ⟨b, (List.of_mem_zip hb).2, (zip_side h.filled.sides hb).trans hside, ?_⟩
  have := h.filled.behind_rim _ b hb k (by rw [hback, hside]; rfl)
  rwa [hback] at this

theorem after_eq (h : Surgery m sites l i blades n) {b c : Blade} (hc : c ∈ blades)
    (e : c.side.tail = b.side.head) : after blades b = c.slot := by
  have hsome : (blades.find? fun c => c.side.tail = b.side.head).isSome = true := by
    rw [List.find?_isSome]
    exact ⟨c, hc, by simpa using e⟩
  obtain ⟨d, hd⟩ := Option.isSome_iff_exists.1 hsome
  have hdt : d.side.tail = b.side.head := by simpa using List.find?_some hd
  rw [after, hd, h.blade_eq_of_tail (List.mem_of_find?_eq_some hd) hc (hdt.trans e.symm)]
  rfl

theorem before_eq (h : Surgery m sites l i blades n) {b c : Blade} (hc : c ∈ blades)
    (e : c.side.head = b.side.tail) : before blades b = c.slot := by
  have hsome : (blades.find? fun c => c.side.head = b.side.tail).isSome = true := by
    rw [List.find?_isSome]
    exact ⟨c, hc, by simpa using e⟩
  obtain ⟨d, hd⟩ := Option.isSome_iff_exists.1 hsome
  have hdt : d.side.head = b.side.tail := by simpa using List.find?_some hd
  rw [before, hd, h.blade_eq_of_head (List.mem_of_find?_eq_some hd) hc (hdt.trans e.symm)]
  rfl

theorem exists_next (h : Surgery m sites l i blades n) {b : Blade} (hb : b ∈ blades) :
    ∃ c ∈ blades, c.side.tail = b.side.head := by
  obtain ⟨s, hs⟩ := exists_zip_of_mem h.filled.sides hb
  obtain ⟨r, hr, e⟩ := h.loops.next s (List.of_mem_zip hs).1
  obtain ⟨c, hc⟩ := exists_zip_of_mem_rim h.filled.sides hr
  exact ⟨c, (List.of_mem_zip hc).2, by rw [zip_side h.filled.sides hc, e, zip_side h.filled.sides hs]⟩

theorem exists_previous (h : Surgery m sites l i blades n) {b : Blade} (hb : b ∈ blades) :
    ∃ c ∈ blades, c.side.head = b.side.tail := by
  obtain ⟨s, hs⟩ := exists_zip_of_mem h.filled.sides hb
  obtain ⟨r, hr, e⟩ := h.loops.previous s (List.of_mem_zip hs).1
  obtain ⟨c, hc⟩ := exists_zip_of_mem_rim h.filled.sides hr
  exact ⟨c, (List.of_mem_zip hc).2, by rw [zip_side h.filled.sides hc, e, zip_side h.filled.sides hs]⟩

theorem behind_blade_zero (h : Surgery m sites l i blades n) {b c : Blade} (hb : b ∈ blades) (hc : c ∈ blades)
    (e : c.side.tail = b.side.head) : n.behind b.slot 0 = c.slot := by
  obtain ⟨_, _, _, _, _, _, hcell⟩ := h.blade_origin hb
  rw [behind, hcell]
  exact h.after_eq hc e

theorem behind_blade_one (h : Surgery m sites l i blades n) {b c : Blade} (hb : b ∈ blades) (hc : c ∈ blades)
    (e : c.side.head = b.side.tail) : n.behind b.slot 1 = c.slot := by
  obtain ⟨_, _, _, _, _, _, hcell⟩ := h.blade_origin hb
  rw [behind, hcell]
  exact h.before_eq hc e

/-! ## The surface stays closed -/

theorem proper (h : Surgery m sites l i blades n) (t : Nat) (ht : n.Live t) : (n.cell t).Proper := by
  rcases h.live_cases ht with ⟨ht, hl⟩ | ⟨b, hb, rfl⟩
  · rw [Cell.Proper, h.filled.corners_kept t ht hl]
    exact h.surface.proper t ht
  · obtain ⟨htail, hhead, hne⟩ := h.blade_ends hb
    rw [Cell.Proper, h.corners_blade hb]
    exact proper_mk (n := ⟨0, 0, 0⟩) (l := true) hne hhead htail

theorem among (h : Surgery m sites l i blades n) (t : Nat) (k : Fin 3) (j : Nat) (ht : n.Live t)
    (hk : (n.cell t).corners.get k = .site j) : j ∈ sites ++ [i] := by
  rw [List.mem_append, List.mem_singleton]
  rcases h.live_cases ht with ⟨ht, hl⟩ | ⟨b, hb, rfl⟩
  · rw [h.filled.corners_kept t ht hl] at hk
    exact .inl (h.surface.among t k j ht hk)
  · obtain ⟨u, hu, p, -, e, -⟩ := h.blade_origin hb
    rw [h.corners_blade hb] at hk
    match k with
    | 0 => exact .inl (h.surface.among u (next p) j (h.live u hu) ((congrArg Side.tail e).symm.trans hk))
    | 1 => exact .inl (h.surface.among u (previous p) j (h.live u hu) ((congrArg Side.head e).symm.trans hk))
    | 2 => cases hk; exact .inr rfl

/-- A side of a new cell is the rim's, ends at the new point or begins there. -/
theorem side_blade_cases (h : Surgery m sites l i blades n) {b : Blade} (hb : b ∈ blades) (k : Fin 3) :
    n.side b.slot k = b.side ∨ n.side b.slot k = ⟨b.side.head, .site i⟩ ∨ n.side b.slot k = ⟨.site i, b.side.tail⟩ := by
  match k with
  | 0 => exact .inr (.inl (h.side_blade_zero hb))
  | 1 => exact .inr (.inr (h.side_blade_one hb))
  | 2 => exact .inl (h.side_blade_two hb)

/-- An old cell and a new one share no directed side: the rim's belonged to a member. -/
theorem side_ne_blade (h : Surgery m sites l i blades n) {t : Nat} (ht : m.Live t) (hl : t ∉ l) {b : Blade}
    (hb : b ∈ blades) (j k : Fin 3) : n.side t j ≠ n.side b.slot k := by
  rw [h.side_kept ht hl]
  intro e
  rcases h.side_blade_cases hb k with e' | e' | e' <;> rw [e'] at e
  · obtain ⟨u, hu, p, -, e'', -⟩ := h.blade_origin hb
    exact hl ((h.surface.side_inj ht (h.live u hu) (e.trans e'')).1 ▸ hu)
  · exact h.corner_ne ht _ (congrArg Side.head e)
  · exact h.corner_ne ht _ (congrArg Side.tail e)

theorem side_unique (h : Surgery m sites l i blades n) (t u : Nat) (j k : Fin 3) (ht : n.Live t) (hu : n.Live u)
    (e : n.side t j = n.side u k) : t = u := by
  rcases h.live_cases ht with ⟨ht, hlt⟩ | ⟨b, hb, rfl⟩ <;> rcases h.live_cases hu with ⟨hu, hlu⟩ | ⟨c, hc, rfl⟩
  · rw [h.side_kept ht hlt, h.side_kept hu hlu] at e
    exact h.surface.side_unique t u j k ht hu e
  · exact absurd e (h.side_ne_blade ht hlt hc j k)
  · exact absurd e.symm (h.side_ne_blade hu hlu hb k j)
  · obtain ⟨hbt, hbh, -⟩ := h.blade_ends hb
    obtain ⟨hct, hch, -⟩ := h.blade_ends hc
    rcases h.side_blade_cases hb j with e1 | e1 | e1 <;> rcases h.side_blade_cases hc k with e2 | e2 | e2 <;>
      rw [e1, e2] at e
    · rw [h.blade_eq_of_tail hb hc (congrArg Side.tail e)]
    · exact absurd (congrArg Side.head e) hbh
    · exact absurd (congrArg Side.tail e) hbt
    · exact absurd (congrArg Side.head e).symm hch
    · rw [h.blade_eq_of_head hb hc (congrArg Side.tail e)]
    · exact absurd (congrArg Side.tail e) hbh
    · exact absurd (congrArg Side.tail e).symm hct
    · exact absurd (congrArg Side.head e) hbt
    · rw [h.blade_eq_of_tail hb hc (congrArg Side.head e)]

/-- Old cells stay glued to old ones, and to new ones along the rim; new ones are glued in a ring. -/
theorem across (h : Surgery m sites l i blades n) (t : Nat) (k : Fin 3) (ht : n.Live t) :
    n.Live (n.behind t k) ∧ ∃ j, n.side (n.behind t k) j = (n.side t k).reverse ∧ n.behind (n.behind t k) j = t := by
  rcases h.live_cases ht with ⟨ht, hl⟩ | ⟨b, hb, rfl⟩
  · by_cases hk : m.behind t k ∈ l
    · obtain ⟨b, hb, e, hbehind⟩ := h.behind_cut ht hl hk
      rw [hbehind, h.side_kept ht hl]
      refine ⟨h.live_blade hb, 2, by rw [h.side_blade_two hb, e], ?_⟩
      obtain ⟨u, hu, p, hp, e', -, hcell⟩ := h.blade_origin hb
      rw [behind, hcell]
      exact (h.surface.behind_eq (h.live u hu) ht (by rw [← e', e]; rfl)).1
    · obtain ⟨hlive, j, hj, hback⟩ := h.surface.across t k ht
      rw [h.behind_kept ht hl hk, h.side_kept ht hl]
      refine ⟨h.live_kept hlive hk, j, by rw [h.side_kept hlive hk, hj], ?_⟩
      rw [h.behind_kept hlive hk (by rwa [hback]), hback]
  · rcases Triple.eq_zero_or k with rfl | rfl | rfl
    · obtain ⟨c, hc, e⟩ := h.exists_next hb
      rw [h.behind_blade_zero hb hc e, h.side_blade_zero hb]
      exact ⟨h.live_blade hc, 1, by rw [h.side_blade_one hc, e]; rfl, h.behind_blade_one hc hb e.symm⟩
    · obtain ⟨c, hc, e⟩ := h.exists_previous hb
      rw [h.behind_blade_one hb hc e, h.side_blade_one hb]
      exact ⟨h.live_blade hc, 0, by rw [h.side_blade_zero hc, e]; rfl, h.behind_blade_zero hc hb e.symm⟩
    · obtain ⟨u, hu, p, hp, e, hbehind, hcell⟩ := h.blade_origin hb
      have hlive := h.surface.live_behind (h.live u hu) p
      rw [h.side_blade_two hb, show n.behind b.slot 2 = m.behind u p by rw [behind, hcell]; rfl]
      refine ⟨h.live_kept hlive hp, _, ?_, hbehind⟩
      rw [h.side_kept hlive hp, e]
      exact h.surface.side_twin (h.live u hu) p

theorem bounded_kept (h : Surgery m sites l i blades n) {t : Nat} (ht : m.Live t) (hl : t ∉ l) :
    (n.cell t).bounded = (m.cell t).bounded := by
  simp only [Cell.bounded, h.filled.corners_kept t ht hl]

/-- A new cell is a triangle unless its side of the rim has an end at infinity. -/
theorem bounded_blade_iff (h : Surgery m sites l i blades n) {b : Blade} (hb : b ∈ blades) :
    (n.cell b.slot).bounded = true ↔ b.side.tail ≠ .infinity ∧ b.side.head ≠ .infinity := by
  rw [Cell.bounded_iff, h.corners_blade hb]
  constructor
  · intro hk
    exact ⟨hk 0, hk 1⟩
  · rintro ⟨h0, h1⟩
    exact forall_corner h0 h1 nofun

/-- The rim has no side whose reverse is on the rim too. -/
theorem reverse_ne (h : Surgery m sites l i blades n) {b c : Blade} (hb : b ∈ blades) (hc : c ∈ blades) :
    c.side ≠ b.side.reverse := by
  obtain ⟨t, ht, j, hj, e, -⟩ := h.blade_origin hb
  obtain ⟨u, hu, k, -, e', -⟩ := h.blade_origin hc
  rw [e, e']
  intro hs
  exact hj ((h.surface.behind_eq (h.live t ht) (h.live u hu) hs).1 ▸ hu)

/-- Of two new cells that meet at a sample, one is a triangle: else the rim would go out to infinity
and back along one side. -/
theorem bounded_or_bounded (h : Surgery m sites l i blades n) {b c : Blade} (hb : b ∈ blades) (hc : c ∈ blades)
    (e : c.side.tail = b.side.head) (hx : b.side.head ≠ .infinity) :
    (n.cell b.slot).bounded = true ∨ (n.cell c.slot).bounded = true := by
  rw [h.bounded_blade_iff hb, h.bounded_blade_iff hc, e]
  by_contra hnot
  simp only [hx, ne_eq, not_false_eq_true, and_true, true_and, not_or, not_not] at hnot
  exact h.reverse_ne hb hc (Side.eq_reverse e (hnot.2.trans hnot.1.symm))

theorem finite_side (h : Surgery m sites l i blades n) (t : Nat) (k : Fin 3) (x y : Nat) (ht : n.Live t)
    (hs : n.side t k = ⟨.site x, .site y⟩) : (n.cell t).bounded = true ∨ (n.cell (n.behind t k)).bounded = true := by
  rcases h.live_cases ht with ⟨ht, hl⟩ | ⟨b, hb, rfl⟩
  · rw [h.side_kept ht hl] at hs
    by_cases hk : m.behind t k ∈ l
    · obtain ⟨b, hb, e, hbehind⟩ := h.behind_cut ht hl hk
      rw [hbehind, h.bounded_blade_iff hb, e, hs]
      exact .inr ⟨nofun, nofun⟩
    · rw [h.behind_kept ht hl hk, h.bounded_kept ht hl, h.bounded_kept (h.surface.live_behind ht k) hk]
      exact h.surface.finite_side t k x y ht hs
  · rcases Triple.eq_zero_or k with rfl | rfl | rfl
    · obtain ⟨c, hc, e⟩ := h.exists_next hb
      rw [h.behind_blade_zero hb hc e]
      rw [h.side_blade_zero hb, Side.mk.injEq] at hs
      exact h.bounded_or_bounded hb hc e (by rw [hs.1]; nofun)
    · obtain ⟨c, hc, e⟩ := h.exists_previous hb
      rw [h.behind_blade_one hb hc e]
      rw [h.side_blade_one hb, Side.mk.injEq] at hs
      exact (h.bounded_or_bounded hc hb e.symm (by rw [e, hs.2]; nofun)).symm
    · rw [h.side_blade_two hb] at hs
      rw [h.bounded_blade_iff hb, hs]
      exact .inl ⟨nofun, nofun⟩

end Surgery

end Mesh

end DelaunaySurface
