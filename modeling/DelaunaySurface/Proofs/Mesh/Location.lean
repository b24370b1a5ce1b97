import DelaunaySurface.Proofs.Mesh.Region
/-!
# Finding a cell for a new point

On a Delaunay surface every new point has a cell to begin with, one whose region holds it: a walk ends in
such a cell, and when a walk is given up the search finds one (`exists_start`).
-/

namespace DelaunaySurface

open Triple (next previous)

namespace Mesh

variable {m : Mesh} {place : Nat → Point Rat} {sites : List Nat} {p r : Point Rat} {t u : Nat} {k : Fin 3} {a b c : Nat}

namespace Delaunay

theorem covers_of_inTriangle (h : m.Delaunay place sites) (hp : ∀ i ∈ sites, place i ≠ p) (ht : m.Live t)
    (hc : (m.cell t).corners = ⟨.site a, .site b, .site c⟩) (hin : InTriangle (place a) (place b) (place c) p) :
    m.Covers place t p := by
  have hsite : ∀ k i, (m.cell t).corners.get k = .site i → p ≠ place i := fun k i e => (hp i (h.among t k i ht e)).symm
  rw [Covers, conflicts, hc]
  refine (insideCircle_zero _ _ _ _).2 (hin.inCircle_pos (h.turn t a b c ht hc) ?_ ?_ ?_)
  · exact hsite 0 a (by rw [hc]; rfl)
  · exact hsite 1 b (by rw [hc]; rfl)
  · exact hsite 2 c (by rw [hc]; rfl)

/-! ## The walk -/

theorem exists_beyond {k : Fin 3} (he : exit? (.ofPoint ⟨0⟩ place p) (m.cell t) = some k) :
    ∃ a b, m.side t k = ⟨.site a, .site b⟩ ∧ cross (place a) (place b) p < 0 := by
  have hbeyond := List.find?_some he
  change Verdicts.beyond _ (m.side t k) = true at hbeyond
  cases hs : m.side t k with
  | mk tail head =>
    rw [hs] at hbeyond
    cases tail with
    | infinity => cases hbeyond
    | site a =>
      cases head with
      | infinity => cases hbeyond
      | site b => exact ⟨a, b, rfl, of_decide_eq_true hbeyond⟩

theorem inTriangle_of_exit (he : exit? (.ofPoint ⟨0⟩ place p) (m.cell t) = none)
    (hc : (m.cell t).corners = ⟨.site a, .site b, .site c⟩) : InTriangle (place a) (place b) (place c) p := by
  have hside : ∀ k x y, (m.cell t).side k = ⟨.site x, .site y⟩ → 0 ≤ cross (place x) (place y) p := by
    intro k x y hs
    have := List.find?_eq_none.1 he k (Triple.mem_indices k)
    rw [hs] at this
    exact not_lt.1 fun hlt => this (decide_eq_true hlt)
  refine ⟨hside 2 a b ?_, hside 0 b c ?_, hside 1 c a ?_⟩ <;> rw [Cell.side, hc] <;> rfl

/-- A walk leaves the triangles only across a hull side with the point beyond it. -/
theorem covers_of_beyond (h : m.Delaunay place sites) (ht : m.Live t) (hb : (m.cell t).bounded = true)
    (hs : m.side t k = ⟨.site a, .site b⟩) (hneg : cross (place a) (place b) p < 0)
    (hout : (m.cell (m.behind t k)).bounded = false) : m.Covers place (m.behind t k) p := by
  have htwin : m.side (m.behind t k) (m.twin (t, k)).2 = ⟨.site b, .site a⟩ := (h.side_twin ht k).trans (congrArg Side.reverse hs)
  rw [covers_iff_outward htwin (h.corner_behind ht hb hout)]
  refine .inl ?_
  rw [cross_swap]
  exact neg_pos.2 hneg

theorem covers_of_walk (h : m.Delaunay place sites) (hp : ∀ i ∈ sites, place i ≠ p) {steps : Nat} (ht : m.Live t)
    (hc : (m.cell t).bounded = true ∨ m.Covers place t p) (hw : m.walk (.ofPoint ⟨0⟩ place p) steps t = some u) :
    m.Live u ∧ m.Covers place u p := by
  fun_induction walk m (.ofPoint ⟨0⟩ place p) steps t with
  | case1 => cases hw
  | case2 t steps c hb k hk ih =>
    obtain ⟨a, b, hs, hneg⟩ := exists_beyond hk
    refine ih (h.live_behind ht k) ?_ hw
    cases hout : (m.cell (c.across.get k)).bounded with
    | true => exact .inl rfl
    | false => exact .inr (h.covers_of_beyond ht hb hs hneg hout)
  | case3 t steps c hb hnone =>
    cases hw
    obtain ⟨x, y, z, hcorners⟩ := exists_corners hb
    exact ⟨ht, h.covers_of_inTriangle hp ht hcorners (inTriangle_of_exit hnone hcorners)⟩
  | case4 t steps c hb =>
    cases hw
    exact ⟨ht, hc.resolve_left hb⟩

/-! ## The search -/

/-- What a point in no half-plane behind the hull sees of the hull from within. -/
theorem hull_visible (h : m.Delaunay place sites) (hout : ∀ t, m.Live t → (m.cell t).bounded = false → ¬m.Covers place t p)
    {s : RimSide} (hs : s ∈ m.rimOf m.triangleSlots) : ∃ a ∈ sites, ∃ b ∈ sites, s.side = ⟨.site b, .site a⟩ ∧
      ¬Outward (place a) (place b) p ∧ 0 ≤ cross (place b) (place a) p := by
  rw [rimOf_eq_map, List.mem_map] at hs
  obtain ⟨e, he, rfl⟩ := hs
  obtain ⟨a, ha, b, hb, hs, hlive, hbout, hc⟩ := h.exists_behind he
  have ho : ¬Outward (place a) (place b) p := fun ho => hout _ hlive hbout ((hc p).2 ho)
  refine ⟨a, ha, b, hb, hs, ho, not_lt.1 fun hlt => ho (.inl ?_)⟩
  rw [cross_swap]
  exact neg_pos.2 hlt

/-- The triangles have an area, so no point has all of the hull in line with it. -/
theorem exists_hull_strict (h : m.Delaunay place sites) (p : Point Rat) :
    ∃ s ∈ m.rimOf m.triangleSlots, 0 < s.side.count place fun x y => cross x y p := by
  have hlive : ∀ t ∈ m.triangleSlots, m.Live t := fun t ht => (mem_triangleSlots.1 ht).1
  have harea := sum_around h.toClosedSurface place m.triangleSlots_nodup hlive (f := fun x y => cross x y p)
    fun x y => cross_swap x y p
  have hle := le_sum_of_mem (fun t ht => (h.around_pos (hlive t ht) (mem_triangleSlots.1 ht).2 p).le)
    (mem_triangleSlots.2 ⟨h.hint_live, h.hint_bounded⟩)
  have hsum := (h.around_pos h.hint_live h.hint_bounded p).trans_le hle
  rw [harea] at hsum
  exact List.exists_lt_of_sum_lt (fun _ => (0 : Rat)) _ (by simpa using hsum)

/-- A point in no half-plane behind the hull lies in a triangle. -/
theorem exists_inTriangle (h : m.Delaunay place sites) (hp : ∀ i ∈ sites, place i ≠ p)
    (hout : ∀ t, m.Live t → (m.cell t).bounded = false → ¬m.Covers place t p) :
    ∃ t a b c, m.Live t ∧ (m.cell t).corners = ⟨.site a, .site b, .site c⟩ ∧ InTriangle (place a) (place b) (place c) p := by
  obtain ⟨r, hr⟩ := exists_ray p (sites.map place) (by simpa only [List.forall_mem_map] using hp)
  rw [List.forall_mem_map] at hr
  have hlive : ∀ t ∈ m.triangleSlots, m.Live t := fun t ht => (mem_triangleSlots.1 ht).1
  have hfin : ∀ s ∈ m.rimOf m.triangleSlots, finite s = true := by
    intro s hs
    obtain ⟨a, -, b, -, e, -⟩ := h.hull_visible hout hs
    simp [finite, e]
  -- The hull crosses the ray, so a triangle winds around the point.
  have hone : 1 ≤ (m.triangleSlots.map (m.around place (crossing p r))).sum := by
    rw [sum_around h.toClosedSurface place m.triangleSlots_nodup hlive fun x y => crossing_swap p r x y]
    obtain ⟨s, hs, hpos⟩ := h.exists_hull_strict p
    rw [Side.count_eq (hfin s hs)] at hpos
    refine one_le_sum_count (h.balanced m.triangleSlots_nodup hlive) hfin (fun s hs => ?_) ⟨s, hs, hpos⟩ (fun s hs => ?_)
      fun s hs h1 h2 => ?_
    · obtain ⟨a, -, b, -, e, -, h0⟩ := h.hull_visible hout hs
      rw [e]
      exact h0
    · obtain ⟨a, ha, b, hb, e, -⟩ := h.hull_visible hout hs
      rw [e]
      exact ⟨hr b hb, hr a ha⟩
    · obtain ⟨a, -, b, -, e, ho, h0⟩ := h.hull_visible hout hs
      rw [e] at h1 h2 ⊢
      refine lt_of_le_of_ne h0 fun hline => ho (outward_of_crossing ?_ h2 h1)
      rw [cross_swap]
      exact neg_eq_zero.2 hline.symm
  obtain ⟨t, ht, hlt⟩ := List.exists_lt_of_sum_lt (l := m.triangleSlots) (fun _ => (0 : Int)) (m.around place (crossing p r))
    (by simpa using Int.lt_of_lt_of_le Int.one_pos hone)
  obtain ⟨hl, hb⟩ := mem_triangleSlots.1 ht
  obtain ⟨a, b, c, hc, -, hin⟩ := h.around_crossing hl hb hr
  exact ⟨t, a, b, c, hl, hc, hin hlt⟩

theorem covers_of_within (h : m.Delaunay place sites) (hp : ∀ i ∈ sites, place i ≠ p) (ht : m.Live t)
    (hb : (m.cell t).bounded = true) (hw : (Verdicts.ofPoint ⟨0⟩ place p).within (m.cell t).corners = true) :
    m.Covers place t p := by
  obtain ⟨a, b, c, hc⟩ := exists_corners hb
  rw [hc] at hw
  simp only [Verdicts.within, Verdicts.ofPoint, Bool.and_eq_true, decide_eq_true_eq] at hw
  exact h.covers_of_inTriangle hp ht hc ⟨hw.1.1, hw.1.2, hw.2⟩

theorem covers_of_search (h : m.Delaunay place sites) (hp : ∀ i ∈ sites, place i ≠ p)
    (hs : m.search? (.ofPoint ⟨0⟩ place p) = some t) : m.Live t ∧ m.Covers place t p := by
  rw [search?, Option.orElse_eq_orElse, Option.orElse_eq_or, Option.or_eq_some_iff] at hs
  rcases hs with hs | ⟨-, hs⟩
  · have := List.find?_some hs
    simp only [Bool.and_eq_true] at this
    exact ⟨this.1.1, h.covers_of_within hp this.1.1 this.1.2 this.2⟩
  · obtain ⟨ht, -, hc⟩ := outerConflict?_spec hs
    exact ⟨ht, hc⟩

/-- The search for a point never comes back empty. -/
theorem search_isSome (h : m.Delaunay place sites) (hp : ∀ i ∈ sites, place i ≠ p) :
    (m.search? (.ofPoint ⟨0⟩ place p)).isSome = true := by
  rw [search?, Option.orElse_eq_orElse, Option.orElse_eq_or, Option.isSome_or, Bool.or_eq_true]
  by_cases houter : ∃ t, m.Live t ∧ (m.cell t).bounded = false ∧ m.Covers place t p
  · obtain ⟨t, ht, hb, hc⟩ := houter
    refine .inr (List.find?_isSome.2 ⟨t, List.mem_range.2 (lt_of_live ht), ?_⟩)
    simp only [Bool.and_eq_true, Bool.not_eq_true']
    exact ⟨⟨ht, hb⟩, hc⟩
  · obtain ⟨t, a, b, c, ht, hc, hin⟩ := h.exists_inTriangle hp fun t ht hb hc => houter ⟨t, ht, hb, hc⟩
    refine .inl (List.find?_isSome.2 ⟨t, List.mem_range.2 (lt_of_live ht), ?_⟩)
    obtain ⟨h1, h2, h3⟩ := hin
    simp only [Bool.and_eq_true]
    refine ⟨⟨ht, Cell.bounded_of_corners hc⟩, ?_⟩
    simp only [hc, Verdicts.within, Verdicts.ofPoint, Bool.and_eq_true, decide_eq_true_eq]
    exact ⟨⟨h1, h2⟩, h3⟩

/-- Every new point has a cell to begin with, and its region holds the point. -/
theorem exists_start (h : m.Delaunay place sites) (hp : ∀ i ∈ sites, place i ≠ p) :
    ∃ t, m.start? (.ofPoint ⟨0⟩ place p) (m.locate (.ofPoint ⟨0⟩ place p)).2 = some t ∧ m.Live t ∧ m.Covers place t p := by
  have hfound : ∃ t, (m.locate (.ofPoint ⟨0⟩ place p)).2 = some t ∧ m.Live t ∧ m.Covers place t p := by
    unfold locate
    cases hw : m.walk (.ofPoint ⟨0⟩ place p) (m.cells.size + 3) m.hint with
    | some t => exact ⟨t, rfl, h.covers_of_walk hp h.hint_live (.inl h.hint_bounded) hw⟩
    | none =>
      obtain ⟨t, ht⟩ := Option.isSome_iff_exists.1 (h.search_isSome hp)
      exact ⟨t, ht, h.covers_of_search hp ht⟩
  obtain ⟨t, hfound, ht, hc⟩ := hfound
  have hconflict : m.conflicts (.ofPoint ⟨0⟩ place p) t = true := hc
  refine ⟨t, ?_, ht, hc⟩
  rw [start?, hfound, Option.filter_some, hconflict, Bool.or_true]
  rfl

end Delaunay

end Mesh

end DelaunaySurface
