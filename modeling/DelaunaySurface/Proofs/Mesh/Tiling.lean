import DelaunaySurface.Proofs.Mesh.Location
import DelaunaySurface.Proofs.Triangulation.Hull
/-!
# Triangles fill the hull

The triangles of a Delaunay surface lie side by side: no rational point is strictly inside two of them
(`eq_of_inside`), and each that is strictly inside the hull and no site lies in one (`exists_triangle_of_inside`).
-/

namespace DelaunaySurface

open Triple (next previous)

namespace Mesh.Delaunay

variable {m : Mesh} {place : Nat → Point Rat} {sites : List Nat} {p : Point Rat} {t u : Nat} {k : Fin 3} {a b i : Nat}

/-! ## The hull -/

/-- No site lies to the right of a hull side, or on it between its ends. -/
theorem not_outward_hull (h : m.Delaunay place sites) (he : (a, b) ∈ m.outerSides) (hi : i ∈ sites) :
    ¬Outward (place b) (place a) (place i) := by
  obtain ⟨t, ht, hs⟩ := mem_outerSides.1 he
  obtain ⟨k, hk, hs⟩ := Cell.hullSide?_eq_some_iff.1 hs
  exact fun ho => h.empty t ht i hi ((covers_iff_outward hs hk).2 ho)

theorem outer_ne (h : m.Delaunay place sites) (he : (a, b) ∈ m.outerSides) : place a ≠ place b := by
  obtain ⟨ha, hb⟩ := h.outer_among he
  obtain ⟨t, ht, hs⟩ := mem_outerSides.1 he
  obtain ⟨k, hk, hs⟩ := Cell.hullSide?_eq_some_iff.1 hs
  exact h.distinct a ha b hb (h.mem_sites ht hs).2.2.symm

/-- Across a side of a triangle there is a site, unless it is a hull side. -/
theorem outer_or_exists (h : m.Delaunay place sites) (ht : m.Live t) (hb : (m.cell t).bounded = true)
    (hs : m.side t k = ⟨.site a, .site b⟩) : (a, b) ∈ m.outerSides ∨ ∃ x ∈ sites, cross (place a) (place b) (place x) < 0 := by
  have hlive := h.live_behind ht k
  have htwin : m.side (m.behind t k) (m.twin (t, k)).2 = ⟨.site b, .site a⟩ := (h.side_twin ht k).trans (congrArg Side.reverse hs)
  cases hout : (m.cell (m.behind t k)).bounded with
  | false => exact .inl (mem_outerSides.2 ⟨_, hlive, Cell.hullSide?_eq_some_iff.2 ⟨_, h.corner_behind ht hb hout, htwin⟩⟩)
  | true =>
    cases hx : (m.cell (m.behind t k)).corners.get (m.twin (t, k)).2 with
    | infinity => exact absurd hx ((Cell.bounded_iff _).1 hout _)
    | site x =>
      refine .inr ⟨x, h.among _ _ x hlive hx, ?_⟩
      have hpos := h.turn_side hlive htwin (q := place x) (by rw [hx]; rfl)
      have hswap := cross_swap (place a) (place b) (place x)
      linarith

/-! ## Inside -/

/-- A triangle is counter-clockwise, seen from each of its sides. -/
theorem turn_triangleAt (h : m.Delaunay place sites) (ht : t ∈ m.triangleSlots) (k : Fin 3) :
    0 < cross (place ((m.triangleAt t).side k).1) (place ((m.triangleAt t).side k).2) (place ((m.triangleAt t).get k)) := by
  obtain ⟨ht, hb⟩ := mem_triangleSlots.1 ht
  exact h.turn_side ht (side_eq_site hb k) (by rw [corner_eq_site hb k]; rfl)

/-- A point strictly inside the hull lies in a triangle. -/
theorem exists_triangle_of_inside (h : m.Delaunay place sites) (hp : ∀ i ∈ sites, place i ≠ p)
    (hin : ∀ e ∈ m.outerSides, 0 < cross (place e.1) (place e.2) p) :
    ∃ t ∈ m.triangleSlots, ∀ k, 0 ≤ cross (place ((m.triangleAt t).side k).1) (place ((m.triangleAt t).side k).2) p := by
  obtain ⟨t, a, b, c, ht, hc, hab, hbc, hca⟩ := h.exists_inTriangle hp fun t ht hb hcovers => by
    obtain ⟨k, e, hk, hs, he⟩ := h.exists_hullSide ht hb
    have hpos := hin e (mem_outerSides.2 ⟨t, ht, he⟩)
    have hswap := cross_swap (place e.1) (place e.2) p
    rcases (covers_iff_outward hs hk).1 hcovers with ho | ⟨ho, -⟩ <;> linarith
  refine ⟨t, mem_triangleSlots.2 ⟨ht, Cell.bounded_of_corners hc⟩, fun k => ?_⟩
  rw [triangleAt, hc]
  rcases Triple.eq_zero_or k with rfl | rfl | rfl
  · exact hbc
  · exact hca
  · exact hab

/-- The point lies strictly inside the triangle in the slot. -/
def Inside (m : Mesh) (place : Nat → Point Rat) (p : Point Rat) (t : Nat) : Prop :=
  ∀ k, 0 < cross (place ((m.triangleAt t).side k).1) (place ((m.triangleAt t).side k).2) p

/-- A triangle with the point strictly inside winds around it. -/
theorem one_le_around (h : m.Delaunay place sites) {r : Point Rat} (hr : ∀ i ∈ sites, cross p r (place i) ≠ 0)
    (ht : t ∈ m.triangleSlots) (hin : Inside m place p t) : 1 ≤ m.around place (crossing p r) t := by
  obtain ⟨ht, hb⟩ := mem_triangleSlots.1 ht
  have hgeneral : ∀ k, cross p r (place ((m.triangleAt t).get k)) ≠ 0 := fun k => hr _ (h.among t k _ ht (corner_eq_site hb k))
  have hw : 0 < winding p r (place (m.triangleAt t).fst) (place (m.triangleAt t).snd) (place (m.triangleAt t).trd) :=
    winding_pos (hin 2) (hin 0) (hin 1) (hgeneral 0) (hgeneral 1) (hgeneral 2)
  rw [around_bounded (corners_eq hb)]
  rw [winding] at hw
  omega

/-- No point but a site is strictly inside two triangles. -/
theorem eq_of_inside (h : m.Delaunay place sites) (hp : ∀ i ∈ sites, place i ≠ p) (ht : t ∈ m.triangleSlots)
    (hu : u ∈ m.triangleSlots) (hin : Inside m place p t) (hin' : Inside m place p u) : t = u := by
  by_contra hne
  obtain ⟨r, hr⟩ := exists_ray p (sites.map place) (by simpa only [List.forall_mem_map] using hp)
  rw [List.forall_mem_map] at hr
  have hone := h.one_le_around hr ht hin
  have hone' := h.one_le_around hr hu hin'
  -- Each of the two winds once around the point, all triangles together at most once.
  have hsub := sum_map_le_of_subset (l := [t, u]) (k := m.triangleSlots) (f := m.around place (crossing p r)) (by simp [hne])
    (by simp [ht, hu]) fun v hv => ?_
  · have hle := h.sum_hull_le_one (p := p) (r := r)
    simp only [List.map_cons, List.map_nil, List.sum_cons, List.sum_nil] at hsub
    omega
  · obtain ⟨hv, hb⟩ := mem_triangleSlots.1 hv
    obtain ⟨-, -, -, -, h0, -⟩ := h.around_crossing hv hb hr
    exact h0

end Mesh.Delaunay

end DelaunaySurface
