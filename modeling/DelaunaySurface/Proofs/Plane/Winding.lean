import DelaunaySurface.Proofs.Plane.Hinge
/-!
# Winding around a point

Sides are counted where they cross a ray from `p`, upward with a plus and downward with a minus; the ray
goes toward `r` and meets no corner. Around a counter-clockwise triangle the count is never negative,
and where it is positive the point is in the triangle. Loops that the point sees cross the ray.
-/

namespace DelaunaySurface

variable {p r : Point Rat}

/-! ## A ray that meets no corner -/

/-- From a point there is a ray, on a line that goes through none of finitely many others. -/
theorem exists_ray (p : Point Rat) (l : List (Point Rat)) (h : ∀ s ∈ l, s ≠ p) : ∃ r, ∀ s ∈ l, cross p r s ≠ 0 := by
  obtain ⟨t, ht⟩ := Infinite.exists_notMem_finset (l.map fun s => (s.y - p.y) / (s.x - p.x)).toFinset
  refine ⟨⟨p.x + 1, p.y + t⟩, fun s hs h0 => ?_⟩
  have hline : s.y - p.y = t * (s.x - p.x) := by
    rw [cross_eq] at h0
    simp only [add_sub_cancel_left, one_mul] at h0
    linarith
  by_cases hx : s.x - p.x = 0
  · refine h s hs ?_
    obtain ⟨sx, sy⟩ := s
    obtain ⟨px, py⟩ := p
    simp only [Point.mk.injEq, sub_eq_zero] at hx hline ⊢
    subst hx
    exact ⟨rfl, by linarith⟩
  · refine ht (List.mem_toFinset.2 (List.mem_map.2 ⟨s, hs, ?_⟩))
    rw [hline, mul_div_assoc, div_self hx, mul_one]

/-! ## Crossings -/

/-- How the side from `a` to `b` crosses the ray from `p` toward `r`. -/
def crossing (p r a b : Point Rat) : Int :=
  if cross p r a < 0 ∧ 0 < cross p r b ∧ 0 < cross a b p then 1
  else if cross p r b < 0 ∧ 0 < cross p r a ∧ cross a b p < 0 then -1
  else 0

theorem crossing_swap (p r a b : Point Rat) : crossing p r b a = -crossing p r a b := by
  have hswap := cross_swap a b p
  unfold crossing
  simp only [hswap, neg_pos, neg_lt_zero]
  by_cases h1 : cross p r a < 0 ∧ 0 < cross p r b ∧ 0 < cross a b p
  · have h2 : ¬(cross p r b < 0 ∧ 0 < cross p r a ∧ cross a b p < 0) := fun h2 => absurd h1.1 h2.2.1.not_gt
    rw [if_pos h1, if_neg h2, if_pos h1]
  · by_cases h2 : cross p r b < 0 ∧ 0 < cross p r a ∧ cross a b p < 0
    · rw [if_pos ⟨h2.1, h2.2.1, h2.2.2⟩, if_neg h1, if_pos h2, neg_neg]
    · rw [if_neg h1, if_neg h2, if_neg h2, if_neg h1, neg_zero]

theorem crossing_nonneg {a b : Point Rat} (h : 0 ≤ cross a b p) : 0 ≤ crossing p r a b := by
  unfold crossing
  split
  · exact Int.one_nonneg
  · split
    · rename_i h2; exact absurd h2.2.2 (not_lt.2 h)
    · exact le_refl 0

theorem crossing_pos {a b : Point Rat} (h : 0 < crossing p r a b) : cross p r a < 0 ∧ 0 < cross p r b ∧ 0 < cross a b p := by
  unfold crossing at h
  split at h
  · assumption
  · split at h <;> exact absurd h (by decide)

theorem crossing_le_one (p r a b : Point Rat) : crossing p r a b ≤ 1 := by
  unfold crossing
  split
  · exact le_refl 1
  · split <;> decide

theorem crossing_up {a b : Point Rat} (ha : cross p r a < 0) (hb : 0 < cross p r b) :
    crossing p r a b = if 0 < cross a b p then 1 else 0 := by
  unfold crossing
  by_cases h : 0 < cross a b p
  · rw [if_pos ⟨ha, hb, h⟩, if_pos h]
  · rw [if_neg fun h1 => h h1.2.2, if_neg fun h1 => hb.not_gt h1.1, if_neg h]

theorem crossing_down {a b : Point Rat} (ha : 0 < cross p r a) (hb : cross p r b < 0) :
    crossing p r a b = if cross a b p < 0 then -1 else 0 := by
  unfold crossing
  rw [if_neg fun h1 => ha.not_gt h1.1]
  by_cases h : cross a b p < 0
  · rw [if_pos ⟨hb, ha, h⟩, if_pos h]
  · rw [if_neg fun h1 => h h1.2.2, if_neg h]

theorem crossing_same {a b : Point Rat} (h : 0 < cross p r a * cross p r b) : crossing p r a b = 0 := by
  unfold crossing
  rw [if_neg fun h1 => ?_, if_neg fun h1 => ?_]
  · exact absurd (mul_neg_of_pos_of_neg h1.2.1 h1.1) h.not_gt
  · exact absurd (mul_neg_of_neg_of_pos h1.1 h1.2.1) h.not_gt

/-! ## Triangles -/

/-- The crossings around a triangle. -/
def winding (p r a b c : Point Rat) : Int := crossing p r a b + crossing p r b c + crossing p r c a

theorem winding_rotate (p r a b c : Point Rat) : winding p r b c a = winding p r a b c := by
  simp only [winding]; ring

/-- The point lies in the closed triangle. -/
def InTriangle (a b c p : Point Rat) : Prop := 0 ≤ cross a b p ∧ 0 ≤ cross b c p ∧ 0 ≤ cross c a p

theorem InTriangle.rotate {a b c : Point Rat} (h : InTriangle b c a p) : InTriangle a b c p := ⟨h.2.2, h.1, h.2.1⟩

/-- The point where the medians of a triangle meet. -/
def centroid (a b c : Point Rat) : Point Rat := ⟨(a.x + b.x + c.x) / 3, (a.y + b.y + c.y) / 3⟩

theorem cross_centroid (p q a b c : Point Rat) :
    cross p q (centroid a b c) = (cross p q a + cross p q b + cross p q c) / 3 := by
  simp only [centroid, cross_eq]; ring

theorem centroid_rotate (a b c : Point Rat) : centroid b c a = centroid a b c := by
  rw [centroid, centroid, Point.mk.injEq]
  exact ⟨by ring, by ring⟩

/-- The middle of a triangle is strictly to the left of its sides. -/
theorem cross_centroid_pos {a b c : Point Rat} (h : 0 < cross a b c) : 0 < cross a b (centroid a b c) := by
  have hthird : cross a b (centroid a b c) = cross a b c / 3 := by
    rw [cross_centroid]
    simp only [cross_eq]; ring
  rw [hthird]
  exact div_pos h (by norm_num)

/-- A point on two sides' lines is their common corner. -/
theorem eq_of_cross_eq_zero {a b c : Point Rat} (h : cross a b c ≠ 0) (h1 : cross b c p = 0) (h2 : cross c a p = 0) : p = c := by
  have hx : (p.x - c.x) * cross a b c = 0 := by
    rw [cross_eq] at h1 h2 ⊢
    linear_combination (a.x - c.x) * h1 + (b.x - c.x) * h2
  have hy : (p.y - c.y) * cross a b c = 0 := by
    rw [cross_eq] at h1 h2 ⊢
    linear_combination (a.y - c.y) * h1 + (b.y - c.y) * h2
  have ex := sub_eq_zero.1 ((mul_eq_zero.1 hx).resolve_right h)
  have ey := sub_eq_zero.1 ((mul_eq_zero.1 hy).resolve_right h)
  cases p
  cases c
  simp_all

/-- A triangle lies inside its circle, but for its corners. -/
theorem InTriangle.inCircle_pos {a b c : Point Rat} (hin : InTriangle a b c p) (h : 0 < cross a b c) (ha : p ≠ a) (hb : p ≠ b)
    (hc : p ≠ c) : 0 < inCircle a b c p := by
  obtain ⟨h1, h2, h3⟩ := hin
  have harea := inCircle_mul_area a b c p
  have hbca : cross b c a ≠ 0 := (cross_rotate a b c).symm ▸ h.ne'
  have hcab : cross c a b ≠ 0 := (cross_rotate b c a).symm ▸ hbca
  obtain ⟨hab, hbc, hac⟩ := ne_of_cross h.ne'
  have t1 := mul_nonneg (mul_nonneg h2 h3) (dot_self_pos hab).le
  have t2 := mul_nonneg (mul_nonneg h3 h1) (dot_self_pos hbc).le
  have t3 := mul_nonneg (mul_nonneg h1 h2) (dot_self_pos hac.symm).le
  by_contra hn
  have hneg := mul_nonpos_of_nonpos_of_nonneg (not_lt.1 hn) h.le
  have hzero : ∀ {u v w : Rat}, w ≠ 0 → u * v * w = 0 → u = 0 ∨ v = 0 := fun hw e =>
    mul_eq_zero.1 ((mul_eq_zero.1 e).resolve_right hw)
  -- Each product of two weights vanishes, so two of the three weights do.
  have z1 := hzero (dot_self_pos hab).ne' (by linarith : cross b c p * cross c a p * dot a a b = 0)
  have z2 := hzero (dot_self_pos hbc).ne' (by linarith : cross c a p * cross a b p * dot b b c = 0)
  have z3 := hzero (dot_self_pos hac.symm).ne' (by linarith : cross a b p * cross b c p * dot c c a = 0)
  rcases z1 with za | zb
  · rcases z2 with zb | zc
    · exact hc (eq_of_cross_eq_zero h.ne' za zb)
    · exact hb (eq_of_cross_eq_zero hcab zc za)
  · rcases z3 with zc | za
    · exact ha (eq_of_cross_eq_zero hbca zb zc)
    · exact hc (eq_of_cross_eq_zero h.ne' za zb)

/-- A point on the line of a side that crosses another line there lies between the side's ends. -/
theorem outward_of_crossing {a b : Point Rat} (h : cross a b p = 0) (ha : 0 < cross p r a) (hb : cross p r b < 0) : Outward a b p := by
  have hab : a ≠ b := by rintro rfl; exact ha.not_gt hb
  obtain ⟨t, ht⟩ := exists_along h hab
  have hzero : (1 - t) * cross p r a + t * cross p r b = 0 := by
    rw [← cross_along, ← ht]
    simp only [cross_eq]
    ring
  rw [ht]
  refine outward_along hab ?_ ?_
  · by_contra h0
    linarith [mul_pos (by linarith : 0 < 1 - t) ha, mul_nonneg_of_nonpos_of_nonpos (not_lt.1 h0) hb.le]
  · by_contra h1
    linarith [mul_nonneg (by linarith : 0 ≤ t - 1) ha.le, mul_neg_of_pos_of_neg (by linarith : 0 < t) hb]

theorem weights (p r a b c : Point Rat) :
    cross p r c * cross a b p + cross p r a * cross b c p + cross p r b * cross c a p = 0 := by
  simp only [cross_eq]; ring

theorem cross_add (a b c p : Point Rat) : cross a b p + cross b c p + cross c a p = cross a b c := by
  simp only [cross_eq]; ring

/-- With one corner below the ray's line. -/
theorem winding_one_low {a b c : Point Rat} (h : 0 < cross a b c) (ha : cross p r a < 0) (hb : 0 < cross p r b)
    (hc : 0 < cross p r c) : 0 ≤ winding p r a b c ∧ (0 < winding p r a b c → InTriangle a b c p) := by
  have hw := weights p r a b c
  have hs := cross_add a b c p
  rw [winding, crossing_up ha hb, crossing_same (mul_pos hb hc), crossing_down hc ha]
  by_cases h1 : 0 < cross a b p <;> by_cases h2 : cross c a p < 0 <;> simp only [h1, h2, if_true, if_false]
  · exact ⟨by decide, fun h => absurd h (by decide)⟩
  · refine ⟨by decide, fun _ => ⟨h1.le, ?_, not_lt.1 h2⟩⟩
    by_contra h3
    linarith [mul_nonneg hc.le h1.le, mul_pos_of_neg_of_neg ha (not_le.1 h3), mul_nonneg hb.le (not_lt.1 h2)]
  · have h3 : 0 < cross b c p := by linarith
    linarith [mul_nonneg hc.le (neg_nonneg.2 (not_lt.1 h1)), mul_neg_of_neg_of_pos ha h3, mul_neg_of_pos_of_neg hb h2]
  · exact ⟨by decide, fun h => absurd h (by decide)⟩

/-- With one corner above the ray's line. -/
theorem winding_one_high {a b c : Point Rat} (h : 0 < cross a b c) (ha : cross p r a < 0) (hb : 0 < cross p r b)
    (hc : cross p r c < 0) : 0 ≤ winding p r a b c ∧ (0 < winding p r a b c → InTriangle a b c p) := by
  have hw := weights p r a b c
  have hs := cross_add a b c p
  rw [winding, crossing_up ha hb, crossing_down hb hc, crossing_same (mul_pos_of_neg_of_neg hc ha)]
  by_cases h1 : 0 < cross a b p <;> by_cases h2 : cross b c p < 0 <;> simp only [h1, h2, if_true, if_false]
  · exact ⟨by decide, fun h => absurd h (by decide)⟩
  · refine ⟨by decide, fun _ => ⟨h1.le, not_lt.1 h2, ?_⟩⟩
    by_contra h3
    linarith [mul_neg_of_neg_of_pos hc h1, mul_nonneg (neg_nonneg.2 ha.le) (not_lt.1 h2), mul_neg_of_pos_of_neg hb (not_le.1 h3)]
  · have h3 : 0 < cross c a p := by linarith
    linarith [mul_nonneg (neg_nonneg.2 hc.le) (neg_nonneg.2 (not_lt.1 h1)), mul_pos_of_neg_of_neg ha h2, mul_pos hb h3]
  · exact ⟨by decide, fun h => absurd h (by decide)⟩

/-- A counter-clockwise triangle winds around the point once or not at all, and once only if it holds it. -/
theorem winding_nonneg {a b c : Point Rat} (h : 0 < cross a b c) (ha : cross p r a ≠ 0) (hb : cross p r b ≠ 0)
    (hc : cross p r c ≠ 0) : 0 ≤ winding p r a b c ∧ (0 < winding p r a b c → InTriangle a b c p) := by
  have hbca : 0 < cross b c a := (cross_rotate a b c).symm ▸ h
  have hcab : 0 < cross c a b := (cross_rotate b c a).symm ▸ hbca
  have e1 := winding_rotate p r a b c
  have e2 := winding_rotate p r b c a
  have hflat : ∀ {a b c : Point Rat}, 0 < cross p r a * cross p r b → 0 < cross p r b * cross p r c →
      0 < cross p r c * cross p r a → 0 ≤ winding p r a b c ∧ (0 < winding p r a b c → InTriangle a b c p) := by
    intro a b c h1 h2 h3
    rw [winding, crossing_same h1, crossing_same h2, crossing_same h3]
    exact ⟨by decide, fun h => absurd h (by decide)⟩
  rcases lt_or_gt_of_ne ha with ha | ha <;> rcases lt_or_gt_of_ne hb with hb | hb <;> rcases lt_or_gt_of_ne hc with hc | hc
  · exact hflat (mul_pos_of_neg_of_neg ha hb) (mul_pos_of_neg_of_neg hb hc) (mul_pos_of_neg_of_neg hc ha)
  · obtain ⟨h1, h2⟩ := winding_one_high hbca hb hc ha
    rw [e1] at h1 h2
    exact ⟨h1, fun h => (h2 h).rotate⟩
  · exact winding_one_high h ha hb hc
  · exact winding_one_low h ha hb hc
  · obtain ⟨h1, h2⟩ := winding_one_high hcab hc ha hb
    rw [e2, e1] at h1 h2
    exact ⟨h1, fun h => (h2 h).rotate.rotate⟩
  · obtain ⟨h1, h2⟩ := winding_one_low hbca hb hc ha
    rw [e1] at h1 h2
    exact ⟨h1, fun h => (h2 h).rotate⟩
  · obtain ⟨h1, h2⟩ := winding_one_low hcab hc ha hb
    rw [e2, e1] at h1 h2
    exact ⟨h1, fun h => (h2 h).rotate.rotate⟩
  · exact hflat (mul_pos ha hb) (mul_pos hb hc) (mul_pos hc ha)

/-- A triangle winds around every point strictly inside it. -/
theorem winding_pos {a b c : Point Rat} (hab : 0 < cross a b p) (hbc : 0 < cross b c p) (hca : 0 < cross c a p)
    (ha : cross p r a ≠ 0) (hb : cross p r b ≠ 0) (hc : cross p r c ≠ 0) : 0 < winding p r a b c := by
  have h1 := crossing_nonneg (r := r) hab.le
  have h2 := crossing_nonneg (r := r) hbc.le
  have h3 := crossing_nonneg (r := r) hca.le
  -- It is enough to find one side that crosses the ray upward.
  suffices h : crossing p r a b = 1 ∨ crossing p r b c = 1 ∨ crossing p r c a = 1 by
    rw [winding]
    omega
  have hup : ∀ {x y : Point Rat}, cross p r x < 0 → 0 < cross p r y → 0 < cross x y p → crossing p r x y = 1 :=
    fun hx hy hxy => by rw [crossing_up hx hy, if_pos hxy]
  have hw := weights p r a b c
  rcases lt_or_gt_of_ne ha with ha | ha <;> rcases lt_or_gt_of_ne hb with hb | hb <;> rcases lt_or_gt_of_ne hc with hc | hc
  · linarith [mul_neg_of_neg_of_pos hc hab, mul_neg_of_neg_of_pos ha hbc, mul_neg_of_neg_of_pos hb hca]
  · exact .inr (.inl (hup hb hc hbc))
  · exact .inl (hup ha hb hab)
  · exact .inl (hup ha hb hab)
  · exact .inr (.inr (hup hc ha hca))
  · exact .inr (.inl (hup hb hc hbc))
  · exact .inr (.inr (hup hc ha hca))
  · linarith [mul_pos hc hab, mul_pos ha hbc, mul_pos hb hca]

end DelaunaySurface
