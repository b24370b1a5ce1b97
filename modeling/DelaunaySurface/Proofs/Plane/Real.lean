import DelaunaySurface.Proofs.Plane.Winding
/-!
# The real plane

Rational points in the real plane, with the sides of lines through two of them, the triangles of three of
them, and what follows for all points of the plane from what holds of the rational ones.
-/

namespace DelaunaySurface

/-- A rational point in the real plane. -/
noncomputable def Point.real (p : Point Rat) : ℝ × ℝ := (p.x, p.y)

/-- Twice the signed area of `a b q`. -/
noncomputable def realCross (a b : Point Rat) (q : ℝ × ℝ) : ℝ :=
  ((b.x : ℝ) - a.x) * (q.2 - a.y) - ((b.y : ℝ) - a.y) * (q.1 - a.x)

variable {a b c p u w : Point Rat} {q r : ℝ × ℝ} {S C : Set (ℝ × ℝ)}

/-! ## Sides of a line -/

theorem realCross_real (a b p : Point Rat) : realCross a b p.real = (cross a b p : Rat) := by
  simp only [realCross, Point.real, cross_eq]
  push_cast
  ring

theorem realCross_combine (a b : Point Rat) (q r : ℝ × ℝ) {x y : ℝ} (h : x + y = 1) :
    realCross a b (x • q + y • r) = x * realCross a b q + y * realCross a b r := by
  simp only [realCross, Prod.fst_add, Prod.snd_add, Prod.smul_fst, Prod.smul_snd, smul_eq_mul]
  rw [show y = 1 - x by linarith]
  ring

theorem continuous_realCross (a b : Point Rat) : Continuous (realCross a b) := by
  unfold realCross
  fun_prop

theorem convex_left (a b : Point Rat) : Convex ℝ {q | 0 ≤ realCross a b q} := by
  intro q hq r hr x y hx hy hxy
  change 0 ≤ realCross a b (x • q + y • r)
  rw [realCross_combine a b q r hxy]
  exact add_nonneg (mul_nonneg hx hq) (mul_nonneg hy hr)

/-- A point of the interior of a set to the left of a line is not on the line. -/
theorem realCross_pos_of_mem_interior (hab : a ≠ b) (hS : ∀ q ∈ S, 0 ≤ realCross a b q) (hq : q ∈ interior S) :
    0 < realCross a b q := by
  -- The points a little to the right of `q` are still in the set.
  let f (e : ℝ) : ℝ × ℝ := (q.1 + e * ((b.y : ℝ) - a.y), q.2 - e * ((b.x : ℝ) - a.x))
  have hf : Continuous f := by fun_prop
  have hnear : ∀ᶠ e in nhds (0 : ℝ), f e ∈ interior S :=
    hf.continuousAt.eventually_mem (isOpen_interior.mem_nhds (by simpa [f] using hq))
  obtain ⟨e, he, hpos⟩ := ((hnear.filter_mono nhdsWithin_le_nhds).and (self_mem_nhdsWithin (s := Set.Ioi 0))).exists
  have hshift : realCross a b (f e) = realCross a b q - e * (dot b b a : Rat) := by
    simp only [realCross, f, dot]
    push_cast
    ring
  have h0 := hS _ (interior_subset he)
  have hl : (0 : ℝ) < (dot b b a : Rat) := Rat.cast_pos.2 (dot_self_pos hab.symm)
  rw [hshift] at h0
  have := mul_pos (Set.mem_Ioi.1 hpos) hl
  linarith

/-! ## Rational points -/

/-- Every open set has a rational point other than finitely many. -/
theorem exists_rational (hS : IsOpen S) (hne : S.Nonempty) (l : List (Point Rat)) : ∃ p : Point Rat, p.real ∈ S ∧ ∀ s ∈ l, s ≠ p := by
  have hdense : Dense (Set.range Point.real) := by
    have h := (Rat.denseRange_cast (𝕜 := ℝ)).prodMap (Rat.denseRange_cast (𝕜 := ℝ))
    refine Dense.mono ?_ h
    rintro _ ⟨⟨x, y⟩, rfl⟩
    exact ⟨⟨x, y⟩, rfl⟩
  obtain ⟨_, hmem, ⟨p, rfl⟩, hp⟩ := (hdense.sdiff_finite (l.map Point.real).toFinset.finite_toSet).inter_open_nonempty S hS hne
  refine ⟨p, hmem, ?_⟩
  rintro s hs rfl
  exact hp (by simpa using ⟨s, hs, rfl⟩)

/-- A closed set with all points between two, but finitely many, has the two. -/
theorem mem_of_toward (hC : IsClosed C) {o : ℝ × ℝ} (hqo : q ≠ o) {F : Set (ℝ × ℝ)} (hF : F.Finite)
    (h : ∀ e : ℝ, 0 < e → e < 1 → AffineMap.lineMap q o e ∉ F → AffineMap.lineMap q o e ∈ C) : q ∈ C := by
  have hclosed : IsClosed (Set.preimage (AffineMap.lineMap q o) C : Set ℝ) := hC.preimage AffineMap.lineMap_continuous
  have hdense : Dense (Set.univ \ Set.preimage (AffineMap.lineMap q o) F : Set ℝ) :=
    dense_univ.sdiff_finite (hF.preimage (AffineMap.lineMap_injective ℝ hqo).injOn)
  have hsub : Set.Icc (0 : ℝ) 1 ⊆ Set.preimage (AffineMap.lineMap q o) C := by
    rw [← closure_Ioo zero_ne_one]
    refine closure_minimal ((hdense.open_subset_closure_inter isOpen_Ioo).trans (closure_minimal ?_ hclosed)) hclosed
    rintro e ⟨⟨h0, h1⟩, -, he⟩
    exact h e h0 h1 he
  simpa using hsub (Set.left_mem_Icc.2 zero_le_one)

/-! ## Triangles and segments -/

/-- The weights of the corners of a triangle at a point. -/
theorem realCross_weights (a b c : Point Rat) (q : ℝ × ℝ) :
    realCross b c q • a.real + realCross c a q • b.real + realCross a b q • c.real = realCross a b c.real • q := by
  ext <;> simp only [realCross, Point.real, Prod.fst_add, Prod.snd_add, Prod.smul_fst, Prod.smul_snd, smul_eq_mul] <;> ring

/-- A point by its shares in the corners of a triangle. -/
theorem realCross_shares (q : ℝ × ℝ) (h : 0 < cross a b c) :
    (realCross b c q / realCross a b c.real) • a.real + (realCross c a q / realCross a b c.real) • b.real +
      (realCross a b q / realCross a b c.real) • c.real = q := by
  have hA : realCross a b c.real ≠ 0 := by rw [realCross_real, Rat.cast_ne_zero]; exact h.ne'
  rw [div_eq_inv_mul, div_eq_inv_mul, div_eq_inv_mul, mul_smul, mul_smul, mul_smul, ← smul_add, ← smul_add, realCross_weights,
    inv_smul_smul₀ hA]

theorem realCross_add (a b c : Point Rat) (q : ℝ × ℝ) :
    realCross b c q + realCross c a q + realCross a b q = realCross a b c.real := by
  simp only [realCross, Point.real]
  ring

/-- A closed triangle is what lies to the left of its sides. -/
theorem mem_convexHull_triangle (h : 0 < cross a b c) : q ∈ convexHull ℝ {a.real, b.real, c.real} ↔
    0 ≤ realCross a b q ∧ 0 ≤ realCross b c q ∧ 0 ≤ realCross c a q := by
  have hbca : cross b c a = cross a b c := cross_rotate a b c
  have hcab : cross c a b = cross a b c := (cross_rotate b c a).trans hbca
  constructor
  · have hleft : ∀ {x y : Point Rat}, 0 ≤ cross x y a → 0 ≤ cross x y b → 0 ≤ cross x y c →
        q ∈ convexHull ℝ {a.real, b.real, c.real} → 0 ≤ realCross x y q := by
      intro x y ha hb hc hq
      refine convexHull_min ?_ (convex_left x y) hq
      rintro _ (rfl | rfl | rfl) <;> change 0 ≤ realCross x y _ <;> rw [realCross_real, Rat.cast_nonneg] <;> assumption
    refine fun hq => ⟨hleft ?_ ?_ ?_ hq, hleft ?_ ?_ ?_ hq, hleft ?_ ?_ ?_ hq⟩ <;>
      simp only [cross_self_left, cross_self_right, le_refl, h.le, hbca, hcab]
  · rintro ⟨hc, ha, hb⟩
    have hA : 0 < realCross a b c.real := by rwa [realCross_real, Rat.cast_pos]
    have hsum := realCross_add a b c q
    have hshares : ∑ k, (![realCross b c q, realCross c a q, realCross a b q] k / realCross a b c.real) •
        (![a.real, b.real, c.real] : Fin 3 → ℝ × ℝ) k = q := (Fin.sum_univ_three _).trans (realCross_shares q h)
    rw [← hshares]
    refine (convex_convexHull ℝ _).sum_mem (fun k _ => ?_) ?_ fun k _ => subset_convexHull ℝ _ ?_
    · match k with
      | 0 => exact div_nonneg ha hA.le
      | 1 => exact div_nonneg hb hA.le
      | 2 => exact div_nonneg hc hA.le
    · rw [Fin.sum_univ_three]
      simp only [Matrix.cons_val]
      rw [← add_div, ← add_div, hsum, div_self hA.ne']
    · match k with
      | 0 => exact .inl rfl
      | 1 => exact .inr (.inl rfl)
      | 2 => exact .inr (.inr rfl)

/-- A point of a triangle on the line of a side is on the side. -/
theorem mem_segment_of_realCross (h : 0 < cross a b c) (hab : realCross a b q = 0) (hbc : 0 ≤ realCross b c q)
    (hca : 0 ≤ realCross c a q) : q ∈ segment ℝ a.real b.real := by
  have hA : 0 < realCross a b c.real := by rwa [realCross_real, Rat.cast_pos]
  have hsum := realCross_add a b c q
  rw [hab, add_zero] at hsum
  refine ⟨realCross b c q / realCross a b c.real, realCross c a q / realCross a b c.real, div_nonneg hbc hA.le,
    div_nonneg hca hA.le, by rw [← add_div, hsum, div_self hA.ne'], ?_⟩
  have hshares := realCross_shares q h
  rwa [hab, zero_div, zero_smul, add_zero] at hshares

/-- The only point of a triangle on the lines of two sides is the corner between them. -/
theorem eq_real_of_realCross (h : 0 < cross a b c) (hca : realCross c a q = 0) (hab : realCross a b q = 0) : q = a.real := by
  have hA : realCross a b c.real ≠ 0 := by rw [realCross_real, Rat.cast_ne_zero]; exact h.ne'
  have hsum := realCross_add a b c q
  have hshares := realCross_shares q h
  rw [hca, hab, add_zero, add_zero] at hsum
  rw [hca, hab, hsum, div_self hA, zero_div, zero_smul, zero_smul, one_smul, add_zero, add_zero] at hshares
  exact hshares.symm

/-- A point between the ends of a side is also to the left of the other two sides of the triangle across. -/
theorem realCross_pos_across (h : 0 < cross a b c) (hp : 0 < cross b a p) (hab : realCross a b q = 0) (hbc : 0 < realCross b c q)
    (hca : 0 < realCross c a q) : 0 < realCross a p q ∧ 0 < realCross p b q := by
  obtain ⟨x, y, hx, hy, hxy, rfl⟩ := mem_segment_of_realCross h hab hbc.le hca.le
  rw [realCross_combine _ _ _ _ hxy] at hbc hca ⊢
  rw [realCross_combine _ _ _ _ hxy]
  simp only [realCross_real, cross_self_left, cross_self_right, Rat.cast_zero, mul_zero, zero_add, add_zero] at hbc hca ⊢
  have hx' : 0 < x := lt_of_le_of_ne hx (by rintro rfl; simp at hbc)
  have hy' : 0 < y := lt_of_le_of_ne hy (by rintro rfl; simp at hca)
  have hapb : cross a p b = cross b a p := cross_rotate b a p
  have hpba : cross p b a = cross b a p := (cross_rotate a p b).trans hapb
  rw [hapb, hpba]
  exact ⟨mul_pos hy' (Rat.cast_pos.2 hp), mul_pos hx' (Rat.cast_pos.2 hp)⟩

/-- What a line says of a point, from what it says of the corners of a triangle. -/
theorem realCross_mul (a b c : Point Rat) (x y : Point Rat) (q : ℝ × ℝ) :
    realCross b c q * (cross x y a : Rat) + realCross c a q * (cross x y b : Rat) + realCross a b q * (cross x y c : Rat) =
      realCross a b c.real * realCross x y q := by
  simp only [realCross, Point.real, cross_eq]
  push_cast
  ring

/-- Where a segment touches a line that it does not cross, between its ends, it is on the line. -/
theorem cross_eq_zero_of_segment (hq : q ∈ segment ℝ u.real w.real) (hqu : q ≠ u.real) (hqw : q ≠ w.real)
    (h0 : realCross a b q = 0) (hu : 0 ≤ cross a b u) (hw : 0 ≤ cross a b w) : cross a b u = 0 ∧ cross a b w = 0 := by
  obtain ⟨x, y, hx, hy, hxy, rfl⟩ := mem_openSegment_of_ne_left_right hqu.symm hqw.symm hq
  rw [realCross_combine a b _ _ hxy, realCross_real, realCross_real] at h0
  have hu' : (0 : ℝ) ≤ (cross a b u : Rat) := Rat.cast_nonneg.2 hu
  have hw' : (0 : ℝ) ≤ (cross a b w : Rat) := Rat.cast_nonneg.2 hw
  obtain ⟨h1, h2⟩ := (add_eq_zero_iff_of_nonneg (mul_nonneg hx.le hu') (mul_nonneg hy.le hw')).1 h0
  exact ⟨Rat.cast_eq_zero.1 ((mul_eq_zero.1 h1).resolve_left hx.ne'), Rat.cast_eq_zero.1 ((mul_eq_zero.1 h2).resolve_left hy.ne')⟩

theorem real_injective : Function.Injective Point.real := by
  rintro ⟨px, py⟩ ⟨qx, qy⟩ h
  simpa [Point.real] using h

/-- A point of a segment is one of its ends, or between them. -/
theorem outward_of_mem_segment (h : p.real ∈ segment ℝ a.real b.real) (ha : p ≠ a) (hb : p ≠ b) : Outward b a p := by
  obtain ⟨x, y, hx, hy, hxy, hp⟩ := mem_openSegment_of_ne_left_right (real_injective.ne ha.symm) (real_injective.ne hb.symm) h
  have hab : a ≠ b := by
    rintro rfl
    rw [← add_smul, hxy, one_smul] at hp
    exact ha (real_injective hp.symm)
  have hpx : (p.x : ℝ) = x * a.x + y * b.x := (congrArg Prod.fst hp).symm
  have hpy : (p.y : ℝ) = x * a.y + y * b.y := (congrArg Prod.snd hp).symm
  have hxe : x = 1 - y := by linarith
  refine .inr ⟨?_, ?_⟩
  · have hcross : ((cross b a p : Rat) : ℝ) = 0 := by
      rw [← realCross_real, ← hp, realCross_combine b a a.real b.real hxy, realCross_real, realCross_real, cross_self_left,
        cross_self_right]
      simp
    exact Rat.cast_eq_zero.1 hcross
  · have hdot : ((dot b a p : Rat) : ℝ) = -(x * y * (dot b b a : Rat)) := by
      simp only [dot]
      push_cast
      rw [hpx, hpy, hxe]
      ring
    have hl : (0 : ℝ) < (dot b b a : Rat) := Rat.cast_pos.2 (dot_self_pos hab.symm)
    rw [← Rat.cast_lt_zero (K := ℝ), hdot]
    exact neg_neg_of_pos (mul_pos (mul_pos hx hy) hl)

/-- A pair of points on a line has the same points to its left as the line, if it has one. -/
theorem cross_nonneg_of_line (hab : a ≠ b) (hu : cross a b u = 0) (hw : cross a b w = 0) (hc : 0 ≤ cross a b c)
    (huw : 0 < cross u w c) (hp : 0 ≤ cross a b p) : 0 ≤ cross u w p := by
  obtain ⟨x, rfl⟩ := exists_along hu hab
  obtain ⟨y, rfl⟩ := exists_along hw hab
  have hscale : ∀ z, cross (along a b x) (along a b y) z = (y - x) * cross a b z := fun z => by
    simp only [cross_eq, along]; ring
  rw [hscale] at huw ⊢
  exact mul_nonneg (pos_of_mul_pos_left huw hc).le hp

end DelaunaySurface
