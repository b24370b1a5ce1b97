import DelaunaySurface.Proofs.Plane.Real
import DelaunaySurface.Proofs.Plane.Similarity
/-!
# The distance from a segment

The nearest point of a closed segment is the foot of the perpendicular, moved to the nearer end where it falls outside. Whichever
of the three it is, going on from it along the segment does not lead nearer (`nearestShare_cases`), so no point of the segment in
the real plane is nearer (`isLeast_segmentDistanceSq`).
-/

namespace DelaunaySurface

open Similarity (nearestShare)

variable {p a b : Point Rat} {q : ℝ × ℝ}

/-- The square of the distance of two points of the real plane. -/
def realDistanceSq (q r : ℝ × ℝ) : ℝ := (q.1 - r.1) * (q.1 - r.1) + (q.2 - r.2) * (q.2 - r.2)

theorem realDistanceSq_eq_zero {q r : ℝ × ℝ} : realDistanceSq q r = 0 ↔ q = r := by
  rw [realDistanceSq, mul_self_add_mul_self_eq_zero, sub_eq_zero, sub_eq_zero, Prod.ext_iff]

/-! ## The nearest point -/

/-- The point of a segment that is nearest to `p`. -/
def nearestPoint (p a b : Point Rat) : Point Rat := along a b (nearestShare p a b)

theorem segmentDistanceSq_eq_dot (p a b : Point Rat) :
    segmentDistanceSq p a b = dot (nearestPoint p a b) (nearestPoint p a b) p := rfl

theorem segmentDistanceSq_real (p a b : Point Rat) :
    ((segmentDistanceSq p a b : Rat) : ℝ) = realDistanceSq p.real (nearestPoint p a b).real := by
  rw [segmentDistanceSq_eq_dot]
  simp only [dot, realDistanceSq, Point.real]
  push_cast
  ring

theorem clamp_rat (x : Rat) : Scalar.clamp x 0 1 = max 0 (min x 1) := by
  rw [Scalar.clamp]
  by_cases hneg : x < 0
  · have hone : ¬(1 : Rat) < 0 := by norm_num
    rw [if_pos hneg, if_neg hone, min_eq_left (by linarith), max_eq_left hneg.le]
  · rw [if_neg hneg]
    have hx : 0 ≤ x := not_lt.1 hneg
    by_cases hone : 1 < x
    · rw [if_pos hone, min_eq_right hone.le, max_eq_right zero_le_one]
    · rw [if_neg hone, min_eq_left (not_lt.1 hone), max_eq_right hx]

theorem nearestShare_mem (p a b : Point Rat) : nearestShare p a b ∈ Set.Icc (0 : Rat) 1 := by
  rw [nearestShare]
  split
  · rw [clamp_rat]
    exact ⟨le_max_left _ _, max_le zero_le_one (min_le_right _ _)⟩
  · exact ⟨le_refl 0, zero_le_one⟩

/-- The nearest point is the first end and the perpendicular falls before it, or the other end and it falls behind that, or the
foot of the perpendicular. -/
theorem nearestShare_cases (p a b : Point Rat) : nearestShare p a b = 0 ∧ dot p b a ≤ 0 ∨
    nearestShare p a b = 1 ∧ dot b b a ≤ dot p b a ∨ nearestShare p a b * dot b b a = dot p b a := by
  have hshare : nearestShare p a b = if 0 < dot b b a then max 0 (min (dot p b a / dot b b a) 1) else 0 := by
    rw [← clamp_rat]
    rfl
  rw [hshare]
  split
  · rename_i hlength
    rcases le_total (dot p b a) 0 with hbefore | hbefore
    · have hnonpos : dot p b a / dot b b a ≤ 0 := div_nonpos_of_nonpos_of_nonneg hbefore hlength.le
      rw [min_eq_left (hnonpos.trans zero_le_one), max_eq_left hnonpos]
      exact .inl ⟨rfl, hbefore⟩
    · rcases le_total (dot b b a) (dot p b a) with hbehind | hbehind
      · rw [min_eq_right ((one_le_div hlength).2 hbehind), max_eq_right zero_le_one]
        exact .inr (.inl ⟨rfl, hbehind⟩)
      · rw [min_eq_left ((div_le_one hlength).2 hbehind), max_eq_right (div_nonneg hbefore hlength.le)]
        exact .inr (.inr (div_mul_cancel₀ _ hlength.ne'))
  · rename_i hlength
    -- The ends coincide.
    obtain rfl : b = a := by_contra fun hne => hlength (dot_self_pos hne)
    exact .inl ⟨rfl, by simp [dot]⟩

/-- From the nearest point no way along the segment leads toward `p`. -/
theorem nearestShare_optimal (p a b : Point Rat) {t : ℝ} (ht : t ∈ Set.Icc (0 : ℝ) 1) :
    0 ≤ (t - nearestShare p a b) * (nearestShare p a b * (dot b b a : Rat) - (dot p b a : Rat)) := by
  rcases nearestShare_cases p a b with ⟨hshare, hbefore⟩ | ⟨hshare, hbehind⟩ | hfoot
  · have hbefore' : ((dot p b a : Rat) : ℝ) ≤ 0 := by exact_mod_cast hbefore
    rw [hshare, Rat.cast_zero]
    exact mul_nonneg (by linarith [ht.1]) (by linarith)
  · have hbehind' : ((dot b b a : Rat) : ℝ) ≤ (dot p b a : Rat) := by exact_mod_cast hbehind
    rw [hshare, Rat.cast_one]
    exact mul_nonneg_of_nonpos_of_nonpos (by linarith [ht.2]) (by linarith)
  · have hfoot' : (nearestShare p a b : ℝ) * (dot b b a : Rat) = (dot p b a : Rat) := by exact_mod_cast hfoot
    rw [hfoot', sub_self, mul_zero]

/-! ## The least distance -/

theorem real_along (a b : Point Rat) (t : Rat) : (along a b t).real = AffineMap.lineMap a.real b.real (t : ℝ) := by
  rw [AffineMap.lineMap_apply]
  ext <;> simp only [along, Point.real, vsub_eq_sub, vadd_eq_add, Prod.fst_add, Prod.snd_add, Prod.smul_fst, Prod.smul_snd,
    Prod.fst_sub, Prod.snd_sub, smul_eq_mul] <;> push_cast <;> ring

/-- How much farther a point of the segment is than the nearest one. -/
theorem realDistanceSq_lineMap (p a b : Point Rat) (t : ℝ) :
    realDistanceSq p.real (AffineMap.lineMap a.real b.real t) = (segmentDistanceSq p a b : Rat) +
      (t - nearestShare p a b) * (t - nearestShare p a b) * (dot b b a : Rat) +
      2 * ((t - nearestShare p a b) * (nearestShare p a b * (dot b b a : Rat) - (dot p b a : Rat))) := by
  rw [segmentDistanceSq_eq_dot, nearestPoint, AffineMap.lineMap_apply]
  simp only [realDistanceSq, dot, along, Point.real, vsub_eq_sub, vadd_eq_add, Prod.fst_add, Prod.snd_add, Prod.smul_fst,
    Prod.smul_snd, Prod.fst_sub, Prod.snd_sub, smul_eq_mul]
  push_cast
  ring

theorem dot_self_nonneg (a b : Point Rat) : 0 ≤ dot a a b := add_nonneg (mul_self_nonneg _) (mul_self_nonneg _)

/-- Of the distances of a point from the points of a segment in the real plane, the one computed is the least. -/
theorem isLeast_segmentDistanceSq (p a b : Point Rat) :
    IsLeast ((fun t : ℝ => realDistanceSq p.real (AffineMap.lineMap a.real b.real t)) '' Set.Icc 0 1)
      (segmentDistanceSq p a b : Rat) := by
  constructor
  · obtain ⟨h0, h1⟩ := nearestShare_mem p a b
    refine ⟨nearestShare p a b, ⟨by exact_mod_cast h0, by exact_mod_cast h1⟩, ?_⟩
    change realDistanceSq p.real (AffineMap.lineMap a.real b.real (nearestShare p a b : ℝ)) = _
    rw [← real_along, segmentDistanceSq_real, nearestPoint]
  · rintro _ ⟨t, ht, rfl⟩
    have hlength : (0 : ℝ) ≤ (dot b b a : Rat) := Rat.cast_nonneg.2 (dot_self_nonneg b a)
    change ((segmentDistanceSq p a b : Rat) : ℝ) ≤ realDistanceSq p.real (AffineMap.lineMap a.real b.real t)
    rw [realDistanceSq_lineMap]
    linarith [mul_nonneg (mul_self_nonneg (t - nearestShare p a b)) hlength, nearestShare_optimal p a b ht]

theorem isLeast_segment (p a b : Point Rat) :
    IsLeast (Set.image (realDistanceSq p.real) (segment ℝ a.real b.real)) (segmentDistanceSq p a b : Rat) := by
  rw [segment_eq_image_lineMap, Set.image_image]
  exact isLeast_segmentDistanceSq p a b

theorem nearestPoint_mem (p a b : Point Rat) : (nearestPoint p a b).real ∈ segment ℝ a.real b.real := by
  obtain ⟨h0, h1⟩ := nearestShare_mem p a b
  rw [segment_eq_image_lineMap]
  exact ⟨nearestShare p a b, ⟨by exact_mod_cast h0, by exact_mod_cast h1⟩, (real_along a b _).symm⟩

theorem segmentDistanceSq_swap (p a b : Point Rat) : segmentDistanceSq p b a = segmentDistanceSq p a b := by
  have hleast := isLeast_segment p b a
  rw [segment_symm] at hleast
  exact_mod_cast hleast.unique (isLeast_segment p a b)

/-- The distance is zero for the points of the segment alone. -/
theorem segmentDistanceSq_eq_zero : segmentDistanceSq p a b = 0 ↔ p.real ∈ segment ℝ a.real b.real := by
  constructor
  · intro hzero
    have hreal : realDistanceSq p.real (nearestPoint p a b).real = 0 := by
      rw [← segmentDistanceSq_real, hzero, Rat.cast_zero]
    exact realDistanceSq_eq_zero.1 hreal ▸ nearestPoint_mem p a b
  · intro hp
    have hle : ((segmentDistanceSq p a b : Rat) : ℝ) ≤ 0 :=
      (isLeast_segment p a b).2 ⟨p.real, hp, realDistanceSq_eq_zero.2 rfl⟩
    refine le_antisymm (by exact_mod_cast hle) ?_
    rw [segmentDistanceSq_eq_dot]
    exact dot_self_nonneg _ p

end DelaunaySurface
