import DelaunaySurface.Proofs.Plane.Disk
import DelaunaySurface.Proofs.Plane.Hinge
/-!
# Powers

The power of a point with respect to the circle through the corners of a triangle. Across a side it changes in proportion
to the way from the side (`power_exchange`), so toward a point on the other side it does not grow.
-/

namespace DelaunaySurface

variable {a b c d p z : Point Rat}

/-- The power of a point with respect to the circle through three others: negative inside the circle. -/
def power (a b c p : Point Rat) : Rat := -inCircle a b c p / cross a b c

theorem power_rotate (a b c p : Point Rat) : power b c a p = power a b c p := by
  rw [power, power, inCircle_rotate, cross_rotate]

theorem power_self_left (a b c : Point Rat) : power a b c a = 0 := by
  rw [power, div_eq_zero_iff]
  left
  simp only [inCircle_eq]
  ring

theorem power_eq_zero_iff (h : 0 < cross a b c) : power a b c p = 0 ↔ inCircle a b c p = 0 := by
  rw [power, div_eq_zero_iff, neg_eq_zero, or_iff_left h.ne']

theorem power_nonneg_iff (h : 0 < cross a b c) : 0 ≤ power a b c p ↔ ¬InDisk a b c p := by
  rw [power, le_div_iff₀ h, zero_mul, neg_nonneg, inDisk_iff h.ne', mul_pos_iff_of_pos_left h, not_lt]

/-- Two triangles on a common side: the powers of a point differ by its way from the side, and by how far the corner of
the second triangle is from the circle of the first. -/
theorem power_exchange (hc : cross a b c ≠ 0) (hd : cross b a d ≠ 0) (p : Point Rat) :
    (power a b c p - power b a d p) * cross b a d = power a b c d * cross b a p := by
  have hfour := inCircle_mul_cross a b c d p
  rw [power, power, power, cross_swap a b p]
  field_simp
  linear_combination hfour

/-- A point of the circle beyond one side of a triangle is on the inner side of the other two. -/
theorem cross_pos_of_beyond (h : 0 < cross a b c) (hz : power a b c z = 0) (hneg : cross a b z < 0) :
    0 < cross b c z ∧ 0 < cross c a z := by
  rw [power_eq_zero_iff h] at hz
  obtain ⟨hab, hbc, hac⟩ := ne_of_cross h.ne'
  -- The weights of the corners, seen from an end of the side.
  have hb := inCircle_eq_weights a b c z b
  have ha := inCircle_eq_weights a b c z a
  rw [hz, show dot b b b = 0 by simp [dot]] at hb
  rw [hz, show dot a a a = 0 by simp [dot]] at ha
  have hzb : 0 ≤ dot z z b := add_nonneg (mul_self_nonneg _) (mul_self_nonneg _)
  have hza : 0 ≤ dot z z a := add_nonneg (mul_self_nonneg _) (mul_self_nonneg _)
  have hcb := mul_neg_of_neg_of_pos hneg (dot_self_pos hbc.symm)
  have hca := mul_neg_of_neg_of_pos hneg (dot_self_pos hac.symm)
  have hzb' := mul_nonneg h.le hzb
  have hza' := mul_nonneg h.le hza
  constructor
  · exact pos_of_mul_pos_left (by linarith : 0 < cross b c z * dot a a b) (dot_self_pos hab).le
  · exact pos_of_mul_pos_left (by linarith : 0 < cross c a z * dot b b a) (dot_self_pos hab.symm).le

end DelaunaySurface
