import Mathlib
import DelaunaySurface.Mesh.Verdicts
/-!
# Exact predicates

Over the rationals the determinants are polynomials in the coordinates, and with no tolerance the
verdicts are their signs. Here are the identities between them that the construction rests on.
-/

namespace DelaunaySurface

variable {a b c d p s : Point Rat}

/-! ## Numbers -/

namespace Scalar

theorem abs_rat (a : Rat) : abs a = |a| := by
  change Rat.abs a = |a|
  unfold Rat.abs
  split
  · exact (abs_of_nonneg ‹_›).symm
  · exact (abs_of_neg (not_le.1 ‹_›)).symm

theorem lesser_rat (a b : Rat) : lesser a b = min a b := by
  change (if a < b then a else b) = _
  split
  · exact (min_eq_left (le_of_lt ‹_›)).symm
  · exact (min_eq_right (not_lt.1 ‹_›)).symm

theorem greater_rat (a b : Rat) : greater a b = max a b := by
  change (if b < a then a else b) = _
  split
  · exact (max_eq_left (le_of_lt ‹_›)).symm
  · exact (max_eq_right (not_lt.1 ‹_›)).symm

end Scalar

theorem Point.same_rat {p q : Point Rat} : p.same q = true ↔ p = q := by
  obtain ⟨px, py⟩ := p
  obtain ⟨qx, qy⟩ := q
  rw [Point.same, Bool.and_eq_true, Point.mk.injEq]
  exact and_congr decide_eq_true_iff decide_eq_true_iff

/-! ## Polynomials -/

theorem cross_eq (a b c : Point Rat) : cross a b c = (b.x - a.x) * (c.y - a.y) - (b.y - a.y) * (c.x - a.x) := rfl

/-- The in-circle determinant of rational points. -/
def inCircle (a b c d : Point Rat) : Rat := (circleDeterminant a b c d).value

theorem inCircle_eq (a b c d : Point Rat) : inCircle a b c d =
    ((a.x - d.x) * (a.x - d.x) + (a.y - d.y) * (a.y - d.y)) * ((b.x - d.x) * (c.y - d.y) - (c.x - d.x) * (b.y - d.y)) +
    ((b.x - d.x) * (b.x - d.x) + (b.y - d.y) * (b.y - d.y)) * ((c.x - d.x) * (a.y - d.y) - (a.x - d.x) * (c.y - d.y)) +
    ((c.x - d.x) * (c.x - d.x) + (c.y - d.y) * (c.y - d.y)) * ((a.x - d.x) * (b.y - d.y) - (b.x - d.x) * (a.y - d.y)) :=
  rfl

/-- The scalar product of the ways from `p` to `a` and to `b`. -/
def dot (a b p : Point Rat) : Rat := (a.x - p.x) * (b.x - p.x) + (a.y - p.y) * (b.y - p.y)

theorem cross_rotate (a b c : Point Rat) : cross b c a = cross a b c := by
  simp only [cross_eq]; ring

theorem cross_swap (a b c : Point Rat) : cross b a c = -cross a b c := by
  simp only [cross_eq]; ring

theorem cross_swap_last (a b c : Point Rat) : cross a c b = -cross a b c := by
  simp only [cross_eq]; ring

theorem inCircle_rotate (a b c d : Point Rat) : inCircle b c a d = inCircle a b c d := by
  simp only [inCircle_eq]; ring

theorem inCircle_swap (a b c d : Point Rat) : inCircle b a c d = -inCircle a b c d := by
  simp only [inCircle_eq]; ring

theorem inCircle_swap_last (a b c d : Point Rat) : inCircle a b d c = -inCircle a b c d := by
  simp only [inCircle_eq]; ring

theorem dot_comm (a b p : Point Rat) : dot b a p = dot a b p := by
  simp only [dot]; ring

/-- Four points seen from one side of their quadrilateral and from the other. -/
theorem inCircle_mul_cross (a b c d p : Point Rat) :
    inCircle b a d p * cross a b c = inCircle a b c p * cross b a d + inCircle a b c d * cross a b p := by
  simp only [inCircle_eq, cross_eq]; ring

/-- The circle of a new triangle on `a → b` between the circles of two others there. -/
theorem inCircle_fan (a b c p s : Point Rat) :
    inCircle a b p s * cross a b c = inCircle a b c s * cross a b p - inCircle a b c p * cross a b s := by
  simp only [inCircle_eq, cross_eq]; ring

theorem inCircle_eq_dot (a b c p : Point Rat) :
    inCircle a b c p = cross a b p * dot a b c - dot a b p * cross a b c := by
  simp only [inCircle_eq, cross_eq, dot]; ring

/-- A point by its weights in a triangle. -/
theorem inCircle_mul_area (a b c p : Point Rat) : inCircle a b c p * cross a b c =
    cross b c p * cross c a p * dot a a b + cross c a p * cross a b p * dot b b c + cross a b p * cross b c p * dot c c a := by
  simp only [inCircle_eq, cross_eq, dot]; ring

/-! ## Verdicts without tolerance -/

theorem Tolerance.vanishes_iff (tol : Tolerance Rat) (d : Determinant Rat) : tol.vanishes d = true ↔ |d.value| ≤ tol.eps * d.size := by
  rw [Tolerance.vanishes, decide_eq_true_eq, Scalar.abs_rat]

theorem vanishes_zero (d : Determinant Rat) : (⟨0⟩ : Tolerance Rat).vanishes d = true ↔ d.value = 0 := by
  rw [Tolerance.vanishes_iff, zero_mul, abs_nonpos_iff]

theorem insideCircle_zero (a b c d : Point Rat) : insideCircle ⟨0⟩ a b c d = true ↔ 0 < inCircle a b c d := by
  rw [insideCircle, Bool.and_eq_true, decide_eq_true_eq, Bool.not_eq_true', ← Bool.not_eq_true, vanishes_zero]
  change 0 < inCircle a b c d ∧ ¬inCircle a b c d = 0 ↔ _
  exact ⟨fun h => h.1, fun h => ⟨h, h.ne'⟩⟩

/-- To the left of `a → b`, or on the line strictly between the two. -/
def Outward (a b p : Point Rat) : Prop := 0 < cross a b p ∨ cross a b p = 0 ∧ dot a b p < 0

theorem strictlyBetween_iff (h : cross a b p = 0) : strictlyBetween p a b = true ↔ dot a b p < 0 := by
  rw [strictlyBetween, Bool.and_eq_true, decide_eq_true_eq, decide_eq_true_eq]
  change 0 < (p.x - a.x) * (b.x - a.x) + (p.y - a.y) * (b.y - a.y) ∧
    (p.x - a.x) * (b.x - a.x) + (p.y - a.y) * (b.y - a.y) < (b.x - a.x) * (b.x - a.x) + (b.y - a.y) * (b.y - a.y) ↔ _
  -- The place `t` of `p` along the segment, whose ends have the places 0 and `l`.
  obtain ⟨t, ht⟩ : ∃ t, t = (p.x - a.x) * (b.x - a.x) + (p.y - a.y) * (b.y - a.y) := ⟨_, rfl⟩
  obtain ⟨l, hl⟩ : ∃ l, l = (b.x - a.x) * (b.x - a.x) + (b.y - a.y) * (b.y - a.y) := ⟨_, rfl⟩
  have key : l * dot a b p = t * (t - l) := by
    have hc : cross a b p ^ 2 = 0 := by rw [h]; ring
    rw [cross_eq] at hc
    rw [dot, ht, hl]
    linear_combination hc
  rw [← ht, ← hl]
  have hl0 : 0 ≤ l := hl ▸ add_nonneg (mul_self_nonneg _) (mul_self_nonneg _)
  rcases hl0.eq_or_lt with hl0 | hl0
  · -- The ends coincide, and nothing lies between them.
    have hx : b.x - a.x = 0 := by nlinarith [mul_self_nonneg (b.x - a.x), mul_self_nonneg (b.y - a.y)]
    have hy : b.y - a.y = 0 := by nlinarith [mul_self_nonneg (b.x - a.x), mul_self_nonneg (b.y - a.y)]
    have hd : 0 ≤ dot a b p := by
      rw [dot, show b.x = a.x by linarith, show b.y = a.y by linarith]
      exact add_nonneg (mul_self_nonneg _) (mul_self_nonneg _)
    rw [← hl0]
    constructor
    · rintro ⟨h1, h2⟩; linarith
    · intro h1; linarith
  · constructor
    · rintro ⟨h1, h2⟩
      by_contra hd
      nlinarith [mul_nonneg hl0.le (not_lt.1 hd), mul_pos h1 (sub_pos.2 h2)]
    · intro hd
      have hneg : t * (t - l) < 0 := by rw [← key]; exact mul_neg_of_pos_of_neg hl0 hd
      constructor
      · by_contra h1
        nlinarith [mul_nonneg_of_nonpos_of_nonpos (not_lt.1 h1) (by linarith : t - l ≤ 0)]
      · by_contra h1
        nlinarith [mul_nonneg (by linarith : 0 ≤ t) (by linarith : 0 ≤ t - l)]

theorem inHalfPlane_zero (a b p : Point Rat) : Verdicts.inHalfPlane ⟨0⟩ a b p = true ↔ Outward a b p := by
  unfold Verdicts.inHalfPlane Outward
  simp only [Bool.ite_eq_true_distrib, vanishes_zero, turnDeterminant_value]
  by_cases h : cross a b p = 0
  · simp [h, strictlyBetween_iff h]
  · simp only [h, if_false, false_and, or_false]
    exact decide_eq_true_iff

end DelaunaySurface
