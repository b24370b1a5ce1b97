import DelaunaySurface.Proofs.Plane.Disk
/-!
# The circumcircle

The in-circle test and the circumcentre are two formulas, one without and one with a division, and they mean one circle: a point
passes the test exactly when it is nearer to the centre than the corners are. Value and size of the determinant depend on the
cyclic order of the corners only, so a verdict with any tolerance does not depend on the corner that a cell begins with
(`circumcircle_test`).
-/

namespace DelaunaySurface

variable {a b c d o : Point Rat}

/-- Seen from a counter-clockwise triangle, a point passes the test when it is nearer to the centre. -/
theorem Centre.insideCircle_iff (h : Centre o a b c) (hturn : 0 < cross a b c) (d : Point Rat) :
    insideCircle ⟨0⟩ a b c d = true ↔ dot d d o < dot a a o := by
  rw [insideCircle_zero, h.inCircle_eq, mul_pos_iff_of_pos_left hturn, sub_pos]

/-! ## Rotation -/

theorem circleDeterminant_rotate (a b c d : Point Rat) : circleDeterminant b c a d = circleDeterminant a b c d := by
  have hsize : (circleDeterminant b c a d).size = (circleDeterminant a b c d).size := by
    simp only [circleDeterminant]
    ring
  calc circleDeterminant b c a d
      = ⟨inCircle b c a d, (circleDeterminant b c a d).size⟩ := rfl
    _ = ⟨inCircle a b c d, (circleDeterminant a b c d).size⟩ := by rw [inCircle_rotate, hsize]

theorem insideCircle_rotate (tol : Tolerance Rat) (a b c d : Point Rat) :
    insideCircle tol b c a d = insideCircle tol a b c d := by
  rw [insideCircle, circleDeterminant_rotate, insideCircle]

/-- The region of a cell, unbounded or not, is that of its corners from any of them on. -/
theorem inRegion_rotate (tol : Tolerance Rat) (place : Nat → Point Rat) (p : Point Rat) (u v w : Corner) :
    Verdicts.inRegion tol place p ⟨v, w, u⟩ = Verdicts.inRegion tol place p ⟨u, v, w⟩ := by
  cases u with
  | site a => cases v with
    | site b => cases w with
      | site c => exact insideCircle_rotate tol (place a) (place b) (place c) p
      | infinity => rfl
    | infinity => cases w <;> rfl
  | infinity => cases v <;> cases w <;> rfl

/-! ## The test -/

/-- A counter-clockwise triangle has a circumcentre, equally far from its corners, and a point passes the in-circle test without
tolerance exactly when it is nearer to it. The determinant is the same from each corner on, and so is what a cell answers about
the point with any tolerance. -/
theorem circumcircle_test (a b c d : Point Rat) :
    (0 < cross a b c → ∃ o, circumcentre? a b c = some o ∧ dot a a o = dot b b o ∧ dot b b o = dot c c o ∧
      (insideCircle ⟨0⟩ a b c d = true ↔ dot d d o < dot a a o)) ∧
    circleDeterminant b c a d = circleDeterminant a b c d ∧ circleDeterminant c a b d = circleDeterminant a b c d ∧
    ∀ tol place u v w, (Verdicts.ofPoint tol place d).conflicts ⟨v, w, u⟩ = (Verdicts.ofPoint tol place d).conflicts ⟨u, v, w⟩ := by
  refine ⟨fun hturn => ?_, circleDeterminant_rotate a b c d, ?_, fun tol place => inRegion_rotate tol place d⟩
  · obtain ⟨o, hsome, hcentre⟩ := exists_circumcentre hturn.ne'
    exact ⟨o, hsome, hcentre.1, hcentre.2, hcentre.insideCircle_iff hturn d⟩
  · rw [circleDeterminant_rotate b c a d, circleDeterminant_rotate a b c d]

/-- Opposite the right angle of a triangle the centre is the middle of the side, and the fourth corner of the rectangle is on the
circle, not inside. -/
theorem circumcircle_test_rectangle : 0 < cross (⟨0, 0⟩ : Point Rat) ⟨4, 0⟩ ⟨0, 2⟩ ∧
    circumcentre? (⟨0, 0⟩ : Point Rat) ⟨4, 0⟩ ⟨0, 2⟩ = some ⟨2, 1⟩ ∧
    insideCircle ⟨0⟩ (⟨0, 0⟩ : Point Rat) ⟨4, 0⟩ ⟨0, 2⟩ ⟨4, 2⟩ = false := by
  have hturn : 0 < cross (⟨0, 0⟩ : Point Rat) ⟨4, 0⟩ ⟨0, 2⟩ := by decide +kernel
  have hsome : circumcentre? (⟨0, 0⟩ : Point Rat) ⟨4, 0⟩ ⟨0, 2⟩ = some ⟨2, 1⟩ := by decide +kernel
  obtain ⟨o, ho, -, -, hinside⟩ := (circumcircle_test ⟨0, 0⟩ ⟨4, 0⟩ ⟨0, 2⟩ ⟨4, 2⟩).1 hturn
  cases hsome.symm.trans ho
  refine ⟨hturn, hsome, Bool.eq_false_iff.2 fun htrue => ?_⟩
  exact absurd (hinside.1 htrue) (by decide +kernel)

end DelaunaySurface
