import DelaunaySurface.Proofs.Plane.Exact
/-!
# Turns in other orders

A turn is judged with a tolerance that is relative to the products made from the first of the three points. So the order
of the other two gives the direction alone, but the first point matters: seen from one of them a triple may be in line,
and seen from another not. Turns that are judged never contradict each other, and they agree unless the determinant lies
between the bounds that the three points of view set (`turn_reordered`).
-/

namespace DelaunaySurface

/-- The turn of the way back. -/
def Turn.opposite : Turn → Turn
  | .left => .right
  | .right => .left
  | .straight => .straight

/-- The verdict on three points does not depend on the order in which they are given, beyond its direction. -/
structure OrderFree (tol : Tolerance Rat) (a b c : Point Rat) : Prop where
  second : turn tol b c a = turn tol a b c
  third : turn tol c a b = turn tol a b c
  swapped : turn tol b a c = (turn tol a b c).opposite

/-- The size of the determinant of three points as the first one sees it. -/
def sizeFrom (a b c : Point Rat) : Rat := (turnDeterminant a b c).size

/-! ## A number against a bound -/

section Bounds

/-- The turn that a determinant stands for when it has to exceed a bound. -/
def turnBeyond (bound d : Rat) : Turn :=
  if |d| ≤ bound then .straight else if 0 < d then .left else .right

variable {bound bound' d : Rat}

theorem turnBeyond_eq_straight : turnBeyond bound d = .straight ↔ |d| ≤ bound := by
  unfold turnBeyond
  split_ifs <;> simp [*]

theorem turnBeyond_of_lt (h : bound < |d|) : turnBeyond bound d = if 0 < d then .left else .right := by
  rw [turnBeyond, if_neg (not_le.2 h)]

theorem turnBeyond_neg (h : 0 ≤ bound) (d : Rat) : turnBeyond bound (-d) = (turnBeyond bound d).opposite := by
  by_cases hsmall : |d| ≤ bound
  · rw [turnBeyond_eq_straight.2 hsmall, turnBeyond_eq_straight.2 (by rwa [abs_neg])]
    rfl
  · have hlarge := not_le.1 hsmall
    have hd : d ≠ 0 := abs_pos.1 (h.trans_lt hlarge)
    rw [turnBeyond_of_lt hlarge, turnBeyond_of_lt (by rwa [abs_neg])]
    rcases hd.lt_or_gt with hneg | hpos
    · rw [if_neg hneg.not_gt, if_pos (neg_pos.2 hneg)]
      rfl
    · rw [if_pos hpos, if_neg (by linarith)]
      rfl

/-- Two bounds give one turn, unless the number exceeds one of them only. -/
theorem turnBeyond_eq_iff : turnBeyond bound d = turnBeyond bound' d ↔ (|d| ≤ bound ↔ |d| ≤ bound') := by
  constructor
  · intro h
    rw [← turnBeyond_eq_straight, h, turnBeyond_eq_straight]
  · intro h
    simp only [turnBeyond, h]

end Bounds

variable {tol : Tolerance Rat} {a b c : Point Rat}

/-! ## One point of view -/

theorem sizeFrom_eq (a b c : Point Rat) :
    sizeFrom a b c = |(b.x - a.x) * (c.y - a.y)| + |(b.y - a.y) * (c.x - a.x)| := by
  rw [← Scalar.abs_rat, ← Scalar.abs_rat]
  rfl

theorem sizeFrom_nonneg (a b c : Point Rat) : 0 ≤ sizeFrom a b c := by
  rw [sizeFrom_eq]
  exact add_nonneg (abs_nonneg _) (abs_nonneg _)

theorem sizeFrom_swap_last (a b c : Point Rat) : sizeFrom a c b = sizeFrom a b c := by
  rw [sizeFrom_eq, sizeFrom_eq, add_comm, mul_comm (c.y - a.y), mul_comm (c.x - a.x)]

theorem abs_cross_le_sizeFrom (a b c : Point Rat) : |cross a b c| ≤ sizeFrom a b c := by
  rw [cross_eq, sizeFrom_eq]
  exact abs_sub _ _

theorem turn_eq (tol : Tolerance Rat) (a b c : Point Rat) :
    turn tol a b c = turnBeyond (tol.eps * sizeFrom a b c) (cross a b c) := by
  unfold turn turnBeyond
  simp only [Tolerance.vanishes_iff, turnDeterminant_value]
  rfl

/-- From one point the order of the other two gives the direction alone. -/
theorem turn_swap_last (h : 0 ≤ tol.eps) (a b c : Point Rat) : turn tol a c b = (turn tol a b c).opposite := by
  rw [turn_eq, turn_eq, cross_swap_last, sizeFrom_swap_last]
  exact turnBeyond_neg (mul_nonneg h (sizeFrom_nonneg a b c)) _

/-! ## Three points of view -/

theorem turn_second_eq_iff : turn tol b c a = turn tol a b c ↔
    (|cross a b c| ≤ tol.eps * sizeFrom b c a ↔ |cross a b c| ≤ tol.eps * sizeFrom a b c) := by
  rw [turn_eq, turn_eq, cross_rotate]
  exact turnBeyond_eq_iff

theorem turn_third_eq_iff : turn tol c a b = turn tol a b c ↔
    (|cross a b c| ≤ tol.eps * sizeFrom c a b ↔ |cross a b c| ≤ tol.eps * sizeFrom a b c) := by
  rw [turn_eq, turn_eq, ← cross_rotate c a b]
  exact turnBeyond_eq_iff

/-- Two of the points see turns, if any, in one direction. -/
theorem turn_agree (hfirst : turn tol a b c ≠ .straight) (hsecond : turn tol b c a ≠ .straight) :
    turn tol b c a = turn tol a b c := by
  rw [turn_second_eq_iff]
  rw [turn_eq, Ne, turnBeyond_eq_straight] at hfirst hsecond
  rw [cross_rotate] at hsecond
  exact iff_of_false hsecond hfirst

theorem orderFree_iff_straight (h : 0 ≤ tol.eps) : OrderFree tol a b c ↔
    (|cross a b c| ≤ tol.eps * sizeFrom b c a ↔ |cross a b c| ≤ tol.eps * sizeFrom a b c) ∧
      (|cross a b c| ≤ tol.eps * sizeFrom c a b ↔ |cross a b c| ≤ tol.eps * sizeFrom a b c) := by
  rw [← turn_second_eq_iff, ← turn_third_eq_iff]
  constructor
  · intro hfree
    exact ⟨hfree.second, hfree.third⟩
  · rintro ⟨hsecond, hthird⟩
    refine ⟨hsecond, hthird, ?_⟩
    rw [← hsecond]
    exact turn_swap_last h b c a

/-- The verdict does not depend on the order unless the determinant lies between the bounds of the three points. -/
theorem orderFree_iff (h : 0 ≤ tol.eps) : OrderFree tol a b c ↔
    |cross a b c| ≤ tol.eps * min (sizeFrom a b c) (min (sizeFrom b c a) (sizeFrom c a b)) ∨
      tol.eps * max (sizeFrom a b c) (max (sizeFrom b c a) (sizeFrom c a b)) < |cross a b c| := by
  rw [orderFree_iff_straight h, mul_min_of_nonneg _ _ h, mul_min_of_nonneg _ _ h, mul_max_of_nonneg _ _ h,
    mul_max_of_nonneg _ _ h, le_min_iff, le_min_iff, max_lt_iff, max_lt_iff, ← not_le, ← not_le, ← not_le]
  tauto

/-! ## All triples -/

theorem orderFree_of_exact (h : tol.eps = 0) (a b c : Point Rat) : OrderFree tol a b c := by
  rw [orderFree_iff_straight h.ge, h]
  simp only [zero_mul, and_self]

/-- With so large a tolerance all triples are in line. -/
theorem orderFree_of_one_le (h : 1 ≤ tol.eps) (a b c : Point Rat) : OrderFree tol a b c := by
  have hle : ∀ {p q r : Point Rat}, |cross p q r| ≤ tol.eps * sizeFrom p q r := fun {p q r} =>
    (abs_cross_le_sizeFrom p q r).trans (le_mul_of_one_le_left (sizeFrom_nonneg p q r) h)
  rw [orderFree_iff_straight (zero_le_one.trans h)]
  refine ⟨iff_of_true ?_ hle, iff_of_true ?_ hle⟩
  · rw [← cross_rotate a b c]
    exact hle
  · rw [cross_rotate c a b]
    exact hle

/-- A triple that turns as its first point sees it, and is in line for its second. -/
theorem not_orderFree {eps : Rat} (hpos : 0 < eps) (hlt : eps < 1) : ¬ OrderFree ⟨eps⟩ ⟨0, 0⟩ ⟨1, eps⁻¹⟩ ⟨0, 1⟩ := by
  have hinv : 1 < eps⁻¹ := (one_lt_inv₀ hpos).2 hlt
  have hcross : cross (⟨0, 0⟩ : Point Rat) ⟨1, eps⁻¹⟩ ⟨0, 1⟩ = 1 := by simp [cross_eq]
  have hfirst : sizeFrom ⟨0, 0⟩ ⟨1, eps⁻¹⟩ ⟨0, 1⟩ = 1 := by simp [sizeFrom_eq]
  have hsecond : sizeFrom ⟨1, eps⁻¹⟩ ⟨0, 1⟩ ⟨0, 0⟩ = eps⁻¹ + (eps⁻¹ - 1) := by
    simp only [sizeFrom_eq, zero_sub, neg_one_mul, mul_neg_one, neg_neg, neg_sub]
    rw [abs_of_pos (by linarith), abs_of_pos (by linarith)]
  intro hfree
  have hiff := ((orderFree_iff_straight hpos.le).1 hfree).1
  simp only [hcross, hfirst, hsecond, abs_one, mul_one, mul_add, mul_sub, mul_inv_cancel₀ hpos.ne'] at hiff
  exact absurd (hiff.1 (by linarith)) (not_le.2 hlt)

theorem forall_orderFree_iff (h : 0 ≤ tol.eps) : (∀ a b c, OrderFree tol a b c) ↔ tol.eps = 0 ∨ 1 ≤ tol.eps := by
  constructor
  · intro hall
    by_contra hnot
    obtain ⟨hne, hlt⟩ := not_or.1 hnot
    exact not_orderFree (h.lt_of_ne' hne) (not_le.1 hlt) (hall _ _ _)
  · rintro (hzero | hone)
    · exact orderFree_of_exact hzero
    · exact orderFree_of_one_le hone

/-- From one point, the order of the other two gives the direction alone. From different points, turns never contradict
each other, and all verdicts agree unless the determinant lies between the bounds that the three points set. They agree
for all triples exactly when the tolerance is zero, or so large that every triple is in line. -/
theorem turn_reordered (h : 0 ≤ tol.eps) :
    (∀ a b c, turn tol a c b = (turn tol a b c).opposite) ∧
    (∀ a b c, turn tol a b c ≠ .straight → turn tol b c a ≠ .straight → turn tol b c a = turn tol a b c) ∧
    (∀ a b c, OrderFree tol a b c ↔
      |cross a b c| ≤ tol.eps * min (sizeFrom a b c) (min (sizeFrom b c a) (sizeFrom c a b)) ∨
        tol.eps * max (sizeFrom a b c) (max (sizeFrom b c a) (sizeFrom c a b)) < |cross a b c|) ∧
    ((∀ a b c, OrderFree tol a b c) ↔ tol.eps = 0 ∨ 1 ≤ tol.eps) :=
  ⟨turn_swap_last h, fun _ _ _ => turn_agree, fun _ _ _ => orderFree_iff h, forall_orderFree_iff h⟩

theorem turn_reordered_standard : (0 : Rat) ≤ (.standard : Tolerance Rat).eps ∧
    turn .standard (⟨1, 1000000000⟩ : Point Rat) ⟨0, 0⟩ ⟨0, 1⟩ = (turn .standard (⟨1, 1000000000⟩ : Point Rat) ⟨0, 1⟩ ⟨0, 0⟩).opposite ∧
    ¬∀ a b c, OrderFree .standard a b c := by
  have heps : (.standard : Tolerance Rat).eps = 1e-9 := rfl
  have hnonneg : (0 : Rat) ≤ (.standard : Tolerance Rat).eps := by rw [heps]; norm_num
  obtain ⟨hswap, -, -, hall⟩ := turn_reordered hnonneg
  refine ⟨hnonneg, hswap _ _ _, ?_⟩
  rw [hall, heps]
  norm_num

/-- Seen from the origin the three points turn left, from the far one they are in line. -/
theorem straight_from_afar : turn .standard (⟨0, 0⟩ : Point Rat) ⟨1, 1000000000⟩ ⟨0, 1⟩ = .left ∧
    turn .standard (⟨1, 1000000000⟩ : Point Rat) ⟨0, 1⟩ ⟨0, 0⟩ = .straight := by
  decide +kernel

end DelaunaySurface
