import DelaunaySurface.Proofs.Plane.Winding
/-!
# Disks

The circle through three points, told by its centre. The sign of the in-circle determinant says on which side
of it a point lies (`inDisk_iff`), and two triangles that overlap and keep out of each other's disk have their
corners on one circle (`inCircle_eq_zero_of_overlap`).
-/

namespace DelaunaySurface

variable {a b c d e f o p q : Point Rat}

/-- The point `o` is equally far from three others. -/
def Centre (o a b c : Point Rat) : Prop := dot a a o = dot b b o ∧ dot b b o = dot c c o

/-- The point lies in the open disk within the circle through three others. -/
def InDisk (a b c p : Point Rat) : Prop := ∃ o, Centre o a b c ∧ dot p p o < dot a a o

/-- The four points lie on one circle. -/
def Cocircular (a b c d : Point Rat) : Prop := ∃ o, Centre o a b c ∧ dot d d o = dot a a o

/-- The in-circle determinant by the distances from any point `o`, weighted as `p` is by the corners. -/
theorem inCircle_eq_weights (a b c p o : Point Rat) : inCircle a b c p =
    cross b c p * dot a a o + cross c a p * dot b b o + cross a b p * dot c c o - cross a b c * dot p p o := by
  simp only [inCircle_eq, cross_eq, dot]; ring

/-- Seen from the centre, the determinant is the power of the point, up to sign and scale. -/
theorem Centre.inCircle_eq (h : Centre o a b c) (p : Point Rat) :
    inCircle a b c p = cross a b c * (dot a a o - dot p p o) := by
  rw [inCircle_eq_weights a b c p o, ← h.2, ← h.1, ← cross_add a b c p]
  ring

/-- The circumcentre of three points that are not in line, by its way from the first one. -/
theorem circumcentre?_eq_some (h : cross a b c ≠ 0) : circumcentre? a b c = some
    ⟨a.x + ((c.y - a.y) * dot b b a - (b.y - a.y) * dot c c a) / (2 * cross a b c),
      a.y + ((b.x - a.x) * dot c c a - (c.x - a.x) * dot b b a) / (2 * cross a b c)⟩ := by
  have htwo : (2.0 : Rat) = 2 := by norm_num
  have hd : ¬(2.0 * cross a b c == 0 || !Scalar.isFinite (2.0 * cross a b c)) = true := by
    rw [htwo, Bool.or_eq_true, not_or]
    exact ⟨by simpa using h, nofun⟩
  rw [← htwo]
  exact if_neg hd

/-- Three points that are not in line have a centre, and it is found. -/
theorem exists_circumcentre (h : cross a b c ≠ 0) : ∃ o, circumcentre? a b c = some o ∧ Centre o a b c := by
  obtain ⟨u, hu⟩ : ∃ u, u = ((c.y - a.y) * dot b b a - (b.y - a.y) * dot c c a) / (2 * cross a b c) := ⟨_, rfl⟩
  obtain ⟨w, hw⟩ : ∃ w, w = ((b.x - a.x) * dot c c a - (c.x - a.x) * dot b b a) / (2 * cross a b c) := ⟨_, rfl⟩
  refine ⟨⟨a.x + u, a.y + w⟩, hu ▸ hw ▸ circumcentre?_eq_some h, ?_⟩
  rw [eq_div_iff (mul_ne_zero two_ne_zero h)] at hu hw
  -- The point with this way from `a` is on both perpendicular bisectors.
  have hb : 2 * ((b.x - a.x) * u + (b.y - a.y) * w) = dot b b a := by
    refine mul_left_cancel₀ h ?_
    rw [cross_eq] at hu hw ⊢
    linear_combination (b.x - a.x) * hu + (b.y - a.y) * hw
  have hc : 2 * ((c.x - a.x) * u + (c.y - a.y) * w) = dot c c a := by
    refine mul_left_cancel₀ h ?_
    rw [cross_eq] at hu hw ⊢
    linear_combination (c.x - a.x) * hu + (c.y - a.y) * hw
  simp only [dot] at hb hc
  constructor <;> simp only [dot]
  · linear_combination hb
  · linear_combination hc - hb

theorem exists_centre (h : cross a b c ≠ 0) : ∃ o, Centre o a b c := by
  obtain ⟨o, -, ho⟩ := exists_circumcentre h
  exact ⟨o, ho⟩

theorem inDisk_iff (h : cross a b c ≠ 0) : InDisk a b c p ↔ 0 < cross a b c * inCircle a b c p := by
  have hsq : 0 < cross a b c * cross a b c := mul_self_pos.2 h
  constructor
  · rintro ⟨o, ho, hp⟩
    rw [ho.inCircle_eq, ← mul_assoc]
    exact mul_pos hsq (sub_pos.2 hp)
  · intro hpos
    obtain ⟨o, ho⟩ := exists_centre h
    rw [ho.inCircle_eq, ← mul_assoc, mul_pos_iff_of_pos_left hsq, sub_pos] at hpos
    exact ⟨o, ho, hpos⟩

theorem Cocircular.inCircle_eq_zero (h : Cocircular a b c d) : inCircle a b c d = 0 := by
  obtain ⟨o, ho, hd⟩ := h
  rw [ho.inCircle_eq, hd, sub_self, mul_zero]

theorem cocircular_of_inCircle (h : cross a b c ≠ 0) (h0 : inCircle a b c d = 0) : Cocircular a b c d := by
  obtain ⟨o, ho⟩ := exists_centre h
  rw [ho.inCircle_eq] at h0
  exact ⟨o, ho, (sub_eq_zero.1 ((mul_eq_zero.1 h0).resolve_left h)).symm⟩

/-! ## Two triangles that overlap -/

/-- The determinants of two triangles differ at a point as its weights in the first one tell. -/
theorem inCircle_exchange (a b c d e f q : Point Rat) :
    inCircle d e f q * cross a b c - inCircle a b c q * cross d e f =
      cross b c q * inCircle d e f a + cross c a q * inCircle d e f b + cross a b q * inCircle d e f c := by
  simp only [inCircle_eq, cross_eq]; ring

/-- Two triangles that have a point in common, inside the first one, and whose disks hold no corner of the other:
then the corners of the first one are on the circle of the second one. -/
theorem inCircle_eq_zero_of_overlap (hab : 0 < cross a b q)
    (hbc : 0 < cross b c q) (hca : 0 < cross c a q) (hin : InTriangle d e f q)
    (ha : inCircle d e f a ≤ 0) (hb : inCircle d e f b ≤ 0) (hc : inCircle d e f c ≤ 0)
    (hd : inCircle a b c d ≤ 0) (he : inCircle a b c e ≤ 0) (hf : inCircle a b c f ≤ 0) :
    inCircle d e f a = 0 ∧ inCircle d e f b = 0 ∧ inCircle d e f c = 0 := by
  obtain ⟨hde, hef, hfd⟩ := hin
  have hone := inCircle_exchange a b c d e f q
  have htwo := inCircle_exchange d e f a b c q
  have ha' := mul_nonpos_of_nonneg_of_nonpos hbc.le ha
  have hb' := mul_nonpos_of_nonneg_of_nonpos hca.le hb
  have hc' := mul_nonpos_of_nonneg_of_nonpos hab.le hc
  have hd' := mul_nonpos_of_nonneg_of_nonpos hef hd
  have he' := mul_nonpos_of_nonneg_of_nonpos hfd he
  have hf' := mul_nonpos_of_nonneg_of_nonpos hde hf
  -- The two differences are each other's negative, and neither is positive.
  refine ⟨?_, ?_, ?_⟩
  · exact (mul_eq_zero.1 (le_antisymm ha' (by linarith))).resolve_left hbc.ne'
  · exact (mul_eq_zero.1 (le_antisymm hb' (by linarith))).resolve_left hca.ne'
  · exact (mul_eq_zero.1 (le_antisymm hc' (by linarith))).resolve_left hab.ne'

end DelaunaySurface
