import DelaunaySurface.Plane.Rectangle
import DelaunaySurface.Proofs.Plane.Exact
/-!
# Rectangles around points

Over the rationals the rectangle around points holds every one of them, growing it keeps them, and opening it
leaves both of its directions with a width (`holds_openFlat`, `open_openFlat`).
-/

namespace DelaunaySurface

/-! ## Opening a range -/

section OpenRange

variable {eps lo hi : Rat}

theorem nearlyEqual_iff : nearlyEqual eps lo hi = true ↔ |lo - hi| ≤ eps / 2 * (|lo| + |hi|) := by
  have half : (0.5 : Rat) = 1 / 2 := by norm_num
  rw [nearlyEqual, decide_eq_true_eq, Scalar.abs_rat, Scalar.abs_rat, Scalar.abs_rat, half, mul_one_div]

theorem lt_of_not_nearlyEqual (heps : 0 ≤ eps) (h : lo ≤ hi) (hne : ¬nearlyEqual eps lo hi = true) : lo < hi := by
  refine lt_of_le_of_ne h fun heq => hne ?_
  rw [nearlyEqual_iff, heq, sub_self, abs_zero]
  positivity

/-- A range that sits at zero lies inside the fixed one that takes its place. -/
theorem abs_le_of_nearlyEqual (heps : eps ≤ 1 / 2000) (h : nearlyEqual eps lo hi = true) (hlo : |lo| < eps) :
    |hi| ≤ 1 / 1000 := by
  have hdist : |hi| - |lo| ≤ |lo - hi| := by rw [abs_sub_comm]; exact abs_sub_abs_le_abs_sub hi lo
  have hshare : eps / 2 * (|lo| + |hi|) ≤ 1 / 4000 * (|lo| + |hi|) :=
    mul_le_mul_of_nonneg_right (by linarith only [heps]) (by positivity)
  linarith only [hdist, nearlyEqual_iff.1 h, hshare, hlo, heps]

/-- The three ways a range is opened. -/
theorem openRange_cases (eps lo hi : Rat) :
    (¬nearlyEqual eps lo hi = true ∧ openRange eps lo hi = (lo, hi)) ∨
    (nearlyEqual eps lo hi = true ∧ |lo| < eps ∧ openRange eps lo hi = (-(1 / 1000), 1 / 1000)) ∨
    (nearlyEqual eps lo hi = true ∧ eps ≤ |lo| ∧
      openRange eps lo hi = (lo - |lo| * (eps / 2), hi + |hi| * (eps / 2))) := by
  have two : (2.0 : Rat) = 2 := by norm_num
  have thousandth : (0.001 : Rat) = 1 / 1000 := by norm_num
  rw [openRange, Scalar.abs_rat, Scalar.abs_rat, two, thousandth]
  by_cases hnear : nearlyEqual eps lo hi = true
  · by_cases hzero : |lo| < eps
    · exact .inr (.inl ⟨hnear, hzero, by rw [if_pos hnear, if_pos hzero]⟩)
    · exact .inr (.inr ⟨hnear, not_lt.1 hzero, by rw [if_pos hnear, if_neg hzero]⟩)
  · exact .inl ⟨hnear, if_neg hnear⟩

/-- An opened range has a width and covers the one it came from, whichever way it was opened. -/
theorem openRange_covers (hpos : 0 < eps) (heps : eps ≤ 1 / 2000) (h : lo ≤ hi) :
    (openRange eps lo hi).1 < (openRange eps lo hi).2 ∧
      (openRange eps lo hi).1 ≤ lo ∧ hi ≤ (openRange eps lo hi).2 := by
  obtain ⟨hfar, heq⟩ | ⟨hnear, hzero, heq⟩ | ⟨-, haway, heq⟩ := openRange_cases eps lo hi <;> rw [heq]
  · exact ⟨lt_of_not_nearlyEqual hpos.le h hfar, le_rfl, le_rfl⟩
  · have hlo : |lo| ≤ 1 / 1000 := by linarith only [hzero, heps]
    exact ⟨by norm_num, (abs_le.1 hlo).1, (abs_le.1 (abs_le_of_nearlyEqual heps hnear hzero)).2⟩
  · have hbelow : 0 < |lo| * (eps / 2) := mul_pos (lt_of_lt_of_le hpos haway) (half_pos hpos)
    have habove : 0 ≤ |hi| * (eps / 2) := by positivity
    exact ⟨by linarith only [h, hbelow, habove], by linarith only [hbelow], by linarith only [habove]⟩

end OpenRange

namespace Rectangle

variable {r : Rectangle Rat} {p q : Point Rat}

/-! ## What a rectangle holds -/

/-- The point lies inside the rectangle or on its border. -/
def Holds (r : Rectangle Rat) (p : Point Rat) : Prop :=
  p.x ∈ Set.Icc r.xMin r.xMax ∧ p.y ∈ Set.Icc r.yMin r.yMax

/-- The rectangle has a width and a height. -/
def Open (r : Rectangle Rat) : Prop := r.xMin < r.xMax ∧ r.yMin < r.yMax

theorem holds_including : (r.including p).Holds p := by
  simp only [Holds, including, Scalar.lesser_rat, Scalar.greater_rat]
  exact ⟨⟨min_le_right _ _, le_max_right _ _⟩, min_le_right _ _, le_max_right _ _⟩

theorem Holds.including (h : r.Holds p) (q : Point Rat) : (r.including q).Holds p := by
  simp only [Holds, Rectangle.including, Scalar.lesser_rat, Scalar.greater_rat]
  exact ⟨⟨min_le_of_left_le h.1.1, le_max_of_le_left h.1.2⟩, min_le_of_left_le h.2.1, le_max_of_le_left h.2.2⟩

/-- What a rectangle holds stays in it while it takes in more points. -/
theorem Holds.foldl_including (h : r.Holds p) (points : List (Point Rat)) : (points.foldl Rectangle.including r).Holds p := by
  induction points generalizing r with
  | nil => exact h
  | cons q points ih => exact ih (h.including q)

theorem holds_foldl_including {points : List (Point Rat)} (hp : p ∈ points) : (points.foldl including r).Holds p := by
  induction points generalizing r with
  | nil => cases hp
  | cons q points ih =>
    rcases List.mem_cons.1 hp with rfl | hp
    · exact holds_including.foldl_including points
    · exact ih hp

theorem holds_around? {points : List (Point Rat)} (hr : around? points = some r) (hp : p ∈ points) : r.Holds p := by
  cases points with
  | nil => cases hp
  | cons q points =>
    obtain rfl := Option.some.inj hr
    rcases List.mem_cons.1 hp with rfl | hp
    · exact Holds.foldl_including ⟨⟨le_rfl, le_rfl⟩, le_rfl, le_rfl⟩ points
    · exact holds_foldl_including hp

/-! ## Growing and opening -/

/-- A rectangle that holds a point has its ends in order. -/
theorem Holds.ordered (h : r.Holds p) : r.xMin ≤ r.xMax ∧ r.yMin ≤ r.yMax :=
  ⟨h.1.1.trans h.1.2, h.2.1.trans h.2.2⟩

theorem Holds.grow (h : r.Holds p) {share : Rat} (hshare : 0 ≤ share) : (r.grow share).Holds p := by
  have hdx : 0 ≤ share * r.width := mul_nonneg hshare (sub_nonneg.2 h.ordered.1)
  have hdy : 0 ≤ share * r.height := mul_nonneg hshare (sub_nonneg.2 h.ordered.2)
  obtain ⟨⟨hl, hr⟩, hb, ht⟩ := h
  exact ⟨⟨(sub_le_self _ hdx).trans hl, hr.trans (le_add_of_nonneg_right hdx)⟩,
    (sub_le_self _ hdy).trans hb, ht.trans (le_add_of_nonneg_right hdy)⟩

variable {eps : Rat}

theorem open_openFlat (hpos : 0 < eps) (heps : eps ≤ 1 / 2000) (h : r.Holds p) : (r.openFlat eps).Open :=
  ⟨(openRange_covers hpos heps h.ordered.1).1, (openRange_covers hpos heps h.ordered.2).1⟩

theorem Holds.openFlat (hpos : 0 < eps) (heps : eps ≤ 1 / 2000) (h : r.Holds p) : (r.openFlat eps).Holds p := by
  obtain ⟨-, hl, hr⟩ := openRange_covers hpos heps h.ordered.1
  obtain ⟨-, hb, ht⟩ := openRange_covers hpos heps h.ordered.2
  exact ⟨⟨hl.trans h.1.1, h.1.2.trans hr⟩, hb.trans h.2.1, h.2.2.trans ht⟩

end Rectangle

end DelaunaySurface
