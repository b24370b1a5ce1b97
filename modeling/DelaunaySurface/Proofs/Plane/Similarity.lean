import DelaunaySurface.Plane.Rectangle
import DelaunaySurface.Proofs.Plane.Exact
/-!
# Similarities

What a change of scale and a shift do to the geometry over exact numbers. Determinants and their sizes grow
by one factor, so that no verdict changes, whatever the tolerance (`ofPoint_map`).
-/

namespace DelaunaySurface

/-- A change of scale followed by a shift. -/
structure Similarity where
  scale : Rat
  dx : Rat
  dy : Rat
  pos : 0 < scale

/-- A determinant all of whose terms are multiplied. -/
def Determinant.times (d : Determinant Rat) (k : Rat) : Determinant Rat := ⟨k * d.value, k * d.size⟩

theorem Tolerance.vanishes_times (tol : Tolerance Rat) (d : Determinant Rat) {k : Rat} (hk : 0 < k) :
    tol.vanishes (d.times k) = tol.vanishes d := by
  rw [Bool.eq_iff_iff, Tolerance.vanishes_iff, Tolerance.vanishes_iff, Determinant.times, abs_mul, abs_of_pos hk, mul_left_comm]
  exact mul_le_mul_iff_right₀ hk

namespace Similarity

variable (f : Similarity) (tol : Tolerance Rat) (a b c d p q : Point Rat)

/-- Where a point goes. -/
def map (p : Point Rat) : Point Rat := ⟨f.scale * p.x + f.dx, f.scale * p.y + f.dy⟩

theorem map_x_sub : (f.map a).x - (f.map b).x = f.scale * (a.x - b.x) := by
  simp only [map]; ring

theorem map_y_sub : (f.map a).y - (f.map b).y = f.scale * (a.y - b.y) := by
  simp only [map]; ring

theorem sq_pos : 0 < f.scale ^ 2 := pow_pos f.pos 2

/-! ## Determinants -/

theorem cross_map : cross (f.map a) (f.map b) (f.map c) = f.scale ^ 2 * cross a b c := by
  simp only [cross_eq, map]; ring

theorem cross_neg_iff : cross (f.map a) (f.map b) (f.map c) < 0 ↔ cross a b c < 0 := by
  rw [f.cross_map, ← not_le, mul_nonneg_iff_of_pos_left f.sq_pos, not_le]

theorem cross_nonpos_iff : cross (f.map a) (f.map b) (f.map c) ≤ 0 ↔ cross a b c ≤ 0 := by
  rw [f.cross_map, ← not_lt, mul_pos_iff_of_pos_left f.sq_pos, not_lt]

theorem cross_nonneg_iff : 0 ≤ cross (f.map a) (f.map b) (f.map c) ↔ 0 ≤ cross a b c := by
  rw [f.cross_map, mul_nonneg_iff_of_pos_left f.sq_pos]

theorem inCircle_map : inCircle (f.map a) (f.map b) (f.map c) (f.map d) = f.scale ^ 4 * inCircle a b c d := by
  simp only [inCircle_eq, map]; ring

/-- A product of two coordinate differences grows by the square of the scale. -/
theorem abs_mul_scale (u w : Rat) : |f.scale * u * (f.scale * w)| = f.scale ^ 2 * |u * w| := by
  rw [mul_mul_mul_comm, abs_mul, ← pow_two, abs_of_pos f.sq_pos]

theorem sum_scale (u w x y : Rat) : f.scale * u * (f.scale * w) + f.scale * x * (f.scale * y) = f.scale ^ 2 * (u * w + x * y) := by
  ring

theorem turnDeterminant_map : turnDeterminant (f.map a) (f.map b) (f.map c) = (turnDeterminant a b c).times (f.scale ^ 2) := by
  have hsize : (turnDeterminant (f.map a) (f.map b) (f.map c)).size = f.scale ^ 2 * (turnDeterminant a b c).size := by
    have heq : ∀ a b c : Point Rat, (turnDeterminant a b c).size = |(b.x - a.x) * (c.y - a.y)| + |(b.y - a.y) * (c.x - a.x)| :=
      fun a b c => by rw [turnDeterminant, Scalar.abs_rat, Scalar.abs_rat]
    simp only [heq, map_x_sub, map_y_sub, abs_mul_scale, mul_add]
  exact congrArg₂ Determinant.mk (f.cross_map a b c) hsize

theorem circleDeterminant_map : circleDeterminant (f.map a) (f.map b) (f.map c) (f.map d) =
    (circleDeterminant a b c d).times (f.scale ^ 4) := by
  have heq : ∀ a b c d : Point Rat, (circleDeterminant a b c d).size =
      (|(b.x - d.x) * (c.y - d.y)| + |(c.x - d.x) * (b.y - d.y)|) * ((a.x - d.x) * (a.x - d.x) + (a.y - d.y) * (a.y - d.y)) +
      (|(c.x - d.x) * (a.y - d.y)| + |(a.x - d.x) * (c.y - d.y)|) * ((b.x - d.x) * (b.x - d.x) + (b.y - d.y) * (b.y - d.y)) +
      (|(a.x - d.x) * (b.y - d.y)| + |(b.x - d.x) * (a.y - d.y)|) * ((c.x - d.x) * (c.x - d.x) + (c.y - d.y) * (c.y - d.y)) :=
    fun a b c d => by simp only [circleDeterminant, Scalar.abs_rat]
  have hsize : (circleDeterminant (f.map a) (f.map b) (f.map c) (f.map d)).size = f.scale ^ 4 * (circleDeterminant a b c d).size := by
    simp only [heq, map_x_sub, map_y_sub, abs_mul_scale]
    ring
  exact congrArg₂ Determinant.mk (f.inCircle_map a b c d) hsize

/-! ## Verdicts -/

theorem turn_map : turn tol (f.map a) (f.map b) (f.map c) = turn tol a b c := by
  simp only [turn, f.turnDeterminant_map, tol.vanishes_times _ f.sq_pos]
  have hsign : 0 < ((turnDeterminant a b c).times (f.scale ^ 2)).value ↔ 0 < (turnDeterminant a b c).value :=
    mul_pos_iff_of_pos_left f.sq_pos
  simp only [hsign]

theorem insideCircle_map : insideCircle tol (f.map a) (f.map b) (f.map c) (f.map d) = insideCircle tol a b c d := by
  have hpos : 0 < f.scale ^ 4 := pow_pos f.pos 4
  have hsign : 0 < ((circleDeterminant a b c d).times (f.scale ^ 4)).value ↔ 0 < (circleDeterminant a b c d).value :=
    mul_pos_iff_of_pos_left hpos
  simp only [insideCircle, f.circleDeterminant_map, tol.vanishes_times _ hpos, hsign]

theorem strictlyBetween_map : strictlyBetween (f.map p) (f.map a) (f.map b) = strictlyBetween p a b := by
  have heq : ∀ p a b : Point Rat, strictlyBetween p a b =
      (decide (0 < (p.x - a.x) * (b.x - a.x) + (p.y - a.y) * (b.y - a.y)) &&
        decide ((p.x - a.x) * (b.x - a.x) + (p.y - a.y) * (b.y - a.y) < (b.x - a.x) * (b.x - a.x) + (b.y - a.y) * (b.y - a.y))) :=
    fun p a b => rfl
  simp only [heq, map_x_sub, map_y_sub, f.sum_scale, mul_pos_iff_of_pos_left f.sq_pos, mul_lt_mul_iff_right₀ f.sq_pos]

theorem inHalfPlane_map : Verdicts.inHalfPlane tol (f.map a) (f.map b) (f.map p) = Verdicts.inHalfPlane tol a b p := by
  have hsign : 0 < ((turnDeterminant a b p).times (f.scale ^ 2)).value ↔ 0 < (turnDeterminant a b p).value :=
    mul_pos_iff_of_pos_left f.sq_pos
  simp only [Verdicts.inHalfPlane, f.turnDeterminant_map, tol.vanishes_times _ f.sq_pos, f.strictlyBetween_map, hsign]

theorem inRegion_map (place : Nat → Point Rat) (corners : Triple Corner) :
    Verdicts.inRegion tol (fun i => f.map (place i)) (f.map p) corners = Verdicts.inRegion tol place p corners := by
  unfold Verdicts.inRegion
  split
  · exact f.insideCircle_map tol _ _ _ p
  · exact f.inHalfPlane_map tol _ _ p
  · exact f.inHalfPlane_map tol _ _ p
  · exact f.inHalfPlane_map tol _ _ p
  · rfl

/-- A similarity changes no verdict. -/
theorem ofPoint_map (place : Nat → Point Rat) :
    Verdicts.ofPoint tol (fun i => f.map (place i)) (f.map p) = Verdicts.ofPoint tol place p := by
  simp only [Verdicts.ofPoint, Verdicts.mk.injEq]
  refine ⟨funext (f.inRegion_map tol p place), ?_, ?_, ?_⟩
  · simp only [f.cross_neg_iff]
  · simp only [f.cross_nonpos_iff]
  · simp only [f.cross_nonneg_iff]

/-! ## Distances -/

/-- Where the point of a segment nearest to `p` lies, as a share of the way from `a` to `b`. -/
def nearestShare (p a b : Point Rat) : Rat :=
  if 0 < (b.x - a.x) * (b.x - a.x) + (b.y - a.y) * (b.y - a.y) then
    Scalar.clamp (((p.x - a.x) * (b.x - a.x) + (p.y - a.y) * (b.y - a.y)) /
      ((b.x - a.x) * (b.x - a.x) + (b.y - a.y) * (b.y - a.y))) 0 1
  else 0

theorem segmentDistanceSq_eq (p a b : Point Rat) : segmentDistanceSq p a b =
    (a.x + nearestShare p a b * (b.x - a.x) - p.x) * (a.x + nearestShare p a b * (b.x - a.x) - p.x) +
    (a.y + nearestShare p a b * (b.y - a.y) - p.y) * (a.y + nearestShare p a b * (b.y - a.y) - p.y) := rfl

theorem nearestShare_map : nearestShare (f.map p) (f.map a) (f.map b) = nearestShare p a b := by
  simp only [nearestShare, map_x_sub, map_y_sub, f.sum_scale, mul_pos_iff_of_pos_left f.sq_pos, mul_div_mul_left _ _ f.sq_pos.ne']

theorem segmentDistanceSq_map : segmentDistanceSq (f.map p) (f.map a) (f.map b) = f.scale ^ 2 * segmentDistanceSq p a b := by
  simp only [segmentDistanceSq_eq, nearestShare_map]
  simp only [map]
  ring

/-! ## Rectangles -/

/-- Where a rectangle goes. -/
def mapRectangle (r : Rectangle Rat) : Rectangle Rat :=
  ⟨f.scale * r.xMin + f.dx, f.scale * r.xMax + f.dx, f.scale * r.yMin + f.dy, f.scale * r.yMax + f.dy⟩

theorem mono (d : Rat) : Monotone fun x => f.scale * x + d := fun _ _ h =>
  add_le_add_left (mul_le_mul_of_nonneg_left h f.pos.le) d

theorem lesser_map (x y d : Rat) : Scalar.lesser (f.scale * x + d) (f.scale * y + d) = f.scale * Scalar.lesser x y + d := by
  rw [Scalar.lesser_rat, Scalar.lesser_rat]
  exact ((f.mono d).map_min).symm

theorem greater_map (x y d : Rat) : Scalar.greater (f.scale * x + d) (f.scale * y + d) = f.scale * Scalar.greater x y + d := by
  rw [Scalar.greater_rat, Scalar.greater_rat]
  exact ((f.mono d).map_max).symm

theorem including_map (r : Rectangle Rat) : (f.mapRectangle r).including (f.map p) = f.mapRectangle (r.including p) := by
  simp only [Rectangle.including, mapRectangle, map, lesser_map, greater_map]

theorem foldl_including_map (r : Rectangle Rat) (l : List (Point Rat)) :
    (l.map f.map).foldl Rectangle.including (f.mapRectangle r) = f.mapRectangle (l.foldl Rectangle.including r) := by
  induction l generalizing r with
  | nil => rfl
  | cons p l ih => rw [List.map_cons, List.foldl_cons, List.foldl_cons, including_map, ih]

theorem around?_map (l : List (Point Rat)) : Rectangle.around? (l.map f.map) = (Rectangle.around? l).map f.mapRectangle := by
  cases l with
  | nil => rfl
  | cons p l =>
    simp only [List.map_cons, Rectangle.around?, Option.map_some, Option.some.injEq]
    exact f.foldl_including_map ⟨p.x, p.x, p.y, p.y⟩ l

theorem width_map (r : Rectangle Rat) : (f.mapRectangle r).width = f.scale * r.width :=
  f.map_x_sub ⟨r.xMax, 0⟩ ⟨r.xMin, 0⟩

theorem height_map (r : Rectangle Rat) : (f.mapRectangle r).height = f.scale * r.height :=
  f.map_y_sub ⟨0, r.yMax⟩ ⟨0, r.yMin⟩

end Similarity

end DelaunaySurface
