import DelaunaySurface.Plane.Point
/-!
# Rectangles

Rectangles with sides parallel to the axes: the one around a list of points, grown by a share of
its extent, and opened where it has no width.
-/

namespace DelaunaySurface

/-- A rectangle with sides parallel to the axes. -/
structure Rectangle (α : Type) where
  xMin : α
  xMax : α
  yMin : α
  yMax : α
  deriving DecidableEq, Repr

/-- Opens a range without width: one whose ends agree up to `eps`, relatively, becomes `±0.001` when
it sits at zero and is widened by half of `eps` times its magnitude on each side elsewhere. -/
def openRange {α : Type} [Scalar α] (eps lo hi : α) : α × α :=
  if nearlyEqual eps lo hi then
    if Scalar.abs lo < eps then (-0.001, 0.001)
    else (lo - Scalar.abs lo * (eps / 2.0), hi + Scalar.abs hi * (eps / 2.0))
  else (lo, hi)

namespace Rectangle

variable {α : Type} [Scalar α]

/-- The rectangle grown just enough to hold `p`; undefined coordinates are ignored. -/
def including (r : Rectangle α) (p : Point α) : Rectangle α where
  xMin := Scalar.lesser r.xMin p.x
  xMax := Scalar.greater r.xMax p.x
  yMin := Scalar.lesser r.yMin p.y
  yMax := Scalar.greater r.yMax p.y

/-- The rectangle around a list of points; none around no points. -/
def around? : List (Point α) → Option (Rectangle α)
  | [] => none
  | p :: ps => some (ps.foldl including ⟨p.x, p.x, p.y, p.y⟩)

def width (r : Rectangle α) : α := r.xMax - r.xMin

def height (r : Rectangle α) : α := r.yMax - r.yMin

/-- Moves each side outward by a share of the extent across it. -/
def grow (r : Rectangle α) (share : α) : Rectangle α :=
  let dx := share * r.width
  let dy := share * r.height
  ⟨r.xMin - dx, r.xMax + dx, r.yMin - dy, r.yMax + dy⟩

/-- Opens the directions in which the rectangle has no width. -/
def openFlat (r : Rectangle α) (eps : α) : Rectangle α :=
  let x := openRange eps r.xMin r.xMax
  let y := openRange eps r.yMin r.yMax
  ⟨x.1, x.2, y.1, y.2⟩

end Rectangle

end DelaunaySurface
