import DelaunaySurface.Plane.Point
/-!
# Segments

The closed segment from `a` to `b`: how far a point is from it, and whether a point on its line
lies between its ends.
-/

namespace DelaunaySurface

variable {α : Type} [Scalar α]

/-- The square of the distance from `p` to the closed segment `a b`: to the foot of the
perpendicular, moved to the nearer end where it falls outside. -/
def segmentDistanceSq (p a b : Point α) : α :=
  let ux := b.x - a.x
  let uy := b.y - a.y
  let lengthSq := ux * ux + uy * uy
  let t := if 0 < lengthSq then Scalar.clamp (((p.x - a.x) * ux + (p.y - a.y) * uy) / lengthSq) 0 1 else 0
  let dx := a.x + t * ux - p.x
  let dy := a.y + t * uy - p.y
  dx * dx + dy * dy

/-- A point `p` on the line through `a` and `b` lies strictly between them. -/
def strictlyBetween (p a b : Point α) : Bool :=
  let ux := b.x - a.x
  let uy := b.y - a.y
  let t := (p.x - a.x) * ux + (p.y - a.y) * uy
  0 < t && t < ux * ux + uy * uy

end DelaunaySurface
