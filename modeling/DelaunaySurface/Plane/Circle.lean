import DelaunaySurface.Plane.Point
/-!
# Circles

The circle through three points: whether a fourth lies inside, and where its centre is.
-/

namespace DelaunaySurface

variable {α : Type} [Scalar α]

/-- The in-circle determinant. For a counter-clockwise `a b c` it is positive when `d` lies inside
the circle through them, negative outside and zero on it. -/
def circleDeterminant (a b c d : Point α) : Determinant α :=
  let px := a.x - d.x
  let py := a.y - d.y
  let qx := b.x - d.x
  let qy := b.y - d.y
  let rx := c.x - d.x
  let ry := c.y - d.y
  let liftP := px * px + py * py
  let liftQ := qx * qx + qy * qy
  let liftR := rx * rx + ry * ry
  let qr := qx * ry - rx * qy
  let rp := rx * py - px * ry
  let pq := px * qy - qx * py
  let value := liftP * qr + liftQ * rp + liftR * pq
  let size := (Scalar.abs (qx * ry) + Scalar.abs (rx * qy)) * liftP
    + (Scalar.abs (rx * py) + Scalar.abs (px * ry)) * liftQ
    + (Scalar.abs (px * qy) + Scalar.abs (qx * py)) * liftR
  ⟨value, size⟩

/-- `d` lies inside the circle through the counter-clockwise `a b c` by more than the tolerance;
a point that cannot be told from one on the circle is outside. -/
def insideCircle (tol : Tolerance α) (a b c d : Point α) : Bool :=
  let det := circleDeterminant a b c d
  0 < det.value && !tol.vanishes det

/-- The centre of the circle through `a b c`; none when they span no area, or one out of range. -/
def circumcentre? (a b c : Point α) : Option (Point α) :=
  let px := b.x - a.x
  let py := b.y - a.y
  let qx := c.x - a.x
  let qy := c.y - a.y
  let d := 2.0 * (px * qy - py * qx)
  if d == 0 || !Scalar.isFinite d then none
  else
    let pSq := px * px + py * py
    let qSq := qx * qx + qy * qy
    some ⟨a.x + (qy * pSq - py * qSq) / d, a.y + (px * qSq - qx * pSq) / d⟩

end DelaunaySurface
