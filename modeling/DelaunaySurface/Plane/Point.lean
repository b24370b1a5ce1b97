import DelaunaySurface.Scalar
/-!
# Points and tolerance

Points of the plane, and determinants that carry the size of their terms. A determinant counts as
zero when it is small against that size, which does not depend on the scale of the coordinates.
-/

namespace DelaunaySurface

structure Point (α : Type) where
  x : α
  y : α
  deriving DecidableEq, Repr

/-- The value of a determinant and the sum of its terms without their signs. -/
structure Determinant (α : Type) where
  value : α
  /-- The sum of the magnitudes of the products it is made of. -/
  size : α
  deriving DecidableEq, Repr

/-- The share of its size up to which a determinant counts as zero. -/
structure Tolerance (α : Type) where
  eps : α
  deriving DecidableEq, Repr

variable {α : Type} [Scalar α]

namespace Point

/-- Two points are the same place when both coordinates compare equal. -/
def same (p q : Point α) : Bool :=
  p.x == q.x && p.y == q.y

end Point

namespace Tolerance

/-- One part in a thousand million. -/
def standard : Tolerance α := ⟨1e-9⟩

/-- The determinant cannot be told from zero. -/
def vanishes (tol : Tolerance α) (d : Determinant α) : Bool :=
  Scalar.abs d.value ≤ tol.eps * d.size

end Tolerance

/-- Two numbers agree up to `eps` times the mean of their magnitudes. -/
def nearlyEqual (eps a b : α) : Bool :=
  Scalar.abs (a - b) ≤ eps * 0.5 * (Scalar.abs a + Scalar.abs b)

end DelaunaySurface
