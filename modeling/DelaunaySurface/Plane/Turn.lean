import DelaunaySurface.Plane.Point
/-!
# Turns

Which way the path `a → b → c` turns at `b`: the sign of twice the signed area of `a b c`.
-/

namespace DelaunaySurface

/-- The way a path of three points turns. -/
inductive Turn
  /-- Counter-clockwise. -/
  | left
  /-- Clockwise. -/
  | right
  /-- The points lie on one line, as far as the tolerance tells. -/
  | straight
  deriving DecidableEq, Repr

variable {α : Type} [Scalar α]

/-- Twice the signed area of `a b c` as the difference of two products. -/
def turnDeterminant (a b c : Point α) : Determinant α :=
  let rise := (b.x - a.x) * (c.y - a.y)
  let fall := (b.y - a.y) * (c.x - a.x)
  ⟨rise - fall, Scalar.abs rise + Scalar.abs fall⟩

/-- Twice the signed area of `a b c`, positive when counter-clockwise. -/
def cross (a b c : Point α) : α :=
  (b.x - a.x) * (c.y - a.y) - (b.y - a.y) * (c.x - a.x)

@[simp] theorem turnDeterminant_value (a b c : Point α) : (turnDeterminant a b c).value = cross a b c := rfl

/-- The turn at `b`; a determinant that vanishes makes it straight. -/
def turn (tol : Tolerance α) (a b c : Point α) : Turn :=
  let d := turnDeterminant a b c
  if tol.vanishes d then .straight else if 0 < d.value then .left else .right

end DelaunaySurface
