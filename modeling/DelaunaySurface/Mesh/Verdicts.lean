import DelaunaySurface.Mesh.Cell
import DelaunaySurface.Plane.Circle
import DelaunaySurface.Plane.Segment
import DelaunaySurface.Plane.Turn
/-!
# Verdicts

All that the mesh asks the geometry about a point to be inserted. The combinatorial part of the
construction sees the plane through these four tests only, and takes any answers: rounding may make
them contradict each other.
-/

namespace DelaunaySurface

/-- The answers of the geometry about one new point. -/
structure Verdicts where
  /-- The point lies in the region that a cell with these corners must keep empty. -/
  conflicts : Triple Corner → Bool
  /-- The point lies to the right of the line from one sample to another. -/
  rightOf : Nat → Nat → Bool
  /-- The point does not lie to the left of that line. -/
  notLeftOf : Nat → Nat → Bool
  /-- The point does not lie to the right of that line. -/
  notRightOf : Nat → Nat → Bool

namespace Verdicts

/-- The point lies beyond a side, seen from its cell. -/
def beyond (v : Verdicts) (s : Side) : Bool :=
  match s with
  | ⟨.site a, .site b⟩ => v.rightOf a b
  | _ => false

/-- The point does not see a side from its cell's side of it. -/
def blocked (v : Verdicts) (s : Side) : Bool :=
  match s with
  | ⟨.site a, .site b⟩ => v.notLeftOf a b
  | _ => false

/-- The point lies in a triangle or on its border. -/
def within (v : Verdicts) (corners : Triple Corner) : Bool :=
  match corners with
  | ⟨.site a, .site b, .site c⟩ => v.notRightOf a b && v.notRightOf b c && v.notRightOf c a
  | _ => false

variable {α : Type} [Scalar α]

/-- The point lies in the half-plane that the unbounded cell behind a hull edge stands for: to the
left of `a → b`, or on the line strictly between the two. -/
def inHalfPlane (tol : Tolerance α) (a b p : Point α) : Bool :=
  let d := turnDeterminant a b p
  if tol.vanishes d then strictlyBetween p a b else 0 < d.value

/-- The region of a cell: the inside of the circle of a triangle, the half-plane of an unbounded
cell. -/
def inRegion (tol : Tolerance α) (place : Nat → Point α) (p : Point α) : Triple Corner → Bool
  | ⟨.site a, .site b, .site c⟩ => insideCircle tol (place a) (place b) (place c) p
  | ⟨.infinity, .site a, .site b⟩ => inHalfPlane tol (place a) (place b) p
  | ⟨.site b, .infinity, .site a⟩ => inHalfPlane tol (place a) (place b) p
  | ⟨.site a, .site b, .infinity⟩ => inHalfPlane tol (place a) (place b) p
  | _ => false

/-- The verdicts about a point among samples at given places. -/
def ofPoint (tol : Tolerance α) (place : Nat → Point α) (p : Point α) : Verdicts where
  conflicts := inRegion tol place p
  rightOf a b := cross (place a) (place b) p < 0
  notLeftOf a b := cross (place a) (place b) p ≤ 0
  notRightOf a b := 0 ≤ cross (place a) (place b) p

end Verdicts

end DelaunaySurface
