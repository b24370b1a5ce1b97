import DelaunaySurface.Mesh.Fan
import DelaunaySurface.Triangulation.Schedule
import DelaunaySurface.Triangulation.Tables
/-!
# Building a triangulation

Samples are inserted one by one into a mesh that begins with a single triangle. The result is the
Delaunay triangulation of their points, up to the tolerance.
-/

namespace DelaunaySurface

/-- What a build goes by. -/
structure BuildSettings (α : Type) where
  /-- How many cells the whole build may absorb into cavities. -/
  budget : Nat
  /-- When a determinant counts as zero. -/
  tolerance : Tolerance α
  deriving DecidableEq, Repr

namespace BuildSettings

/-- A hundred thousand cells and the standard tolerance. -/
def standard {α : Type} [Scalar α] : BuildSettings α := ⟨100000, .standard⟩

end BuildSettings

namespace Triangulation

variable {α : Type} [Scalar α]

/-- The verdicts about sample `i`. -/
def verdicts (tol : Tolerance α) (s : Samples α) (i : Nat) : Verdicts :=
  Verdicts.ofPoint tol s.point (s.point i)

/-- The mesh of all samples. -/
def mesh (settings : BuildSettings α) (s : Samples α) : Except Failure Mesh := do
  Schedule.validate s
  let (first, others) ← Schedule.seed settings.tolerance s (Schedule.order s)
  (Mesh.seed first).insertAll settings.budget (verdicts settings.tolerance s) others

def build (settings : BuildSettings α) (s : Samples α) : Except Failure Triangulation :=
  (mesh settings s).map (ofMesh s.size)

end Triangulation

end DelaunaySurface
