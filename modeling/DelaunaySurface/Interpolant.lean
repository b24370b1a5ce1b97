import DelaunaySurface.Locator
import DelaunaySurface.Text.Blank
/-!
# Interpolation

The surface through the samples, flat over each triangle. Outside the hull it has a fixed value.
-/

namespace DelaunaySurface

namespace Strategy

def name : Strategy → String
  | walk => "delaunay"
  | scan => "legacy"

/-- Reads a name in any case of letters, with blanks around it; each strategy also has a short name.
A text that is no name is given back as it was compared. -/
def ofName (text : String) : Except String Strategy :=
  let name := String.ofList ((Text.trim text.toList).map Char.toLower)
  match name with
  | "delaunay" | "new" => .ok walk
  | "legacy" | "old" => .ok scan
  | other => .error other

def unknownName (name : String) : String := s!"unknown interpolation engine '{name}'"

end Strategy

namespace Interpolant

variable {α : Type} [Scalar α]

/-- The height at a located point: the margin outside; inside, the height of the first corner at the
same place, else that of the plane through the corners. -/
def heightAt (t : Triangulation) (s : Samples α) (margin : α) (p : Point α) : Location → α
  | .outside _ => margin
  | .inside i =>
    match (t.triangle i).toList.find? fun v => (s.point v).same p with
    | some v => s.height v
    | none => (t.triangle i).planarHeight s p

/-- The height at a point and where the point was located. -/
def value? (t : Triangulation) (s : Samples α) (margin : α) (l : Locator) (p : Point α) :
    Option (α × Location) × Locator :=
  let (found, l) := l.locate? t s p
  (found.map fun place => (heightAt t s margin p place, place), l)

end Interpolant

end DelaunaySurface
