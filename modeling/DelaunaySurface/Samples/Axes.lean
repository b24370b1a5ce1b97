/-!
# Axes

A choice among the three coordinates of a sample.
-/

namespace DelaunaySurface

/-- Which coordinates an operation touches. -/
structure Axes where
  x : Bool
  y : Bool
  z : Bool
  deriving DecidableEq, Repr

namespace Axes

/-- The coordinates whose letters occur in a text, in either case. -/
def ofLetters (text : String) : Axes :=
  let has (lower upper : Char) := text.toList.any fun c => c = lower || c = upper
  ⟨has 'x' 'X', has 'y' 'Y', has 'z' 'Z'⟩

/-- The choice moves points of the plane. -/
def movePoints (a : Axes) : Bool := a.x || a.y

end Axes

end DelaunaySurface
