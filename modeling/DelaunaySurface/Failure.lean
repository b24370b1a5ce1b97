import DelaunaySurface.Formula.Basic
/-!
# Failures

Why samples cannot be edited or made into a surface. Each cause carries what its report names.
-/

namespace DelaunaySurface

/-- Why an operation on samples or on their triangulation failed. -/
inductive Failure
  /-- Three samples at least span a triangle. -/
  | tooFew (provided : Nat)
  | collinear
  | duplicate (first second : Nat)
  /-- Building would absorb more cells into cavities than allowed. -/
  | budgetExceeded (budget : Nat)
  /-- The geometric tests contradicted each other while this point was inserted. -/
  | inconsistent (point : Nat)
  | noSuchSample (index size : Nat)
  | empty
  /-- A coordinate of this sample is infinite or undefined. -/
  | notFinite (index : Nat)
  | unequalColumns (x y z : Nat)
  /-- A formula for heights has no value. -/
  | formula (cause : Formula.Error)
  deriving DecidableEq, Repr

def Failure.message : Failure → String
  | .tooFew provided => s!"insufficient points: {provided} provided, at least 3 required"
  | .collinear => "degenerate input: all points are collinear"
  | .duplicate first second =>
    s!"duplicate point: {second} has the same (x, y) as {first}; call remove_duplicates first"
  | .budgetExceeded budget => s!"iteration budget of {budget} cavity operations exceeded by the build"
  | .inconsistent point => s!"inconsistent predicates while inserting point {point}"
  | .noSuchSample index size => s!"point index {index} out of range (len {size})"
  | .empty => "point set is empty"
  | .notFinite index => s!"point {index} has a non-finite (x, y) coordinate"
  | .unequalColumns x y z => s!"coordinate arrays differ in length: x={x}, y={y}, z={z}"
  | .formula cause => "expression error: " ++ cause.message

end DelaunaySurface
