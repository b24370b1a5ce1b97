import DelaunaySurface.Interpolant
/-!
# Rasters

The surface sampled at the centres of a regular grid of cells, with its range. Each row starts from
nothing remembered, so rows do not depend on one another.
-/

namespace DelaunaySurface

/-- A regular grid of `nx` by `ny` cells over a rectangle. -/
structure Frame (α : Type) where
  xMin : α
  xMax : α
  nx : Nat
  yMin : α
  yMax : α
  ny : Nat
  deriving DecidableEq, Repr

namespace Frame

variable {α : Type} [Scalar α]

def covering (r : Rectangle α) (nx ny : Nat) : Frame α :=
  ⟨r.xMin, r.xMax, nx, r.yMin, r.yMax, ny⟩

def cellCount (f : Frame α) : Nat := f.nx * f.ny

/-- The width of a column. -/
def dx (f : Frame α) : α := (f.xMax - f.xMin) / Scalar.ofCount f.nx

/-- The height of a row. -/
def dy (f : Frame α) : α := (f.yMax - f.yMin) / Scalar.ofCount f.ny

def xCentre (f : Frame α) (column : Nat) : α := f.xMin + (Scalar.ofCount column + 0.5) * f.dx

def yCentre (f : Frame α) (row : Nat) : α := f.yMin + (Scalar.ofCount row + 0.5) * f.dy

def centre (f : Frame α) (column row : Nat) : Point α := ⟨f.xCentre column, f.yCentre row⟩

end Frame

/-- Values at the centres of a grid. -/
structure Raster (α : Type) where
  frame : Frame α
  /-- The values, row after row from below. -/
  values : Array α
  /-- The least value of the surface; values outside the hull do not count. -/
  least : Option α
  greatest : Option α
  leastPositive : Option α
  /-- Cells outside the hull with a defined value. -/
  marginCells : Nat
  /-- Cells with an undefined value. -/
  undefinedCells : Nat
  deriving DecidableEq, Repr

namespace Raster

variable {α : Type} [Scalar α]

/-- The raster of a surface that could not be built: all values undefined. -/
def blank (f : Frame α) : Raster α where
  frame := f
  values := Array.replicate f.cellCount Scalar.undefined
  least := none
  greatest := none
  leastPositive := none
  marginCells := 0
  undefinedCells := f.cellCount

def value (r : Raster α) (column row : Nat) : α :=
  r.values.getD (row * r.frame.nx + column) Scalar.undefined

def row (r : Raster α) (i : Nat) : List α :=
  (r.values.extract (i * r.frame.nx) ((i + 1) * r.frame.nx)).toList

/-- The rows from below; a raster without values has none. -/
def rows (r : Raster α) : List (List α) :=
  if r.values.isEmpty then [] else (List.range r.frame.ny).map r.row

/-- Replaces the ends of the range that are given. -/
def withRange (r : Raster α) (least greatest : Option α) : Raster α :=
  { r with least := least <|> r.least, greatest := greatest <|> r.greatest }

/-- Takes one more value into account; `margin` says that its cell is outside the hull. -/
def note (r : Raster α) (value : α) (margin : Bool) : Raster α :=
  if Scalar.isUndefined value then { r with undefinedCells := r.undefinedCells + 1 }
  else if margin then { r with marginCells := r.marginCells + 1 }
  else
    { r with
      least := some (r.least.elim value (Scalar.lesser · value))
      greatest := some (r.greatest.elim value (Scalar.greater · value))
      leastPositive :=
        if 0 < value then some (r.leastPositive.elim value (Scalar.lesser · value)) else r.leastPositive }

/-- The raster of the given cells: values, each with whether its cell is outside the hull. -/
def ofCells (f : Frame α) (cells : List (α × Bool)) : Raster α :=
  cells.foldl (fun r c => r.note c.1 c.2)
    { blank f with values := (cells.map (·.1)).toArray, undefinedCells := 0 }

/-- The values at points one after the other, each with whether the point is outside the hull; none
when some point has no value. -/
def sweep? (t : Triangulation) (s : Samples α) (margin : α) : Locator → List (Point α) →
    Option (List (α × Bool))
  | _, [] => some []
  | l, p :: rest =>
    match Interpolant.value? t s margin l p with
    | (none, _) => none
    | (some (z, place), l) => (sweep? t s margin l rest).map ((z, place.isOutside) :: ·)

def row? (t : Triangulation) (s : Samples α) (strategy : Strategy) (margin : α) (f : Frame α) (i : Nat) :
    Option (List (α × Bool)) :=
  sweep? t s margin (Locator.fresh strategy none) ((List.range f.nx).map fun column => f.centre column i)

/-- Samples the surface at all cell centres; none where a point outside finds no hull. -/
def sample? (t : Triangulation) (s : Samples α) (strategy : Strategy) (margin : α) (f : Frame α) :
    Option (Raster α) :=
  ((List.range f.ny).mapM (row? t s strategy margin f)).map fun rows => ofCells f rows.flatten

end Raster

end DelaunaySurface
