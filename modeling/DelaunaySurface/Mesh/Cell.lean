import DelaunaySurface.Triple
/-!
# Cells

The working mesh covers the whole plane: beside triangles of samples it has one unbounded cell behind
each hull edge, with a corner at infinity. So every side of every cell has a cell on its other side.
-/

namespace DelaunaySurface

/-- A corner of a cell. -/
inductive Corner
  | site (i : Nat)
  /-- The corner that all unbounded cells share. -/
  | infinity
  deriving DecidableEq, Repr

/-- A directed side of a cell, which lies to its left. -/
structure Side where
  tail : Corner
  head : Corner
  deriving DecidableEq, Repr

/-- The same side from the other cell. -/
def Side.reverse (s : Side) : Side := ⟨s.head, s.tail⟩

/-- A slot of the mesh. -/
structure Cell where
  /-- The corners, counter-clockwise. -/
  corners : Triple Corner
  /-- `across.get k` is the slot on the other side of the side opposite corner `k`. -/
  across : Triple Nat
  alive : Bool
  deriving DecidableEq, Repr

namespace Cell

/-- A slot out of use. -/
def vacant : Cell where
  corners := ⟨.infinity, .infinity, .infinity⟩
  across := ⟨0, 0, 0⟩
  alive := false

/-- The cell has no corner at infinity. -/
def bounded (c : Cell) : Bool :=
  !decide (Corner.infinity ∈ c.corners)

/-- The side opposite corner `k`. -/
def side (c : Cell) (k : Fin 3) : Side :=
  ⟨c.corners.get (Triple.next k), c.corners.get (Triple.previous k)⟩

/-- The corner opposite a side, if the cell has that side. -/
def opposite? (c : Cell) (s : Side) : Option (Fin 3) :=
  Triple.indices.find? fun k => c.side k = s

end Cell

end DelaunaySurface
