import DelaunaySurface.Mesh.Verdicts
/-!
# The working mesh

Cells in numbered slots. Slots are freed and used again, the latest freed first. Finding the cell of
a point is a walk from the latest insertion toward the point.
-/

namespace DelaunaySurface

/-- What building a mesh has taken so far. -/
structure Tally where
  /-- Cells absorbed into cavities. -/
  operations : Nat
  /-- The most cells absorbed for one point. -/
  largest : Nat
  /-- Cells absorbed only to let the new point see all of its cavity's rim. -/
  repairs : Nat
  /-- Walks that were given up for a search of all cells. -/
  fallbacks : Nat
  deriving DecidableEq, Repr

/-- The mesh under construction. -/
structure Mesh where
  cells : Array Cell
  /-- The slots out of use, the latest freed first. -/
  free : List Nat
  /-- For each slot the number of the last insertion whose cavity it was in. -/
  mark : Array Nat
  /-- The number of insertions so far. -/
  stamp : Nat
  /-- A triangle to start walks from. -/
  hint : Nat
  tally : Tally
  deriving DecidableEq, Repr

namespace Mesh

/-- The mesh of one counter-clockwise triangle: itself and an unbounded cell behind each side. -/
def seed (t : Triple Nat) : Mesh :=
  let a := Corner.site t.fst
  let b := Corner.site t.snd
  let c := Corner.site t.trd
  { cells := #[⟨⟨a, b, c⟩, ⟨1, 2, 3⟩, true⟩, ⟨⟨c, b, .infinity⟩, ⟨3, 2, 0⟩, true⟩,
      ⟨⟨a, c, .infinity⟩, ⟨1, 3, 0⟩, true⟩, ⟨⟨b, a, .infinity⟩, ⟨2, 1, 0⟩, true⟩]
    free := []
    mark := #[0, 0, 0, 0]
    stamp := 0
    hint := 0
    tally := ⟨0, 0, 0, 0⟩ }

def cell (m : Mesh) (t : Nat) : Cell := m.cells.getD t Cell.vacant

/-- The cell in slot `t` is to make room for the point. -/
def conflicts (m : Mesh) (v : Verdicts) (t : Nat) : Bool := v.conflicts (m.cell t).corners

def slots (m : Mesh) : List Nat := List.range m.cells.size

/-- The first corner whose opposite side has the point beyond it. -/
def exit? (v : Verdicts) (c : Cell) : Option (Fin 3) :=
  Triple.indices.find? fun k => v.beyond (c.side k)

/-- Walks toward the point, at most `steps` cells: to an unbounded cell, or to a triangle with the
point beyond none of its sides. -/
def walk (m : Mesh) (v : Verdicts) : Nat → Nat → Option Nat
  | 0, _ => none
  | steps + 1, t =>
    let c := m.cell t
    if c.bounded then
      match exit? v c with
      | some k => walk m v steps (c.across.get k)
      | none => some t
    else some t

/-- The first unbounded cell that is to make room for the point. -/
def outerConflict? (m : Mesh) (v : Verdicts) : Option Nat :=
  m.slots.find? fun t => (m.cell t).alive && !(m.cell t).bounded && m.conflicts v t

/-- The first triangle that holds the point, else an unbounded cell that is to make room for it. -/
def search? (m : Mesh) (v : Verdicts) : Option Nat :=
  (m.slots.find? fun t => (m.cell t).alive && (m.cell t).bounded && v.within (m.cell t).corners) <|>
    m.outerConflict? v

/-- Finds the cell of the point by a walk that visits no more cells than a walk without cycles can,
else by a search, which is noted. -/
def locate (m : Mesh) (v : Verdicts) : Mesh × Option Nat :=
  match m.walk v (m.cells.size + 3) m.hint with
  | some t => (m, some t)
  | none => ({ m with tally := { m.tally with fallbacks := m.tally.fallbacks + 1 } }, m.search? v)

/-- The cell where the cavity of the point begins. A walk can end in an unbounded cell whose hull
edge the point is only in line with; then another one is looked for. -/
def start? (m : Mesh) (v : Verdicts) (found : Option Nat) : Option Nat :=
  (found.filter fun t => (m.cell t).bounded || m.conflicts v t) <|> m.outerConflict? v

end Mesh

end DelaunaySurface
