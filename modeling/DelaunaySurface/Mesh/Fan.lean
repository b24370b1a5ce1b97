import DelaunaySurface.Mesh.Cavity
/-!
# Fans

A cavity is filled with a fan: one new cell between the new point and each side of the rim. That
takes a rim made of loops that visit no corner twice.
-/

namespace DelaunaySurface

namespace Mesh

/-- Each corner of the rim begins one side and ends one. -/
def closesUp (rim : List RimSide) : Bool :=
  let tails : List Corner := rim.map (·.side.tail)
  let heads : List Corner := rim.map (·.side.head)
  decide tails.Nodup && decide heads.Nodup && heads.all (· ∈ tails) && tails.all (· ∈ heads)

/-- The side has no end at infinity, so that its cell of the fan is a triangle. -/
def finite (s : RimSide) : Bool :=
  s.side.tail ≠ .infinity && s.side.head ≠ .infinity

def clear (m : Mesh) (members : List Nat) : Mesh :=
  { m with
    cells := members.foldl (fun cells t => cells.modify t fun c => { c with alive := false }) m.cells
    free := members.reverse ++ m.free }

/-- Puts a cell into the slot freed last, or into a new one; gives the slot. -/
def place (m : Mesh) (c : Cell) : Mesh × Nat :=
  match m.free with
  | t :: free => ({ m with cells := m.cells.setIfInBounds t c, free }, t)
  | [] => ({ m with cells := m.cells.push c, mark := m.mark.push 0 }, m.cells.size)

/-- Tells the cell in a slot what now lies across one of its sides. -/
def connect (m : Mesh) (t : Nat) (side : Side) (neighbour : Nat) : Mesh :=
  { m with cells := m.cells.modify t fun c =>
      match c.opposite? side with
      | some k => { c with across := c.across.set k neighbour }
      | none => c }

/-- A cell of the fan with the side it stands on. -/
structure Blade where
  slot : Nat
  /-- Its side on the rim. -/
  side : Side
  deriving DecidableEq, Repr

/-- Puts up the cells between the point `i` and the sides of the rim, each connected with the cell
outside, not yet with one another. -/
def raise (i : Nat) : Mesh → List RimSide → Mesh × List Blade
  | m, [] => (m, [])
  | m, s :: rim =>
    let (m, slot) := m.place ⟨⟨s.side.tail, s.side.head, .site i⟩, ⟨0, 0, s.outside⟩, true⟩
    let (m, blades) := raise i (m.connect s.outside s.side.reverse slot) rim
    (m, ⟨slot, s.side⟩ :: blades)

/-- The blade that begins where this one ends; itself if there is none. -/
def after (blades : List Blade) (b : Blade) : Nat :=
  ((blades.find? fun c => c.side.tail = b.side.head).getD b).slot

/-- The blade that ends where this one begins; itself if there is none. -/
def before (blades : List Blade) (b : Blade) : Nat :=
  ((blades.find? fun c => c.side.head = b.side.tail).getD b).slot

/-- Connects the cells of the fan with one another. -/
def join (m : Mesh) (blades : List Blade) : Mesh :=
  { m with cells := blades.foldl (fun cells b => cells.modify b.slot fun c =>
      { c with across := ⟨after blades b, before blades b, c.across.trd⟩ }) m.cells }

/-- Fills a cavity with the fan around the point `i`. Walks will start at its first triangle. -/
def fill (m : Mesh) (i : Nat) (members : List Nat) (rim : List RimSide) : Mesh :=
  let (m, blades) := raise i (m.clear members) rim
  let m := m.join blades
  { m with hint := ((rim.zip blades).find? (finite ·.1)).elim m.hint (·.2.slot) }

/-- Inserts the point `i`. It fails when the point has no cell to begin with, when the budget is
spent, or when the rim of its cavity cannot be filled. -/
def insert (m : Mesh) (budget : Nat) (v : Verdicts) (i : Nat) : Except Failure Mesh :=
  let (m, found) := m.locate v
  match m.start? v found with
  | none => .error (.inconsistent i)
  | some start => do
    let m := { m with stamp := m.stamp + 1 }
    let c ← m.conflictRegion v budget start
    let c ← m.clearView v budget c
    let rim := m.rim c
    if closesUp rim && rim.any finite then
      let tally := { m.tally with
        operations := c.operations
        largest := max m.tally.largest (c.operations - m.tally.operations)
        repairs := m.tally.repairs + c.repairs }
      return { m with mark := c.mark, tally }.fill i c.members.toList rim
    else .error (.inconsistent i)

def insertAll (m : Mesh) (budget : Nat) (v : Nat → Verdicts) (points : List Nat) : Except Failure Mesh :=
  points.foldlM (fun m i => m.insert budget (v i) i) m

end Mesh

end DelaunaySurface
