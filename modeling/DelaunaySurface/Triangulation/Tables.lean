import DelaunaySurface.Triangulation.Basic
/-!
# Tables of a finished mesh

Triangles are numbered in the order of their slots. The hull is read off the unbounded cells: each one
tells which sample follows another.
-/

namespace DelaunaySurface

def Cell.triangle? (c : Cell) : Option Triangle :=
  match c.corners with
  | ⟨.site a, .site b, .site d⟩ => some ⟨a, b, d⟩
  | _ => none

/-- The hull side that an unbounded cell lies behind, counter-clockwise around the hull. -/
def Cell.hullSide? (c : Cell) : Option (Nat × Nat) :=
  match c.corners with
  | ⟨.infinity, .site a, .site b⟩ => some (b, a)
  | ⟨.site b, .infinity, .site a⟩ => some (b, a)
  | ⟨.site a, .site b, .infinity⟩ => some (b, a)
  | _ => none

namespace Mesh

/-- The slots of triangles in use, in their order. -/
def triangleSlots (m : Mesh) : List Nat :=
  m.slots.filter fun t => (m.cell t).alive && (m.cell t).bounded

/-- For each slot the number of its triangle. -/
def numbering (m : Mesh) : Array (Option Nat) :=
  let slots := m.triangleSlots
  (slots.zip (List.range slots.length)).foldl (fun table (t, n) => table.setIfInBounds t (some n))
    (Array.replicate m.cells.size none)

/-- For each of `count` samples the next one on the hull. -/
def successors (m : Mesh) (count : Nat) : Array (Option Nat) :=
  m.slots.foldl (fun table t =>
    if (m.cell t).alive then
      match (m.cell t).hullSide? with
      | some (a, b) => table.setIfInBounds a (some b)
      | none => table
    else table) (Array.replicate count none)

end Mesh

/-- Follows successors from `current` until `first` comes again, at most `steps` times. -/
def followHull (next : Array (Option Nat)) (first : Nat) : Nat → Nat → List Nat
  | 0, _ => []
  | steps + 1, current =>
    current :: match next.getD current none with
      | some following => if following = first then [] else followHull next first steps following
      | none => []

/-- The hull from its lowest index. -/
def hullOf (next : Array (Option Nat)) : List Nat :=
  match (List.range next.size).find? fun i => (next.getD i none).isSome with
  | some first => followHull next first ((next.toList.countP (·.isSome)) + 1) first
  | none => []

/-- For each of `count` samples the first triangle at it. -/
def incidenceOf (count : Nat) (triangles : List Triangle) : Array (Option Nat) :=
  (triangles.zip (List.range triangles.length)).foldl (fun table (t, n) =>
    t.toList.foldl (fun table v => table.modify v fun known => known <|> some n) table)
    (Array.replicate count none)

/-- The tables of a mesh over `count` samples. -/
def Triangulation.ofMesh (count : Nat) (m : Mesh) : Triangulation :=
  let slots := m.triangleSlots
  let number := m.numbering
  let triangles := slots.filterMap fun t => (m.cell t).triangle?
  let hull := hullOf (m.successors count)
  { triangles := triangles.toArray
    neighbours := (slots.map fun t => (m.cell t).across.map fun u => number.getD u none).toArray
    hull
    hullEdges := (Triangulation.cyclicPairs hull).map fun (i, j) => Edge.between i j
    onHull := hull.foldl (fun table i => table.setIfInBounds i true) (Array.replicate count false)
    incident := incidenceOf count triangles
    diagnostics :=
      { sampleCount := count
        triangleCount := triangles.length
        hullCount := hull.length
        tally := m.tally } }

end DelaunaySurface
