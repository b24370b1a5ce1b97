import DelaunaySurface.Failure
import DelaunaySurface.Mesh.Basic
/-!
# Cavities

The cells that make room for a new point: those connected with the first one whose regions hold the
point, and then any whose common side with the cavity the point cannot see. Each cell absorbed is
charged to a budget for the whole mesh, so both searches end whatever the verdicts are.
-/

namespace DelaunaySurface

/-- A cavity as it grows. -/
structure Cavity where
  /-- The marks of the mesh, with the members marked. -/
  mark : Array Nat
  /-- The slots absorbed, in this order. -/
  members : Array Nat
  /-- Cells absorbed so far, earlier insertions included. -/
  operations : Nat
  /-- Members absorbed only to open the view. -/
  repairs : Nat
  deriving DecidableEq, Repr

/-- A side of a cavity with the cell outside it. -/
structure RimSide where
  /-- The side, with the cavity on its left. -/
  side : Side
  /-- The slot on its right. -/
  outside : Nat
  deriving DecidableEq, Repr

namespace Mesh

/-- The cavity of the next insertion before it absorbs anything. -/
def unopened (m : Mesh) : Cavity where
  mark := m.mark
  members := #[]
  operations := m.tally.operations
  repairs := 0

/-- The slot is in the cavity of the insertion under way. -/
def absorbed (m : Mesh) (c : Cavity) (t : Nat) : Bool :=
  c.mark.getD t 0 = m.stamp

def absorb (m : Mesh) (c : Cavity) (t : Nat) : Cavity :=
  { c with
    mark := c.mark.setIfInBounds t m.stamp
    members := c.members.push t
    operations := c.operations + 1 }

/-- Absorbs conflicting cells breadth first; `todo` are the slots next to look at. -/
def spread (m : Mesh) (v : Verdicts) (budget : Nat) (c : Cavity) (todo : List Nat) :
    Except Failure Cavity :=
  match todo with
  | [] => .ok c
  | t :: todo =>
    if m.absorbed c t || !m.conflicts v t then spread m v budget c todo
    else if c.operations < budget then
      spread m v budget (m.absorb c t) (todo ++ (m.cell t).across.toList)
    else .error (.budgetExceeded budget)
termination_by 4 * (budget - c.operations) + todo.length
decreasing_by
  · simp
  · simp only [absorb, Triple.toList, List.length_append, List.length_cons, List.length_nil]
    omega

/-- The first cell and all conflicting ones connected with it; the first need not conflict. -/
def conflictRegion (m : Mesh) (v : Verdicts) (budget : Nat) (start : Nat) : Except Failure Cavity :=
  if m.unopened.operations < budget then
    spread m v budget (m.absorb m.unopened start) (m.cell start).across.toList
  else .error (.budgetExceeded budget)

/-- The sides of members with a cell outside the cavity on their right, in the order of the members. -/
def rim (m : Mesh) (c : Cavity) : List RimSide :=
  c.members.toList.flatMap fun t =>
    Triple.indices.filterMap fun k =>
      let outside := (m.cell t).across.get k
      if m.absorbed c outside then none else some ⟨(m.cell t).side k, outside⟩

/-- Absorbs the cell behind the first side of the rim that the point cannot see, until it sees all. -/
def clearView (m : Mesh) (v : Verdicts) (budget : Nat) (c : Cavity) : Except Failure Cavity :=
  match (m.rim c).find? fun s => v.blocked s.side with
  | none => .ok c
  | some s =>
    if c.operations < budget then
      clearView m v budget { m.absorb c s.outside with repairs := c.repairs + 1 }
    else .error (.budgetExceeded budget)
termination_by budget - c.operations
decreasing_by simp only [absorb]; omega

end Mesh

end DelaunaySurface
