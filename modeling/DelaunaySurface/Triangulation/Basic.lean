import DelaunaySurface.Mesh.Basic
import DelaunaySurface.Triangulation.Triangle
/-!
# Triangulations

The published tables of a finished mesh: triangles, what lies across their edges, and the hull. They
refer to samples by index and go with exactly the samples they were built from.
-/

namespace DelaunaySurface

/-- Counts from building a triangulation. -/
structure Diagnostics where
  sampleCount : Nat
  triangleCount : Nat
  hullCount : Nat
  tally : Tally
  deriving DecidableEq, Repr

/-- A triangulation of samples. -/
structure Triangulation where
  triangles : Array Triangle
  /-- For each triangle the triangle across the edge opposite each corner; none across the hull. -/
  neighbours : Array (Triple (Option Nat))
  /-- The hull, counter-clockwise from its lowest index. -/
  hull : List Nat
  /-- The edges of the hull in the same order. -/
  hullEdges : List Edge
  /-- For each sample, whether it is on the hull. -/
  onHull : Array Bool
  /-- For each sample the first triangle at it. -/
  incident : Array (Option Nat)
  diagnostics : Diagnostics
  deriving DecidableEq, Repr

namespace Triangulation

def size (t : Triangulation) : Nat := t.triangles.size

def isEmpty (t : Triangulation) : Bool := t.triangles.isEmpty

def triangle (t : Triangulation) (i : Nat) : Triangle := t.triangles.getD i ⟨0, 0, 0⟩

/-- The triangle across the edge of triangle `i` opposite corner `k`; none across the hull. -/
def neighbour? (t : Triangulation) (i : Nat) (k : Fin 3) : Option Nat :=
  (t.neighbours.getD i ⟨none, none, none⟩).get k

def isOnHull (t : Triangulation) (i : Nat) : Bool := t.onHull.getD i false

def incidentTriangle? (t : Triangulation) (i : Nat) : Option Nat := t.incident.getD i none

def sampleCount (t : Triangulation) : Nat := t.incident.size

/-- Joins equal neighbours of a list into one entry with their number. -/
def countRuns (edges : List Edge) : List (Edge × Nat) :=
  edges.foldr (fun e runs =>
    match runs with
    | (f, n) :: rest => if e = f then (f, n + 1) :: rest else (e, 1) :: runs
    | [] => [(e, 1)]) []

/-- All edges in order, each with the number of triangles at it. -/
def edgeIncidence (t : Triangulation) : List (Edge × Nat) :=
  countRuns ((t.triangles.toList.flatMap Triangle.edges).mergeSort Edge.le)

def edges (t : Triangulation) : List Edge :=
  t.edgeIncidence.map (·.1)

/-- The pairs of neighbours around a list, the last one with the first. -/
def cyclicPairs {β : Type} : List β → List (β × β)
  | [] => []
  | a :: rest => (a :: rest).zip (rest ++ [a])

/-- The pairs of samples that follow one another on the hull. -/
def hullSides (t : Triangulation) : List (Nat × Nat) :=
  cyclicPairs t.hull

variable {α : Type} [Scalar α]

def area (t : Triangulation) (s : Samples α) : α :=
  Scalar.sum (t.triangles.toList.map (·.signedArea s))

/-- The area within the hull, by triangles from its first sample. -/
def hullArea (t : Triangulation) (s : Samples α) : α :=
  match t.hull with
  | [] => 0
  | first :: rest =>
    let o := s.point first
    let doubled := (rest.zip rest.tail).map fun (i, j) =>
      let p := s.point i
      let q := s.point j
      (p.x - o.x) * (q.y - o.y) - (q.x - o.x) * (p.y - o.y)
    0.5 * Scalar.sum doubled

end Triangulation

end DelaunaySurface
