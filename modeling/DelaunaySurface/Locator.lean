import DelaunaySurface.Plane.Segment
import DelaunaySurface.Triangulation.Basic
/-!
# Locating points

Where a point falls: in a triangle, or outside and nearest to an edge of the hull. A walk starts from
the triangle of the last answer and crosses any edge that has the point beyond it; a scan looks at
all triangles. A walk that goes on for too long is finished by a scan.
-/

namespace DelaunaySurface

inductive Location
  /-- In a triangle or on its border. -/
  | inside (triangle : Nat)
  /-- Outside the hull; `nearest` is the hull edge closest to it. -/
  | outside (nearest : Edge)
  deriving DecidableEq, Repr

namespace Location

def isOutside : Location → Bool
  | inside _ => false
  | outside _ => true

end Location

inductive Strategy
  /-- By a walk from the last answer. -/
  | walk
  /-- By looking at all triangles in their order. -/
  | scan
  deriving DecidableEq, Repr

/-- What locating remembers from one point to the next. -/
structure Locator where
  strategy : Strategy
  hint : Option Nat
  /-- Walks given up so far. -/
  fallbacks : Nat
  deriving DecidableEq, Repr

namespace Locator

/-- A locator that remembers nothing but where to start. -/
def fresh (strategy : Strategy) (hint : Option Nat) : Locator := ⟨strategy, hint, 0⟩

variable {α : Type} [Scalar α]

/-- The hull edge nearest to a point, the first of several; none without a hull. -/
def nearestEdge? (t : Triangulation) (s : Samples α) (p : Point α) : Option Edge :=
  let distance (e : Edge) := segmentDistanceSq p (s.point e.low) (s.point e.high)
  match t.hullEdges with
  | [] => none
  | e :: rest =>
    let nearest := rest.foldl (fun (best : Edge × α) f =>
      let d := distance f
      if d < best.2 then (f, d) else best) (e, distance e)
    some nearest.1

/-- The answer for a point outside; none without a hull. -/
def outside? (t : Triangulation) (s : Samples α) (p : Point α) : Option Location :=
  (nearestEdge? t s p).map .outside

/-- The point lies to the right of some side of the hull. -/
def beyondHull (t : Triangulation) (s : Samples α) (p : Point α) : Bool :=
  t.hullSides.any fun (i, j) => cross (s.point i) (s.point j) p < 0

/-- How deep a point lies in a triangle: the least of the three areas it forms with the sides. -/
def depth (t : Triangulation) (s : Samples α) (p : Point α) (i : Nat) : α :=
  let c := (t.triangle i).points s
  Scalar.lesser (Scalar.lesser (cross c.fst c.snd p) (cross c.snd c.trd p)) (cross c.trd c.fst p)

/-- The result of looking through triangles: the first that holds the point, or the one where it lies
least far outside. -/
inductive Scan (α : Type)
  | holds (triangle : Nat)
  | best (found : Option (Nat × α))

def scanFrom (t : Triangulation) (s : Samples α) (p : Point α) (best : Option (Nat × α)) :
    List Nat → Scan α
  | [] => .best best
  | i :: rest =>
    let d := depth t s p i
    if 0 ≤ d then .holds i
    else
      let better := match best with
        | none => true
        | some (_, known) => decide (known < d)
      scanFrom t s p (if better then some (i, d) else best) rest

/-- Locates by looking at all triangles. Rounding can leave a point on a common edge outside both its
triangles: unless it lies beyond the hull, it is put into the triangle that it is least far from. -/
def scan? (t : Triangulation) (s : Samples α) (p : Point α) : Option Location :=
  match scanFrom t s p none (List.range t.size) with
  | .holds i => some (.inside i)
  | .best found =>
    if beyondHull t s p then outside? t s p
    else match found with
      | some (i, _) => some (.inside i)
      | none => outside? t s p

/-- The first edge of a triangle that has the point beyond it, by its opposite corner. -/
def exit? (t : Triangulation) (s : Samples α) (p : Point α) (i : Nat) : Option (Fin 3) :=
  let c := (t.triangle i).points s
  Triple.indices.find? fun k => cross (c.get (Triple.next k)) (c.get (Triple.previous k)) p < 0

inductive WalkEnd
  /-- In a triangle with the point beyond none of its edges. -/
  | arrived (triangle : Nat)
  /-- At a hull edge of this triangle with the point beyond it. -/
  | left (triangle : Nat)
  /-- Too late. -/
  | givenUp
  deriving DecidableEq, Repr

/-- Walks toward the point through at most `steps` triangles. -/
def walkFrom (t : Triangulation) (s : Samples α) (p : Point α) : Nat → Nat → WalkEnd
  | 0, _ => .givenUp
  | steps + 1, i =>
    match exit? t s p i with
    | none => .arrived i
    | some k =>
      match t.neighbour? i k with
      | some next => walkFrom t s p steps next
      | none => .left i

/-- The triangle where a walk starts: the hint if there is such a triangle, else the first. -/
def start (t : Triangulation) (hint : Option Nat) : Nat :=
  (hint.filter (· < t.size)).getD 0

/-- Locates by a walk through at most one triangle more than there are. -/
def walk? (l : Locator) (t : Triangulation) (s : Samples α) (p : Point α) : Option Location × Locator :=
  match walkFrom t s p (t.size + 1) (start t l.hint) with
  | .arrived i => (some (.inside i), l)
  | .left i => (outside? t s p, { l with hint := some i })
  | .givenUp => (scan? t s p, { l with fallbacks := l.fallbacks + 1 })

/-- Locates a point, by the samples that the triangulation was built from, and remembers the triangle
of the answer. There is no answer for a point outside a triangulation without a hull. -/
def locate? (l : Locator) (t : Triangulation) (s : Samples α) (p : Point α) : Option Location × Locator :=
  let (found, l) := match l.strategy with
    | .walk => l.walk? t s p
    | .scan => (scan? t s p, l)
  match found with
  | some (.inside i) => (found, { l with hint := some i })
  | _ => (found, l)

end Locator

end DelaunaySurface
