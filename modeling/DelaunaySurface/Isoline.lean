import DelaunaySurface.Triangulation.Basic
import Std.Data.HashMap
import Std.Data.HashSet
/-!
# Isolines

The lines at one level of the surface. A triangle with corners on both sides of the level is crossed
between two of its edges; crossings with an edge in common are strung together. A line that begins on
the hull ends there; every other line closes.
-/

namespace DelaunaySurface

/-- A line at one level. A closed line does not repeat its first point. -/
structure Isoline (α : Type) where
  points : List (Point α)
  /-- The last point is connected with the first. -/
  closed : Bool
  deriving DecidableEq, Repr

namespace Isoline

def length (l : Isoline Float) : Float :=
  let distance (p q : Point Float) := Double.hypotenuse (q.x - p.x) (q.y - p.y)
  let stretch := Scalar.sum ((l.points.zip l.points.tail).map fun (p, q) => distance p q)
  match l.closed, l.points.head?, l.points.getLast? with
  | true, some first, some last => stretch + distance last first
  | _, _, _ => stretch

variable {α : Type} [Scalar α]

/-- The sample is at the level or above it. -/
def reaches (s : Samples α) (level : α) (i : Nat) : Bool :=
  level ≤ s.height i

/-- The ends of the edge are on different sides of the level. -/
def cuts (s : Samples α) (level : α) (e : Edge) : Bool :=
  reaches s level e.low != reaches s level e.high

/-- Where the level crosses an edge, by linear interpolation. -/
def crossing (s : Samples α) (level : α) (e : Edge) : Point α :=
  let a := s.point e.low
  let b := s.point e.high
  let za := s.height e.low
  let zb := s.height e.high
  let t := (level - za) / (zb - za)
  ⟨a.x + t * (b.x - a.x), a.y + t * (b.y - a.y)⟩

/-- The two edges between which the level crosses a triangle. -/
def segment? (s : Samples α) (level : α) (t : Triangle) : Option (Edge × Edge) :=
  match t.edges.filter (cuts s level) with
  | [e, f] => some (e, f)
  | _ => none

def segments (t : Triangulation) (s : Samples α) (level : α) : List (Edge × Edge) :=
  t.triangles.toList.filterMap (segment? s level)

/-- For each crossed edge the edges it is connected with, in the order of the triangles. -/
abbrev Links := Std.HashMap Edge (List Edge)

def linked (links : Links) (e : Edge) : List Edge := links.getD e []

def link (links : Links) (segment : Edge × Edge) : Links :=
  let links := links.insert segment.1 (linked links segment.1 ++ [segment.2])
  links.insert segment.2 (linked links segment.2 ++ [segment.1])

def linksOf (segments : List (Edge × Edge)) : Links :=
  segments.foldl link ∅

/-- The edges that a segment links with an edge. -/
def partners (e : Edge) (segment : Edge × Edge) : List Edge :=
  (if segment.1 = e then [segment.2] else []) ++ if segment.2 = e then [segment.1] else []

theorem linked_link (links : Links) (segment : Edge × Edge) (e : Edge) :
    linked (link links segment) e = linked links e ++ partners e segment := by
  obtain ⟨a, b⟩ := segment
  simp only [link, linked, partners, Std.HashMap.getD_insert, beq_iff_eq]
  by_cases ha : a = e <;> by_cases hb : b = e <;> simp [ha, hb]

theorem linked_foldl_link (segments : List (Edge × Edge)) (links : Links) (e : Edge) :
    linked (segments.foldl link links) e = linked links e ++ segments.flatMap (partners e) := by
  induction segments generalizing links with
  | nil => simp
  | cons segment segments ih => simp [ih, linked_link]

/-- An edge is linked with the other ends of its segments, in their order. -/
theorem linked_linksOf (segments : List (Edge × Edge)) (e : Edge) :
    linked (linksOf segments) e = segments.flatMap (partners e) := by
  rw [linksOf, linked_foldl_link]
  simp [linked]

/-- Equal neighbours of a list become one. -/
def withoutRepeats (edges : List Edge) : List Edge :=
  edges.foldr (fun e rest => if rest.head? = some e then rest else e :: rest) []

/-- The crossed edges in order. -/
def nodes (segments : List (Edge × Edge)) : List Edge :=
  withoutRepeats ((segments.flatMap fun (e, f) => [e, f]).mergeSort Edge.le)

/-- Follows links from `e` over edges not visited before, at most `steps` of them. -/
def follow (links : Links) : Nat → Std.HashSet Edge → Edge → List Edge × Std.HashSet Edge
  | 0, visited, _ => ([], visited)
  | steps + 1, visited, e =>
    let visited := visited.insert e
    match (linked links e).find? fun f => !visited.contains f with
    | some f =>
      let (path, visited) := follow links steps visited f
      (e :: path, visited)
    | none => ([e], visited)

/-- Traces a path from each of the given edges that no path has visited yet. -/
def traceFrom (links : Links) (steps : Nat) (starts : Edge → Bool) :
    Std.HashSet Edge → List Edge → List (List Edge) × Std.HashSet Edge
  | visited, [] => ([], visited)
  | visited, e :: rest =>
    if starts e && !visited.contains e then
      let (path, visited) := follow links steps visited e
      let (paths, visited) := traceFrom links steps starts visited rest
      (path :: paths, visited)
    else traceFrom links steps starts visited rest

/-- The paths over crossed edges, each with whether it closes. First those that begin at an edge with a
single link, which is on the hull, then the rest. -/
def paths (segments : List (Edge × Edge)) : List (List Edge × Bool) :=
  let links := linksOf segments
  let nodes := nodes segments
  let (opened, visited) := traceFrom links nodes.length (fun e => (linked links e).length = 1) ∅ nodes
  let (closed, _) := traceFrom links nodes.length (fun _ => true) visited nodes
  opened.map (·, false) ++ closed.map (·, true)

def atLevel (t : Triangulation) (s : Samples α) (level : α) : List (Isoline α) :=
  (paths (segments t s level)).map fun (path, closed) => ⟨path.map (crossing s level), closed⟩

end Isoline

end DelaunaySurface
