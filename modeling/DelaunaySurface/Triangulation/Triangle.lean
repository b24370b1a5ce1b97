import DelaunaySurface.Double.Elementary
import DelaunaySurface.Plane.Circle
import DelaunaySurface.Plane.Turn
import DelaunaySurface.Samples.Basic
import DelaunaySurface.Triple
/-!
# Triangles and edges

A triangle names three samples by their indices and owns no coordinates.
-/

namespace DelaunaySurface

/-- An edge between two samples, in either direction. -/
structure Edge where
  low : Nat
  high : Nat
  deriving DecidableEq, Hashable, Repr, Inhabited

namespace Edge

def between (p q : Nat) : Edge :=
  if p < q then ⟨p, q⟩ else ⟨q, p⟩

/-- Edges in the order of their lower, then of their higher ends. -/
def le (e f : Edge) : Bool :=
  e.low < f.low || e.low = f.low && e.high ≤ f.high

end Edge

/-- Three samples in counter-clockwise order. -/
abbrev Triangle := Triple Nat

namespace Triangle

/-- The edge opposite corner `k`. -/
def edge (t : Triangle) (k : Fin 3) : Edge :=
  Edge.between (t.get (Triple.next k)) (t.get (Triple.previous k))

def edges (t : Triangle) : List Edge :=
  Triple.indices.map (edge t)

def hasCorner (t : Triangle) (i : Nat) : Bool :=
  decide (i ∈ t)

def sorted (t : Triangle) : List Nat :=
  t.toList.mergeSort (· ≤ ·)

variable {α : Type} [Scalar α]

def points (t : Triangle) (s : Samples α) : Triple (Point α) :=
  t.map s.point

def isAmong (t : Triangle) (s : Samples α) : Bool :=
  t.toList.all (· < s.size)

/-- The area, positive when counter-clockwise. -/
def signedArea (t : Triangle) (s : Samples α) : α :=
  let p := t.points s
  0.5 * cross p.fst p.snd p.trd

/-- The centre of the circle through the corners. -/
def circumcentre? (t : Triangle) (s : Samples α) : Option (Point α) :=
  let p := t.points s
  DelaunaySurface.circumcentre? p.fst p.snd p.trd

/-- The radius of the circle through the corners. -/
def circumradius? (t : Triangle) (s : Samples Float) : Option Float :=
  (t.circumcentre? s).map fun o =>
    let a := s.point t.fst
    Double.hypotenuse (a.x - o.x) (a.y - o.y)

/-- The height at `p` of the plane through the three samples. The weights of the corners are formed
so that at a corner its own weight is one and the others are zero. Undefined on no area. -/
def planarHeight (t : Triangle) (s : Samples α) (p : Point α) : α :=
  let a := s.point t.fst
  let b := s.point t.snd
  let c := s.point t.trd
  let area := cross a b c
  if area == 0 then Scalar.undefined
  else
    let wa := cross p b c / area
    let wb := cross a p c / area
    let wc := cross a b p / area
    wa * s.height t.fst + wb * s.height t.snd + wc * s.height t.trd

end Triangle

end DelaunaySurface
