import DelaunaySurface.Plane.Turn
import DelaunaySurface.Samples.Basic
import DelaunaySurface.Triple
/-!
# The schedule of a build

Which samples can be triangulated, in which order they are inserted, and the triangle to begin with.
The order runs through square buckets row by row, back and forth, so that samples inserted one after
the other are close together.
-/

namespace DelaunaySurface

namespace Schedule

variable {α : Type} [Scalar α]

/-! ## Validation -/

/-- The first sample with a coordinate that is not finite. -/
def notFinite? (s : Samples α) : Option Nat :=
  (List.range s.size).find? fun i => !Scalar.isFinite (s.point i).x || !Scalar.isFinite (s.point i).y

/-- Samples by abscissa, then ordinate, then index. -/
def placeOrder (s : Samples α) (i j : Nat) : Ordering :=
  let p := s.point i
  let q := s.point j
  (Scalar.order p.x q.x).then ((Scalar.order p.y q.y).then (compare i j))

/-- The first two neighbours of a list at the same place, the lower index first. -/
def firstTwins? (s : Samples α) : List Nat → Option (Nat × Nat)
  | i :: j :: rest =>
    if (s.point i).same (s.point j) then some (min i j, max i j) else firstTwins? s (j :: rest)
  | _ => none

/-- Two samples at the same place. Sorting brings such samples together. -/
def twins? (s : Samples α) : Option (Nat × Nat) :=
  firstTwins? s ((List.range s.size).mergeSort fun i j => placeOrder s i j != .gt)

/-- Accepts at least three samples with finite coordinates and no place in common. -/
def validate (s : Samples α) : Except Failure Unit :=
  match notFinite? s with
  | some i => .error (.notFinite i)
  | none =>
    if s.size < 3 then .error (.tooFew s.size)
    else match twins? s with
      | some (i, j) => .error (.duplicate i j)
      | none => .ok ()

/-! ## Order -/

/-- The least `c` from `c` upward such that `c * c` buckets of four hold `n` samples. -/
def bucketSideFrom (n c : Nat) : Nat → Nat
  | 0 => c
  | fuel + 1 => if n ≤ 4 * c * c then c else bucketSideFrom n (c + 1) fuel

/-- The number of rows and of columns of buckets: four samples to a bucket on average. -/
def bucketSide (n : Nat) : Nat := bucketSideFrom n 1 n

/-- The bucket of a coordinate among `count` over a range; the last one also takes what lies past it. -/
def bucket (count : Nat) (value low extent : α) : Nat :=
  if 0 < extent then min (Scalar.wholePart ((value - low) / extent * Scalar.ofCount count)) (count - 1)
  else 0

/-- What the order goes by. -/
structure Key where
  row : Nat
  /-- The column of the bucket, counted backwards in odd rows. -/
  column : Nat
  index : Nat
  deriving DecidableEq, Repr

/-- Keys by row, then column, then index. -/
def Key.le (a b : Key) : Bool :=
  a.row < b.row || a.row = b.row && (a.column < b.column || a.column = b.column && a.index ≤ b.index)

def key (s : Samples α) (around : Rectangle α) (i : Nat) : Key :=
  let count := bucketSide s.size
  let p := s.point i
  let row := bucket count p.y around.yMin around.height
  let column := bucket count p.x around.xMin around.width
  ⟨row, if row % 2 = 1 then count - 1 - column else column, i⟩

/-- The samples in the order in which they are inserted. -/
def order (s : Samples α) : List Nat :=
  match s.bounds with
  | .error _ => List.range s.size
  | .ok around => (((List.range s.size).map (key s around)).mergeSort Key.le).map (·.index)

/-! ## The first triangle -/

/-- The first sample of a list that is not in line with `a` and `b`, with the counter-clockwise
triangle of the three and the samples without it. -/
def firstTriangle? (tol : Tolerance α) (s : Samples α) (a b : Nat) (l : List Nat) :
    Option (Triple Nat × List Nat) :=
  let turnAt (c : Nat) := turn tol (s.point a) (s.point b) (s.point c)
  match l.span (turnAt · = .straight) with
  | (_, []) => none
  | (inLine, c :: rest) =>
    some (if turnAt c = .left then ⟨a, b, c⟩ else ⟨a, c, b⟩, inLine ++ rest)

/-- The triangle of the first two samples and the first one not in line with them, and the others in
their order. -/
def seed (tol : Tolerance α) (s : Samples α) : List Nat → Except Failure (Triple Nat × List Nat)
  | a :: b :: rest =>
    match firstTriangle? tol s a b rest with
    | some found => .ok found
    | none => .error .collinear
  | _ => .error .collinear

end Schedule

end DelaunaySurface
