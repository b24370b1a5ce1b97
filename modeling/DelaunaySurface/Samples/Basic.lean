import DelaunaySurface.Failure
import DelaunaySurface.Plane.Rectangle
/-!
# Samples

Heights measured at points of the plane, kept in three columns of one length. A sample is known by
its index; removing one moves the later ones down. `toList` is the view that operations are described
by.
-/

namespace DelaunaySurface

/-- A height measured at a point of the plane. -/
structure Sample (α : Type) where
  x : α
  y : α
  z : α
  deriving DecidableEq, Repr

def Sample.point {α : Type} (s : Sample α) : Point α := ⟨s.x, s.y⟩

def Sample.zero {α : Type} [Zero α] : Sample α := ⟨0, 0, 0⟩

/-- The sample a share `t` of the way from `a` to `b`. -/
def Sample.between {α : Type} [Scalar α] (a b : Sample α) (t : α) : Sample α :=
  ⟨a.x + (b.x - a.x) * t, a.y + (b.y - a.y) * t, a.z + (b.z - a.z) * t⟩

structure Samples (α : Type) where
  xs : Array α
  ys : Array α
  zs : Array α
  ys_size : ys.size = xs.size := by simp
  zs_size : zs.size = xs.size := by simp
  deriving DecidableEq

namespace Samples

variable {α : Type}

def empty : Samples α where
  xs := #[]
  ys := #[]
  zs := #[]

instance : Inhabited (Samples α) := ⟨empty⟩

def size (s : Samples α) : Nat := s.xs.size

def isEmpty (s : Samples α) : Bool := s.xs.isEmpty

/-- Takes three columns, which must be of one length. -/
def ofColumns (xs ys zs : Array α) : Except Failure (Samples α) :=
  if h : ys.size = xs.size ∧ zs.size = xs.size then .ok ⟨xs, ys, zs, h.1, h.2⟩
  else .error (.unequalColumns xs.size ys.size zs.size)

def ofList (l : List (Sample α)) : Samples α where
  xs := (l.map (·.x)).toArray
  ys := (l.map (·.y)).toArray
  zs := (l.map (·.z)).toArray

def get (s : Samples α) (i : Fin s.size) : Sample α :=
  have hx : i.val < s.xs.size := i.isLt
  have hy : i.val < s.ys.size := by rw [s.ys_size]; exact i.isLt
  have hz : i.val < s.zs.size := by rw [s.zs_size]; exact i.isLt
  ⟨s.xs[i.val], s.ys[i.val], s.zs[i.val]⟩

def get? (s : Samples α) (i : Nat) : Option (Sample α) :=
  if h : i < s.size then some (s.get ⟨i, h⟩) else none

/-- The sample with an index, or the report that there is none. -/
def find (s : Samples α) (i : Nat) : Except Failure (Sample α) :=
  match s.get? i with
  | some p => .ok p
  | none => .error (.noSuchSample i s.size)

def toList (s : Samples α) : List (Sample α) :=
  List.ofFn s.get

@[simp] theorem length_toList (s : Samples α) : s.toList.length = s.size :=
  List.length_ofFn

def points (s : Samples α) : List (Point α) :=
  s.toList.map Sample.point

/-- The point below a sample; the origin where there is no sample. -/
def point [Zero α] (s : Samples α) (i : Nat) : Point α :=
  ⟨s.xs.getD i 0, s.ys.getD i 0⟩

/-- The height of a sample; zero where there is no sample. -/
def height [Zero α] (s : Samples α) (i : Nat) : α :=
  s.zs.getD i 0

variable [Scalar α]

/-- The first value of a column, carried through the others by `pick`. -/
def foldColumn (pick : α → α → α) (column : Array α) : Except Failure α :=
  match column.toList with
  | [] => .error .empty
  | a :: rest => .ok (rest.foldl pick a)

/-- The least abscissa; undefined ones are ignored beside others. -/
def xMin (s : Samples α) : Except Failure α := foldColumn Scalar.lesser s.xs

def xMax (s : Samples α) : Except Failure α := foldColumn Scalar.greater s.xs

def yMin (s : Samples α) : Except Failure α := foldColumn Scalar.lesser s.ys

def yMax (s : Samples α) : Except Failure α := foldColumn Scalar.greater s.ys

def zMin (s : Samples α) : Except Failure α := foldColumn Scalar.lesser s.zs

def zMax (s : Samples α) : Except Failure α := foldColumn Scalar.greater s.zs

def bounds (s : Samples α) : Except Failure (Rectangle α) :=
  match Rectangle.around? s.points with
  | some r => .ok r
  | none => .error .empty

/-- Only no samples have no bounds. -/
theorem bounds_cases (s : Samples α) :
    (s.isEmpty = false ∧ ∃ around, s.bounds = .ok around) ∨ s.isEmpty = true ∧ s.bounds = .error .empty := by
  have hlength : s.points.length = s.xs.size := by rw [points, List.length_map, length_toList, size]
  rw [isEmpty, Array.isEmpty, bounds]
  cases hpoints : s.points with
  | nil =>
    rw [hpoints] at hlength
    exact .inr ⟨decide_eq_true hlength.symm, rfl⟩
  | cons p points =>
    rw [hpoints, List.length_cons] at hlength
    exact .inl ⟨decide_eq_false (by omega), _, rfl⟩

end Samples

end DelaunaySurface
