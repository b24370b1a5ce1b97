/-!
# Scalars

The geometry is written once, over any type of numbers with the operations below. No law is
assumed of them: `Float` rounds, overflows and has values that compare with nothing, while `Rat`
is exact. A definition read at `Float` is the program; read at `Rat` it is the geometry meant.
-/

namespace DelaunaySurface

/-- Numbers that coordinates and heights are made of. -/
class Scalar (α : Type) extends Zero α, One α, Add α, Sub α, Mul α, Div α, Neg α, LT α, LE α,
    BEq α, OfScientific α where
  decLt : DecidableLT α
  decLe : DecidableLE α
  ofCount : Nat → α
  abs : α → α
  /-- Neither infinite nor undefined. -/
  isFinite : α → Bool
  /-- Holds of a value that is no number; such a value compares with nothing. -/
  isUndefined : α → Bool
  /-- The value of an expression that has none. -/
  undefined : α
  /-- The whole part of a number of at least 1, cut off at the largest word; 0 for anything else. -/
  wholePart : α → Nat
  /-- A total order that refines `<`, for sorting. -/
  order : α → α → Ordering

namespace Scalar

variable {α : Type} [Scalar α]

instance : DecidableLT α := Scalar.decLt

instance : DecidableLE α := Scalar.decLe

/-- The lesser of two numbers: an undefined one gives way, and of equals the second is taken, which shows
where zeros differ in sign. -/
def lesser (a b : α) : α :=
  if isUndefined b then a else if a < b then a else b

/-- The greater of two numbers: an undefined one gives way, and of equals the second is taken. -/
def greater (a b : α) : α :=
  if isUndefined b then a else if b < a then a else b

/-- Moves a number into `[lo, hi]`; an undefined one stays undefined. -/
def clamp (a lo hi : α) : α :=
  let a := if a < lo then lo else a
  if hi < a then hi else a

/-- The sum from left to right. It starts at negative zero, the neutral element of rounding
addition, so that a sum of negative zeros is one. -/
def sum (xs : List α) : α :=
  xs.foldl (· + ·) (-0)

end Scalar

/-! ## Double precision -/

/-- The place of a double in the total order of its bits: negative numbers run backwards, and
negative zero comes right before zero. -/
def bitRank (a : Float) : Int :=
  let n := a.toBits.toNat
  if n < 0x8000000000000000 then n else 0x7FFFFFFFFFFFFFFF - n

instance : Scalar Float where
  zero := 0
  one := 1
  decLt := inferInstance
  decLe := inferInstance
  ofCount := Float.ofNat
  abs := Float.abs
  isFinite := Float.isFinite
  isUndefined := Float.isNaN
  undefined := 0 / 0
  wholePart a := a.toUInt64.toNat
  order a b := compare (bitRank a) (bitRank b)

/-! ## Exact numbers -/

instance : Scalar Rat where
  zero := 0
  one := 1
  decLt := inferInstance
  decLe := inferInstance
  ofCount n := n
  abs := Rat.abs
  isFinite _ := true
  isUndefined _ := false
  undefined := 0
  wholePart a := a.floor.toNat
  order a b := if a < b then .lt else if b < a then .gt else .eq

end DelaunaySurface
