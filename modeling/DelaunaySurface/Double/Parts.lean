/-!
# The parts of a double

A finite double is a whole number times a power of two. Arithmetic that must be exact is done on
these two numbers.
-/

namespace DelaunaySurface.Double

/-- A finite double as `± significand * 2 ^ exponent`. -/
structure Parts where
  negative : Bool
  /-- The whole number, below `2 ^ 53`. -/
  significand : Nat
  /-- The power of two, at least `-1074`. -/
  exponent : Int
  deriving DecidableEq, Repr

/-- The parts of a double; none of an infinite or undefined one. -/
def parts? (a : Float) : Option Parts :=
  let bits := a.toBits.toNat
  let field : Nat := bits / 0x10000000000000 % 0x800
  let fraction := bits % 0x10000000000000
  let negative := bits / 0x8000000000000000 = 1
  if field = 0x7FF then none
  else if field = 0 then some ⟨negative, fraction, -1074⟩
  else some ⟨negative, 0x10000000000000 + fraction, (field : Int) - 1075⟩

end DelaunaySurface.Double
