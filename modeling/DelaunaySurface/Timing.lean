/-!
# Timings

Times taken by the kinds of work on a surface, in nanoseconds. Sums stop at the largest word.
-/

namespace DelaunaySurface

/-- Nanoseconds for each kind of work. -/
structure Timing where
  building : Nat
  interpolating : Nat
  sampling : Nat
  contouring : Nat
  deriving DecidableEq, Repr

namespace Timing

def add (a b : Nat) : Nat := min (a + b) 0xFFFFFFFFFFFFFFFF

def total (t : Timing) : Nat :=
  add (add (add t.building t.interpolating) t.sampling) t.contouring

def milliseconds (t : Timing) : Float :=
  Float.ofNat t.total / 1000000

end Timing

end DelaunaySurface
