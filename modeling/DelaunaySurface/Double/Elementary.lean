import DelaunaySurface.Double.Parts
/-!
# Elementary functions of doubles

The functions that formulas and lengths need beyond those that come with `Float`.
-/

namespace DelaunaySurface.Double

def undefined : Float := 0 / 0

def infinity : Float := 1 / 0

/-- The remainder of a division that rounds toward zero, computed without rounding; it has the sign
of the dividend. -/
def remainder (a b : Float) : Float :=
  match parts? a, parts? b with
  | none, _ => undefined
  | some _, none => if b.isNaN then b else a
  | some p, some q =>
    if q.significand = 0 then undefined
    else
      let e := min p.exponent q.exponent
      let r := p.significand * Nat.pow 2 (p.exponent - e).toNat %
        (q.significand * Nat.pow 2 (q.exponent - e).toNat)
      let size := (Float.ofNat r).scaleB e
      if p.negative then -size else size

/-- The length of the hypotenuse, without overflow on the way. It is infinite with a leg, even beside an
undefined one. -/
def hypotenuse (a b : Float) : Float :=
  if a.isInf || b.isInf then infinity
  else if a == 0 then b.abs
  else if b == 0 then a.abs
  else
    let long := if a.abs < b.abs then b.abs else a.abs
    let short := if a.abs < b.abs then a.abs else b.abs
    let r := short / long
    long * (1 + r * r).sqrt

/-- The magnitude of `a` with the sign of `b`. -/
def withSign (a b : Float) : Float :=
  if b.toBits.toNat / 0x8000000000000000 = 1 then -a.abs else a.abs

/-- 1 with the sign of the argument, also for the two zeros; undefined stays undefined. -/
def signum (a : Float) : Float :=
  if a.isNaN then a else withSign 1 a

end DelaunaySurface.Double
