import DelaunaySurface.Double.Parts
/-!
# Shortest decimals

The fewest digits that read back as a given double, and among those the decimal nearest to it. The
numbers that round to the double form an interval around it; grids of 1, 2, … 17 digits are tried
until a point of the grid next to the double lies in it.
-/

namespace DelaunaySurface.Double

/-- The decimal `digits * 10 ^ exponent`. -/
structure Decimal where
  /-- The digits as one number. -/
  digits : Nat
  /-- The place of the last digit. -/
  exponent : Int
  deriving DecidableEq, Repr

/-- A positive value and the interval that rounds to it, in a common unit: the unit itself does not
matter, only the ratios to `one`. -/
structure Reach where
  one : Nat
  value : Nat
  /-- The lower end of the interval. -/
  low : Nat
  /-- The upper end of the interval. -/
  high : Nat
  /-- The ends belong to the interval. -/
  closed : Bool

/-- The interval reaches half-way to the neighbours. The neighbour below a power of two is nearer,
except at the smallest exponent. A value half-way between two doubles goes to the even one. -/
def reach (p : Parts) : Reach :=
  let unit := Nat.pow 2 (p.exponent - 2).toNat
  let below := if p.significand = 0x10000000000000 ∧ -1074 < p.exponent then 1 else 2
  { one := Nat.pow 2 (2 - p.exponent).toNat
    value := 4 * p.significand * unit
    low := (4 * p.significand - below) * unit
    high := (4 * p.significand + 2) * unit
    closed := p.significand % 2 = 0 }

/-- The number of digits before the decimal point, counted downward for numbers below 0.1: the least
`k` with `value < 10 ^ k`, searched upward from `k`. -/
def magnitudeFrom (r : Reach) (k : Int) : Nat → Int
  | 0 => k
  | fuel + 1 =>
    if r.value * Nat.pow 10 (-k).toNat < r.one * Nat.pow 10 k.toNat then k else magnitudeFrom r (k + 1) fuel

/-- The order of magnitude: the least `k` with the number below `10 ^ k`. -/
def magnitude (p : Parts) : Int :=
  magnitudeFrom (reach p) (((p.significand.log2 : Int) + p.exponent) * 30103 / 100000) 3

/-- The neighbours of the value on the grid of multiples of `10 ^ exponent`: the one in the interval,
of two the nearer, and of two as near the greater. -/
def onGrid? (r : Reach) (exponent : Int) : Option Decimal :=
  let step := r.one * Nat.pow 10 exponent.toNat
  let scale := Nat.pow 10 (-exponent).toNat
  let value := r.value * scale
  let below := value / step
  let lowFits := if r.closed then r.low * scale ≤ below * step else r.low * scale < below * step
  let highFits := if r.closed then (below + 1) * step ≤ r.high * scale
    else (below + 1) * step < r.high * scale
  let belowNearer := value - below * step < (below + 1) * step - value
  if lowFits ∧ (¬ highFits ∨ belowNearer) then some ⟨below, exponent⟩
  else if highFits then some ⟨below + 1, exponent⟩
  else none

/-- Tries grids of `count` digits and more. -/
def shortestFrom (r : Reach) (top : Int) (count : Nat) : Nat → Decimal
  | 0 => ⟨0, 0⟩
  | fuel + 1 =>
    match onGrid? r (top - count) with
    | some d => d
    | none => shortestFrom r top (count + 1) fuel

/-- The shortest decimal of a positive number; 17 digits always suffice. -/
def shortest (p : Parts) : Decimal :=
  shortestFrom (reach p) (magnitude p) 1 17

/-- Positional notation: no exponent, no point in a whole number. -/
def Decimal.positional (d : Decimal) : List Char :=
  let all := Nat.toDigits 10 d.digits
  let digits := (all.reverse.dropWhile (· == '0')).reverse
  let exponent := d.exponent + (all.length - digits.length : Nat)
  let point := digits.length + exponent
  if 0 ≤ exponent then digits ++ List.replicate exponent.toNat '0'
  else if 0 < point then digits.take point.toNat ++ '.' :: digits.drop point.toNat
  else '0' :: '.' :: (List.replicate (-point).toNat '0' ++ digits)

/-- The text of a double: the shortest decimal in positional notation, `-0` for negative zero, and
`NaN`, `inf` and `-inf` for what is not finite. -/
def render (a : Float) : String :=
  match parts? a with
  | none => if a.isNaN then "NaN" else if a < 0 then "-inf" else "inf"
  | some p =>
    let size := if p.significand = 0 then ['0'] else (shortest p).positional
    String.ofList (if p.negative then '-' :: size else size)

end DelaunaySurface.Double
