import DelaunaySurface.Double.Elementary
/-!
# Numerals

Reading numbers from text. A double is written with digits, an optional point and an optional
exponent, or as `inf`, `infinity` or `nan`; a count with digits alone. Nothing else is read, and
nothing may be left over.
-/

namespace DelaunaySurface

/-- The number that a list of decimal digits stands for. -/
def digitsValue (ds : List Char) : Nat :=
  ds.foldl (fun n d => 10 * n + (d.toNat - '0'.toNat)) 0

/-- The largest count that is read. -/
def largestCount : Nat := 0xFFFFFFFFFFFFFFFF

/-- Reads a count: an optional `+` and at least one digit, up to the largest count. -/
def readCount? (cs : List Char) : Option Nat :=
  let ds := match cs with
    | '+' :: r => r
    | r => r
  if ds.isEmpty || !ds.all Char.isDigit || largestCount < digitsValue ds then none else some (digitsValue ds)

namespace Double

/-- The double nearest to `digits * 10 ^ exponent`, infinite when out of range. -/
def nearest (digits : Nat) (exponent : Int) : Float :=
  let top := exponent + (Nat.toDigits 10 digits).length
  if digits = 0 || top < -400 then 0
  else if 400 < top then infinity
  else Float.ofScientific digits (exponent < 0) exponent.natAbs

/-- Splits off an optional sign; the flag says whether it is `-`. -/
def splitSign : List Char → Bool × List Char
  | '-' :: r => (true, r)
  | '+' :: r => (false, r)
  | r => (false, r)

/-- Reads what follows the digits: nothing, or an exponent to the end. -/
def readExponent? : List Char → Option Int
  | [] => some 0
  | c :: r =>
    let (negative, ds) := splitSign r
    if (c == 'e' || c == 'E') && !ds.isEmpty && ds.all Char.isDigit then
      some (if negative then -digitsValue ds else digitsValue ds)
    else none

/-- Reads a number without sign that has at least one digit before or after the point. -/
def readDigits? (cs : List Char) : Option Float :=
  let whole := cs.takeWhile Char.isDigit
  let afterWhole := cs.dropWhile Char.isDigit
  let (fraction, rest) := match afterWhole with
    | '.' :: r => (r.takeWhile Char.isDigit, r.dropWhile Char.isDigit)
    | r => ([], r)
  if whole.isEmpty && fraction.isEmpty then none
  else (readExponent? rest).map fun e => nearest (digitsValue (whole ++ fraction)) (e - fraction.length)

/-- Reads a double: an optional sign, then a number or, in any case of letters, `inf`, `infinity`
or `nan`. -/
def read? (cs : List Char) : Option Float :=
  let (negative, size) := splitSign cs
  let word := String.ofList (size.map Char.toLower)
  let value :=
    if word == "inf" || word == "infinity" then some infinity
    else if word == "nan" then some undefined
    else readDigits? size
  value.map fun a => if negative then -a else a

end Double

end DelaunaySurface
