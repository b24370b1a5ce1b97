import DelaunaySurface.Formula.Basic
import DelaunaySurface.Double.Elementary
import DelaunaySurface.Scalar
/-!
# Evaluating formulas

Operands from left to right, arguments before the function is looked up; the first error ends it.
-/

namespace DelaunaySurface

def Operator.apply : Operator → Float → Float → Float
  | add, a, b => a + b
  | subtract, a, b => a - b
  | multiply, a, b => a * b
  | divide, a, b => a / b
  | remainder, a, b => Double.remainder a b
  | power, a, b => a.pow b

namespace Formula

/-- The functions of one argument. -/
def unary? : String → Option (Float → Float)
  | "sqrt" => some Float.sqrt
  | "exp" => some Float.exp
  | "ln" => some Float.log
  | "abs" => some Float.abs
  | "sin" => some Float.sin
  | "cos" => some Float.cos
  | "tan" => some Float.tan
  | "asin" => some Float.asin
  | "acos" => some Float.acos
  | "atan" => some Float.atan
  | "sinh" => some Float.sinh
  | "cosh" => some Float.cosh
  | "tanh" => some Float.tanh
  | "asinh" => some Float.asinh
  | "acosh" => some Float.acosh
  | "atanh" => some Float.atanh
  | "floor" => some Float.floor
  | "ceil" => some Float.ceil
  | "round" => some Float.round
  | "signum" => some Double.signum
  | _ => none

/-- Applies a function. `max` and `min` take any positive number of arguments and ignore undefined
ones. -/
def applyFunction (name : String) (arguments : List Float) : Except Error Float :=
  match name with
  | "atan2" =>
    match arguments with
    | [y, x] => .ok (Float.atan2 y x)
    | _ => .error (.argumentCount name 2)
  | "max" => .ok (arguments.foldl Scalar.greater (-Double.infinity))
  | "min" => .ok (arguments.foldl Scalar.lesser Double.infinity)
  | _ =>
    match unary? name, arguments with
    | some f, [a] => .ok (f a)
    | some _, _ => .error (.argumentCount name 1)
    | none, _ => .error (.unknownFunction name)

/-- The names with a value of their own. -/
def constant? : String → Option Float
  | "pi" => some 3.141592653589793
  | "e" => some 2.718281828459045
  | _ => none

mutual

/-- The value of a formula, given the values of its variables. -/
def evaluate (known : String → Option Float) : Formula → Except Error Float
  | .number value => .ok value
  | .variable name =>
    match known name <|> constant? name with
    | some value => .ok value
    | none => .error (.unknownVariable name)
  | .signed minus operand => do
    let a ← evaluate known operand
    return if minus then -a else a
  | .binary operator left right => do
    let a ← evaluate known left
    let b ← evaluate known right
    return operator.apply a b
  | .call name arguments => do
    let values ← evaluateAll known arguments
    applyFunction name values

/-- The values of a list of formulas, up to the first error. -/
def evaluateAll (known : String → Option Float) : List Formula → Except Error (List Float)
  | [] => .ok []
  | f :: fs => do
    let a ← evaluate known f
    let rest ← evaluateAll known fs
    return a :: rest

end

end Formula

end DelaunaySurface
