/-!
# Formulas

Arithmetic expressions over named variables, and what can go wrong when one is read or evaluated.
-/

namespace DelaunaySurface

inductive Operator
  | add
  | subtract
  | multiply
  | divide
  /-- Remainder of division toward zero. -/
  | remainder
  | power
  deriving DecidableEq, Repr

inductive Formula
  | number (value : Float)
  /-- A name that stands for a value. -/
  | variable (name : String)
  /-- A sign in front of an operand. -/
  | signed (minus : Bool) (operand : Formula)
  /-- Two operands with an operator between them. -/
  | binary (operator : Operator) (left right : Formula)
  /-- A function applied to its arguments. -/
  | call (name : String) (arguments : List Formula)

namespace Formula

/-- Why a formula has no value. -/
inductive Error
  /-- The character at this byte offset can begin nothing that may stand there. -/
  | unexpected (offset : Nat)
  /-- The text ends where an operand should stand. -/
  | missingOperand
  /-- The text ends with this many parentheses open, at least one. -/
  | unclosed (count : Nat)
  | unknownVariable (name : String)
  | unknownFunction (name : String)
  /-- The function takes another number of arguments. -/
  | argumentCount (name : String) (expected : Nat)
  deriving DecidableEq, Repr

def Error.message : Error → String
  | .unexpected offset => s!"Parse error: Unexpected token at byte {offset}."
  | .missingOperand => "Parse error: Missing argument at the end of expression."
  | .unclosed count =>
    s!"Parse error: Missing {count} right " ++ (if count = 1 then "parenthesis." else "parentheses.")
  | .unknownVariable name => s!"Evaluation error: unknown variable `{name}`."
  | .unknownFunction name => s!"Evaluation error: function `{name}`: Unknown function"
  | .argumentCount name expected => s!"Evaluation error: function `{name}`: Expected {expected} arguments"

end Formula

end DelaunaySurface
