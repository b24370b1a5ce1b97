import DelaunaySurface.Formula.Evaluation
import DelaunaySurface.Formula.Reader
import DelaunaySurface.Samples.Edit
/-!
# Heights by formula

A formula in `x`, `y` and `z`, in either case of letters, as a rule for heights.
-/

namespace DelaunaySurface

/-- The coordinates of a sample by their names. -/
def Sample.named? (p : Sample Float) : String → Option Float
  | "x" | "X" => some p.x
  | "y" | "Y" => some p.y
  | "z" | "Z" => some p.z
  | _ => none

/-- The rule a text stands for. It is read once, before any sample is looked at. -/
def Formula.rule (text : String) : HeightRule Float :=
  match read text with
  | .error cause => .error (.formula cause)
  | .ok f => .ok fun p => (evaluate p.named? f).mapError .formula

end DelaunaySurface
