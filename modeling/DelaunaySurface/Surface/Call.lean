import DelaunaySurface.Surface.Basic
/-!
# Using a surface

All that can be done with a surface as one type of calls, so that a history is a list.
-/

namespace DelaunaySurface.Surface

variable {α : Type} [Scalar α]

/-- The height at a point, undefined when there is no surface; none where a point outside finds no
hull. -/
def valueOrUndefined? (s : Surface α) (p : Point α) : Option α × Surface α :=
  let (answer, s) := s.value? p
  (answer.map fun
    | .ok z => z
    | .error _ => Scalar.undefined, s)

/-- One use of a surface. -/
inductive Call (α : Type)
  | edit (e : Edit α)
  | replace (samples : Samples α)
  | change (c : Change α)
  | triangulation
  | value (p : Point α)
  | valueOrUndefined (p : Point α)
  | sample (f : Frame α)
  | histogramFrame
  | histogram
  | isolines (level : α)
  | heightRange

/-- What a use answers; `lost` where a point outside finds no hull. -/
inductive Answer (α : Type)
  | done
  | edited (report : Except Failure (Edit.Report α))
  | built (result : Built)
  | value (z : Except Failure α)
  | number (z : α)
  | frame (f : Except Failure (Frame α))
  | raster (r : Except Failure (Raster α))
  | isolines (lines : Except Failure (List (Isoline α)))
  | range (ends : Except Failure (α × α))
  | lost

def run [DecidableEq α] (s : Surface α) : Call α → Answer α × Surface α
  | .edit e =>
    let (report, s) := s.edit e
    (.edited report, s)
  | .replace samples => (.done, s.replace samples)
  | .change c => (.done, s.change c)
  | .triangulation =>
    let (built, s) := s.triangulation
    (.built built, s)
  | .value p =>
    let (answer, s) := s.value? p
    (answer.elim .lost .value, s)
  | .valueOrUndefined p =>
    let (answer, s) := s.valueOrUndefined? p
    (answer.elim .lost .number, s)
  | .sample f =>
    let (answer, s) := s.sample? f
    (answer.elim .lost fun r => .raster (.ok r), s)
  | .histogramFrame => (.frame s.histogramFrame, s)
  | .histogram =>
    let (answer, s) := s.histogram?
    (answer.elim .lost .raster, s)
  | .isolines level =>
    let (lines, s) := s.isolines level
    (.isolines lines, s)
  | .heightRange => (.range s.heightRange, s)

end DelaunaySurface.Surface
