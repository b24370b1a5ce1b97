import DelaunaySurface.Isoline
import DelaunaySurface.Samples.Edit
import DelaunaySurface.Surface.Memo
import DelaunaySurface.Surface.Settings
/-!
# Surfaces

Samples with their settings and the triangulation built from them. It is built by the first question
after a change and serves all questions until the next one.
-/

namespace DelaunaySurface

/-- A surface through samples. -/
structure Surface (α : Type) where
  samples : Samples α
  settings : Settings α
  /-- The build, where it is kept. -/
  memo : Memo
  /-- The triangle of the last answer. -/
  hint : Option Nat

namespace Surface

variable {α : Type} [Scalar α]

/-- A surface that nothing was asked of yet. -/
def fresh (samples : Samples α) (settings : Settings α) : Surface α :=
  ⟨samples, settings, Memo.empty, none⟩

/-- Begins a new generation: the build and the place of the last answer are forgotten. -/
def invalidate (s : Surface α) : Surface α :=
  { s with memo := s.memo.invalidate, hint := none }

/-! ## Changes -/

/-- Edits the samples. Every edit begins a new generation, also one that fails, except for the removal
of a sample that is not there. -/
def edit (s : Surface α) (e : Edit α) : Except Failure (Edit.Report α) × Surface α :=
  match e.outcome s.samples, e with
  | (.error failure, samples), .remove _ => (.error failure, { s with samples })
  | (report, samples), _ => (report, { s.invalidate with samples })

/-- Puts other samples in the place of all there are. -/
def replace (s : Surface α) (samples : Samples α) : Surface α :=
  { s.invalidate with samples }

inductive Change (α : Type)
  | budget (n : Nat)
  | tolerance (t : Tolerance α)
  | strategy (t : Strategy)
  | marginValue (a : MarginValue α)
  | columns (n : Nat)
  | rows (n : Nat)
  | margin (a : α)
  | minimum (a : Option α)
  | maximum (a : Option α)

/-- Changes a setting. What the build or the value outside the hull depends on begins a new generation
when it really changes: a tolerance by comparison, so that an undefined one always does, the others by
identity. -/
def change [DecidableEq α] (s : Surface α) : Change α → Surface α
  | .budget n =>
    if s.settings.build.budget = n then s
    else { s.invalidate with settings.build.budget := n }
  | .tolerance t =>
    if s.settings.build.tolerance.eps == t.eps then s
    else { s.invalidate with settings.build.tolerance := t }
  | .strategy t => { s with settings.strategy := t, hint := none }
  | .marginValue a =>
    if s.settings.marginValue = a then s
    else { s.invalidate with settings.marginValue := a }
  | .columns n => { s with settings.histogram := s.settings.histogram.withColumns n }
  | .rows n => { s with settings.histogram := s.settings.histogram.withRows n }
  | .margin a =>
    let h := s.settings.histogram.withMargin a
    if s.settings.histogram.margin = h.margin then s
    else { s.invalidate with settings.histogram := h }
  | .minimum a => { s with settings.histogram.minimum := a }
  | .maximum a => { s with settings.histogram.maximum := a }

/-! ## Questions -/

def triangulation (s : Surface α) : Built × Surface α :=
  let (built, memo) := s.memo.obtain fun _ => Triangulation.build s.settings.build s.samples
  (built, { s with memo })

/-- The height at a point, or why there is no surface; none where a point outside finds no hull. -/
def value? (s : Surface α) (p : Point α) : Option (Except Failure α) × Surface α :=
  match s.triangulation with
  | (.error failure, s) => (some (.error failure), s)
  | (.ok t, s) =>
    let (found, l) := Interpolant.value? t s.samples s.settings.marginValue.value
      (Locator.fresh s.settings.strategy s.hint) p
    (found.map fun (z, _) => .ok z, { s with hint := l.hint })

/-- The surface sampled on a grid; a blank raster when there is no surface. -/
def sample? (s : Surface α) (f : Frame α) : Option (Raster α) × Surface α :=
  match s.triangulation with
  | (.error _, s) => (some (Raster.blank f), s)
  | (.ok t, s) => (Raster.sample? t s.samples s.settings.strategy s.settings.marginValue.value f, s)

def histogramFrame (s : Surface α) : Except Failure (Frame α) :=
  s.samples.bounds.map s.settings.histogram.frame

/-- The histogram, with the fixed ends of its range. -/
def histogram? (s : Surface α) : Option (Except Failure (Raster α)) × Surface α :=
  match s.histogramFrame with
  | .error failure => (some (.error failure), s)
  | .ok f =>
    let h := s.settings.histogram
    let (found, s) := s.sample? f
    (found.map fun r => .ok (r.withRange h.minimum h.maximum), s)

def isolines (s : Surface α) (level : α) : Except Failure (List (Isoline α)) × Surface α :=
  if s.samples.isEmpty then (.error .empty, s)
  else
    match s.triangulation with
    | (.error failure, s) => (.error failure, s)
    | (.ok t, s) => (.ok (Isoline.atLevel t s.samples level), s)

/-- The range of heights to draw with: that of the samples, opened by a hundredth when it has no width,
with fixed ends in place of its own. -/
def heightRange (s : Surface α) : Except Failure (α × α) := do
  let low ← s.samples.zMin
  let high ← s.samples.zMax
  let (low, high) :=
    if low == high then
      if low == 0 then (-0.01, 0.01)
      else (low - 0.01 * Scalar.abs low, low + 0.01 * Scalar.abs low)
    else (low, high)
  let h := s.settings.histogram
  return (h.minimum.getD low, h.maximum.getD high)

end Surface

end DelaunaySurface
