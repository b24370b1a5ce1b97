import DelaunaySurface.Interpolant
import DelaunaySurface.Raster
import DelaunaySurface.Triangulation.Build
/-!
# Settings

What shapes a surface and the values read from it, and the layout of its histogram.
-/

namespace DelaunaySurface

structure HistogramSettings (α : Type) where
  /-- Columns, from 4 to 500. -/
  columns : Nat
  /-- Rows, from 4 to 500. -/
  rows : Nat
  /-- The share of the data's extent that is added on each side, from 0 to 1. -/
  margin : α
  /-- A fixed lower end for the range of values. -/
  minimum : Option α
  /-- A fixed upper end for the range of values. -/
  maximum : Option α
  deriving DecidableEq, Repr

namespace HistogramSettings

/-- The number of bins within the limits that is nearest to the one asked for. -/
def limitBins (n : Nat) : Nat := max 4 (min n 500)

variable {α : Type} [Scalar α]

/-- A margin within the limits, else a tenth. -/
def limitMargin (a : α) : α :=
  if 0 ≤ a ∧ a ≤ 1 then a else 0.1

/-- 40 by 40 bins over the data itself. -/
def standard : HistogramSettings α := ⟨40, 40, 0, none, none⟩

/-- Chooses the number of columns, within the limits. -/
def withColumns (h : HistogramSettings α) (n : Nat) : HistogramSettings α :=
  { h with columns := limitBins n }

/-- Chooses the number of rows, within the limits. -/
def withRows (h : HistogramSettings α) (n : Nat) : HistogramSettings α :=
  { h with rows := limitBins n }

def withMargin (h : HistogramSettings α) (a : α) : HistogramSettings α :=
  { h with margin := limitMargin a }

/-- The grid of the histogram over data with these bounds: grown by the margin, and opened where it has
no width. -/
def frame (h : HistogramSettings α) (around : Rectangle α) : Frame α :=
  Frame.covering ((around.grow h.margin).openFlat 1e-9) h.columns h.rows

end HistogramSettings

/-- The value read outside the hull. Doubles have many representations of an undefined value; no
arithmetic tells them apart, and yet each is a setting of its own. -/
structure MarginValue (α : Type) where
  value : α
  /-- Which representation of an undefined value this is: 0 for the usual one and for a number that is
  defined. -/
  variant : Nat := 0
  deriving DecidableEq, Repr

/-- Everything that shapes a surface and the values read from it. -/
structure Settings (α : Type) where
  build : BuildSettings α
  strategy : Strategy
  marginValue : MarginValue α
  histogram : HistogramSettings α
  deriving DecidableEq, Repr

/-- The standard settings, with zero outside the hull. -/
def Settings.standard {α : Type} [Scalar α] : Settings α :=
  ⟨.standard, .walk, ⟨0, 0⟩, .standard⟩

end DelaunaySurface
