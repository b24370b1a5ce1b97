import DelaunaySurface.Surface.Call
/-!
# Surfaces that keep nothing

The surface to compare with: it has no place for a build, and every question that needs one builds again.
Between calls it remembers the triangle of the last answer and forgets it where a new generation would
begin.
-/

namespace DelaunaySurface

/-- A surface without a memo. -/
structure PlainSurface (α : Type) where
  samples : Samples α
  settings : Settings α
  /-- The triangle of the last answer. -/
  hint : Option Nat

/-- The answer says that the call failed. -/
def Surface.Answer.failed {α : Type} : Surface.Answer α → Prop
  | .edited (.error _) | .built (.error _) | .value (.error _) | .frame (.error _) | .raster (.error _)
  | .isolines (.error _) | .range (.error _) | .lost => True
  | _ => False

namespace PlainSurface

open Surface (Change Call Answer)

variable {α : Type} [Scalar α]

def fresh (samples : Samples α) (settings : Settings α) : PlainSurface α := ⟨samples, settings, none⟩

def forget (s : PlainSurface α) : PlainSurface α := { s with hint := none }

/-! ## Changes -/

def edit (s : PlainSurface α) (e : Edit α) : Except Failure (Edit.Report α) × PlainSurface α :=
  match e.outcome s.samples, e with
  | (.error failure, samples), .remove _ => (.error failure, { s with samples })
  | (report, samples), _ => (report, { s.forget with samples })

def replace (s : PlainSurface α) (samples : Samples α) : PlainSurface α :=
  { s.forget with samples }

def change [DecidableEq α] (s : PlainSurface α) : Change α → PlainSurface α
  | .budget n =>
    if s.settings.build.budget = n then s
    else { s.forget with settings.build.budget := n }
  | .tolerance t =>
    if s.settings.build.tolerance.eps == t.eps then s
    else { s.forget with settings.build.tolerance := t }
  | .strategy t => { s.forget with settings.strategy := t }
  | .marginValue a =>
    if s.settings.marginValue = a then s
    else { s.forget with settings.marginValue := a }
  | .columns n => { s with settings.histogram := s.settings.histogram.withColumns n }
  | .rows n => { s with settings.histogram := s.settings.histogram.withRows n }
  | .margin a =>
    let h := s.settings.histogram.withMargin a
    if s.settings.histogram.margin = h.margin then s
    else { s.forget with settings.histogram := h }
  | .minimum a => { s with settings.histogram.minimum := a }
  | .maximum a => { s with settings.histogram.maximum := a }

/-! ## Questions -/

/-- The build of the samples and settings as they are now. -/
def build (s : PlainSurface α) : Built := Triangulation.build s.settings.build s.samples

def value? (s : PlainSurface α) (p : Point α) : Option (Except Failure α) × PlainSurface α :=
  match s.build with
  | .error failure => (some (.error failure), s)
  | .ok t =>
    let (found, l) := Interpolant.value? t s.samples s.settings.marginValue.value
      (Locator.fresh s.settings.strategy s.hint) p
    (found.map fun (z, _) => .ok z, { s with hint := l.hint })

def valueOrUndefined? (s : PlainSurface α) (p : Point α) : Option α × PlainSurface α :=
  let (answer, s) := s.value? p
  (answer.map fun
    | .ok z => z
    | .error _ => Scalar.undefined, s)

def sample? (s : PlainSurface α) (f : Frame α) : Option (Raster α) :=
  match s.build with
  | .error _ => some (Raster.blank f)
  | .ok t => Raster.sample? t s.samples s.settings.strategy s.settings.marginValue.value f

def histogramFrame (s : PlainSurface α) : Except Failure (Frame α) :=
  s.samples.bounds.map s.settings.histogram.frame

def histogram? (s : PlainSurface α) : Option (Except Failure (Raster α)) :=
  match s.histogramFrame with
  | .error failure => some (.error failure)
  | .ok f =>
    let h := s.settings.histogram
    (s.sample? f).map fun r => .ok (r.withRange h.minimum h.maximum)

def isolines (s : PlainSurface α) (level : α) : Except Failure (List (Isoline α)) :=
  if s.samples.isEmpty then .error .empty
  else
    match s.build with
    | .error failure => .error failure
    | .ok t => .ok (Isoline.atLevel t s.samples level)

def run [DecidableEq α] (s : PlainSurface α) : Call α → Answer α × PlainSurface α
  | .edit e =>
    let (report, s) := s.edit e
    (.edited report, s)
  | .replace samples => (.done, s.replace samples)
  | .change c => (.done, s.change c)
  | .triangulation => (.built s.build, s)
  | .value p =>
    let (answer, s) := s.value? p
    (answer.elim .lost .value, s)
  | .valueOrUndefined p =>
    let (answer, s) := s.valueOrUndefined? p
    (answer.elim .lost .number, s)
  | .sample f => ((s.sample? f).elim .lost fun r => .raster (.ok r), s)
  | .histogramFrame => (.frame s.histogramFrame, s)
  | .histogram => (s.histogram?.elim .lost .raster, s)
  | .isolines level => (.isolines (s.isolines level), s)
  -- The range of heights does not depend on any build.
  | .heightRange => (.range (Surface.fresh s.samples s.settings).heightRange, s)

theorem edit_failed {s : PlainSurface α} {e : Edit α} {failure : Failure} (h : (s.edit e).1 = .error failure) :
    (s.edit e).2.samples = s.samples ∧ (s.edit e).2.settings = s.settings := by
  unfold edit at h ⊢
  rw [Edit.outcome_eq] at h ⊢
  cases hrun : e.run s.samples with
  | ok r =>
    rw [hrun] at h
    cases h
  | error failure => cases e <;> exact ⟨rfl, rfl⟩

theorem value?_rest (s : PlainSurface α) (p : Point α) :
    (s.value? p).2.samples = s.samples ∧ (s.value? p).2.settings = s.settings := by
  rw [value?]
  split
  · exact ⟨rfl, rfl⟩
  · exact ⟨rfl, rfl⟩

/-- A call that fails leaves the samples and the settings as they were. -/
theorem run_failed [DecidableEq α] {s : PlainSurface α} {c : Call α} (h : (s.run c).1.failed) :
    (s.run c).2.samples = s.samples ∧ (s.run c).2.settings = s.settings := by
  cases c with
  | edit e =>
    change (Answer.edited (s.edit e).1).failed at h
    cases he : (s.edit e).1 with
    | error failure => exact edit_failed he
    | ok report => exact (he ▸ h : (Answer.edited (.ok report)).failed).elim
  | replace samples => exact h.elim
  | change c => exact h.elim
  | value p => exact s.value?_rest p
  | valueOrUndefined p => exact s.value?_rest p
  | _ => exact ⟨rfl, rfl⟩

/-- What calls answer, one after the other. -/
def answers [DecidableEq α] (s : PlainSurface α) : List (Call α) → List (Answer α)
  | [] => []
  | c :: rest => (s.run c).1 :: (s.run c).2.answers rest

end PlainSurface

end DelaunaySurface
