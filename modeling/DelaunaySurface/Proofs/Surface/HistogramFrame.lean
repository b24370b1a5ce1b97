import DelaunaySurface.Proofs.Plane.Rectangle
import DelaunaySurface.Surface.Basic
/-!
# The grid of the histogram

The histogram's settings are within their limits as soon as each was within them or was set once, whatever it
was set to. The grid laid out with them, over the rationals, always holds all samples (`histogramFrame_covers`); the
standard settings are within their limits from the start (`histogramFrame_covers_standard`).
-/

namespace DelaunaySurface

open Surface (Change)

/-! ## Limits -/

namespace HistogramSettings

def binLimits : Set Nat := Set.Icc 4 500

def marginLimits : Set Rat := Set.Icc 0 1

theorem limitBins_mem (n : Nat) : limitBins n ∈ binLimits :=
  ⟨Nat.le_max_left 4 _, max_le (by decide) (Nat.min_le_right n 500)⟩

theorem limitMargin_mem (a : Rat) : limitMargin a ∈ marginLimits := by
  rw [limitMargin]
  split
  · assumption
  · constructor <;> norm_num

/-- Each setting is within its limits. -/
structure WithinLimits (h : HistogramSettings Rat) : Prop where
  columns : h.columns ∈ binLimits
  rows : h.rows ∈ binLimits
  margin : h.margin ∈ marginLimits

/-- Each setting is within its limits or set by one of the changes. -/
structure Limited (h : HistogramSettings Rat) (changes : List (Change Rat)) : Prop where
  columns : h.columns ∈ binLimits ∨ ∃ n, .columns n ∈ changes
  rows : h.rows ∈ binLimits ∨ ∃ n, .rows n ∈ changes
  margin : h.margin ∈ marginLimits ∨ ∃ a, .margin a ∈ changes

theorem WithinLimits.limited {h : HistogramSettings Rat} (hh : h.WithinLimits) (changes : List (Change Rat)) :
    h.Limited changes :=
  ⟨.inl hh.columns, .inl hh.rows, .inl hh.margin⟩

theorem withinLimits_standard : (standard : HistogramSettings Rat).WithinLimits :=
  ⟨by constructor <;> decide, by constructor <;> decide, ⟨le_rfl, zero_le_one⟩⟩

theorem limited_standard (changes : List (Change Rat)) : (standard : HistogramSettings Rat).Limited changes :=
  withinLimits_standard.limited changes

/-! ## Changes -/

/-- The histogram's settings after a change. -/
def after (h : HistogramSettings Rat) : Change Rat → HistogramSettings Rat
  | .columns n => h.withColumns n
  | .rows n => h.withRows n
  | .margin a => h.withMargin a
  | .minimum a => { h with minimum := a }
  | .maximum a => { h with maximum := a }
  | _ => h

/-- Setting the margin that there is changes nothing. -/
theorem withMargin_of_eq {h : HistogramSettings Rat} {a : Rat} (hsame : h.margin = (h.withMargin a).margin) :
    h.withMargin a = h := by
  obtain ⟨columns, rows, margin, minimum, maximum⟩ := h
  exact congrArg (HistogramSettings.mk columns rows · minimum maximum) hsame.symm

/-- What the first change does not set was within its limits or is set later. -/
theorem set_later {β : Type} {set : β → Change Rat} {c : Change Rat} {changes : List (Change Rat)} {within : Prop}
    (h : within ∨ ∃ b, set b ∈ c :: changes) (hne : ∀ b, set b ≠ c) : within ∨ ∃ b, set b ∈ changes :=
  h.imp_right fun ⟨b, hb⟩ => ⟨b, (List.mem_cons.1 hb).resolve_left (hne b)⟩

/-- A change puts what it sets within the limits and leaves the other settings as they are. -/
theorem Limited.after {h : HistogramSettings Rat} {c : Change Rat} {changes : List (Change Rat)}
    (hh : h.Limited (c :: changes)) : (h.after c).Limited changes := by
  obtain ⟨hcolumns, hrows, hmargin⟩ := hh
  cases c with
  | columns n => exact ⟨.inl (limitBins_mem n), set_later hrows nofun, set_later hmargin nofun⟩
  | rows n => exact ⟨set_later hcolumns nofun, .inl (limitBins_mem n), set_later hmargin nofun⟩
  | margin a => exact ⟨set_later hcolumns nofun, set_later hrows nofun, .inl (limitMargin_mem a)⟩
  | _ => exact ⟨set_later hcolumns nofun, set_later hrows nofun, set_later hmargin nofun⟩

theorem Limited.withinLimits {h : HistogramSettings Rat} {changes : List (Change Rat)} (hh : h.Limited changes) :
    (changes.foldl HistogramSettings.after h).WithinLimits := by
  induction changes generalizing h with
  | nil =>
    obtain ⟨hcolumns, hrows, hmargin⟩ := hh
    exact ⟨by simpa using hcolumns, by simpa using hrows, by simpa using hmargin⟩
  | cons c changes ih => exact ih hh.after

end HistogramSettings

namespace Surface

variable {s : Surface Rat}

theorem histogram_change (c : Change Rat) : (s.change c).settings.histogram = s.settings.histogram.after c := by
  cases c with
  | budget n => simp only [change]; split <;> rfl
  | tolerance t => simp only [change]; split <;> rfl
  | marginValue a => simp only [change]; split <;> rfl
  | margin a =>
    simp only [change]
    split
    · exact (HistogramSettings.withMargin_of_eq ‹_›).symm
    · rfl
  | _ => rfl

theorem samples_change (c : Change Rat) : (s.change c).samples = s.samples := by
  cases c <;> simp only [change] <;> first | rfl | (split <;> rfl)

theorem histogram_changes (changes : List (Change Rat)) :
    (changes.foldl change s).settings.histogram = changes.foldl HistogramSettings.after s.settings.histogram := by
  induction changes generalizing s with
  | nil => rfl
  | cons c changes ih => rw [List.foldl_cons, List.foldl_cons, ih, histogram_change]

theorem samples_changes (changes : List (Change Rat)) : (changes.foldl change s).samples = s.samples := by
  induction changes generalizing s with
  | nil => rfl
  | cons c changes ih => rw [List.foldl_cons, ih, samples_change]

/-- Changes reach the grid through the histogram's settings only. -/
theorem histogramFrame_changes (changes : List (Change Rat)) : (changes.foldl change s).histogramFrame =
    s.samples.bounds.map (changes.foldl HistogramSettings.after s.settings.histogram).frame := by
  rw [histogramFrame, samples_changes, histogram_changes]

end Surface

/-! ## The grid -/

/-- Where there are bounds there is a sample, and the bounds hold them all. -/
theorem Samples.holds_of_bounds (s : Samples Rat) {around : Rectangle Rat} (h : s.bounds = .ok around) :
    (∃ p, p ∈ s.points) ∧ ∀ p ∈ s.points, around.Holds p := by
  rw [bounds] at h
  split at h
  case h_1 r hr =>
    obtain rfl := Except.ok.inj h
    refine ⟨List.exists_mem_of_ne_nil _ fun hnil => ?_, fun p hp => Rectangle.holds_around? hr hp⟩
    rw [hnil] at hr
    cases hr
  case h_2 => cases h

/-- The grid has a width and a height, each of the points lies in it or on its border, and it has from 4 to
500 columns and rows. -/
structure Frame.Covers (f : Frame Rat) (points : List (Point Rat)) : Prop where
  width : f.xMin < f.xMax
  height : f.yMin < f.yMax
  holds : ∀ p ∈ points, p.x ∈ Set.Icc f.xMin f.xMax ∧ p.y ∈ Set.Icc f.yMin f.yMax
  columns : f.nx ∈ Set.Icc 4 500
  rows : f.ny ∈ Set.Icc 4 500

theorem HistogramSettings.WithinLimits.frame_covers {h : HistogramSettings Rat} (hh : h.WithinLimits)
    {samples : Samples Rat} {around : Rectangle Rat} (hbounds : samples.bounds = .ok around) :
    (h.frame around).Covers samples.points := by
  have hpos : (0 : Rat) < 1e-9 := by norm_num
  have heps : (1e-9 : Rat) ≤ 1 / 2000 := by norm_num
  obtain ⟨⟨p, hp⟩, hholds⟩ := samples.holds_of_bounds hbounds
  have hgrown : ∀ q ∈ samples.points, (around.grow h.margin).Holds q := fun q hq => (hholds q hq).grow hh.margin.1
  obtain ⟨hwidth, hheight⟩ := Rectangle.open_openFlat hpos heps (hgrown p hp)
  exact ⟨hwidth, hheight, fun q hq => (hgrown q hq).openFlat hpos heps, hh.columns, hh.rows⟩

/-- Settings within their limits have a grid for any samples but none. -/
theorem HistogramSettings.WithinLimits.exists_covers {h : HistogramSettings Rat} (hh : h.WithinLimits)
    {samples : Samples Rat} (hne : samples.isEmpty = false) :
    ∃ f, samples.bounds.map h.frame = .ok f ∧ f.Covers samples.points := by
  obtain ⟨-, around, hbounds⟩ | ⟨hempty, -⟩ := samples.bounds_cases
  · exact ⟨h.frame around, congrArg _ hbounds, hh.frame_covers hbounds⟩
  · rw [hne] at hempty
    cases hempty

/-- A surface that began with the standard settings always has a grid that covers its samples. -/
theorem Surface.histogramFrame_covers_standard (samples : Samples Rat) (hne : samples.isEmpty = false)
    (changes : List (Change Rat)) :
    ∃ f, (changes.foldl Surface.change (fresh samples .standard)).histogramFrame = .ok f ∧ f.Covers samples.points := by
  rw [histogramFrame_changes]
  exact (HistogramSettings.limited_standard changes).withinLimits.exists_covers hne

/-- Whatever the changes set, the grid of the histogram is there and covers the samples. Only a setting that none
of the changes sets has to be within its limits beforehand. -/
theorem Surface.histogramFrame_covers (s : Surface Rat) (hne : s.samples.isEmpty = false) (changes : List (Change Rat))
    (hlim : s.settings.histogram.Limited changes) :
    ∃ f, (changes.foldl Surface.change s).histogramFrame = .ok f ∧ f.Covers s.samples.points := by
  rw [histogramFrame_changes]
  exact hlim.withinLimits.exists_covers hne

/-- Three samples nearly on one line. Each setting is outside its limits until it is set. -/
theorem Surface.histogramFrame_covers_nearlyFlat :
    let samples : Samples Rat := .ofList [⟨0, 5, 1⟩, ⟨1, 5, 2⟩, ⟨2, 5 + 1 / 10000000000, 3⟩]
    let s : Surface Rat := .fresh samples { Settings.standard with histogram := ⟨0, 1000, -1, none, none⟩ }
    let changes : List (Change Rat) := [.columns 1000, .rows 0, .margin 7]
    s.samples.isEmpty = false ∧ s.settings.histogram.Limited changes ∧
      ∃ f, (changes.foldl Surface.change s).histogramFrame = .ok f ∧ f.Covers samples.points := by
  intro samples s changes
  have hlim : s.settings.histogram.Limited changes :=
    ⟨.inr ⟨1000, by simp [changes]⟩, .inr ⟨0, by simp [changes]⟩, .inr ⟨7, by simp [changes]⟩⟩
  exact ⟨rfl, hlim, Surface.histogramFrame_covers s rfl changes hlim⟩

end DelaunaySurface
