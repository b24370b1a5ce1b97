import DelaunaySurface.CommandLine.Report
import DelaunaySurface.Proofs.Raster.Rows
import DelaunaySurface.Proofs.Surface.HistogramFrame
import DelaunaySurface.Proofs.Surface.Transparency
/-!
# How runs end

A run does all that it is asked for, or it makes one report and writes nothing (`run_clean`). Only heights at several points
are written one by one with a question for each; the first of them has the surface built, and with a build that is kept
no later question fails (`Surface.Current.value?_ok`). No point is lost, and nothing is looked up out of range.
-/

namespace DelaunaySurface

/-! ## Questions -/

namespace PlainSurface

variable {α : Type} [Scalar α] {s : PlainSurface α} {t : Triangulation}

theorem build_value? (p : Point α) : (s.value? p).2.build = s.build := by
  obtain ⟨hsamples, hsettings⟩ := s.value?_rest p
  rw [build, build, hsamples, hsettings]

theorem exists_value? (hb : s.build = .ok t) (p : Point α) : ∃ z, (s.value? p).1 = some (.ok z) := by
  obtain ⟨place, hplace, -⟩ := Locator.exists_locate? (p := p) hb (Locator.fresh s.settings.strategy s.hint)
  refine ⟨Interpolant.heightAt t s.samples s.settings.marginValue.value p place, ?_⟩
  rw [value?, hb]
  change (((Locator.fresh s.settings.strategy s.hint).locate? t s.samples p).1.map _).map _ = _
  rw [hplace]
  rfl

theorem exists_sample? (s : PlainSurface α) (f : Frame α) :
    ∃ r, s.sample? f = some r ∧ r.frame = f ∧ r.values.size = f.cellCount := by
  rw [sample?]
  split
  · exact ⟨_, rfl, rfl, Array.size_replicate⟩
  · exact Raster.exists_sample? ‹_› _ _ f

/-- Samples have a histogram, and no samples have none. -/
theorem histogram?_cases (s : PlainSurface α) :
    (s.samples.isEmpty = false ∧ ∃ r, s.histogram? = some (.ok r) ∧ r.values.size = r.frame.cellCount) ∨
      s.samples.isEmpty = true ∧ s.histogram? = some (.error .empty) := by
  rw [histogram?, histogramFrame]
  rcases s.samples.bounds_cases with ⟨hempty, around, hbounds⟩ | ⟨hempty, hbounds⟩
  · obtain ⟨r, hr, hframe, hsize⟩ := s.exists_sample? (s.settings.histogram.frame around)
    refine .inl ⟨hempty, r.withRange s.settings.histogram.minimum s.settings.histogram.maximum, ?_, ?_⟩
    · rw [hbounds]
      change (s.sample? (s.settings.histogram.frame around)).map _ = _
      rw [hr]
      rfl
    · exact hsize.trans (congrArg Frame.cellCount hframe.symm)
  · exact .inr ⟨hempty, by rw [hbounds]; rfl⟩

/-- There are isolines whenever there is a build; without samples there is none. -/
theorem isolines_ok_iff (s : PlainSurface α) (level : α) :
    (∃ lines, s.isolines level = .ok lines) ↔ ∃ t, s.build = .ok t := by
  rw [isolines]
  cases hb : s.build with
  | error failure => split <;> constructor <;> rintro ⟨_, ⟨⟩⟩
  | ok t =>
    have hempty : s.samples.isEmpty = false := by
      have hlt : 0 < s.samples.xs.size := Nat.zero_lt_of_lt ((Triangulation.names_of_build hb).corner 0 0)
      rw [Samples.isEmpty, Array.isEmpty]
      exact decide_eq_false hlt.ne'
    rw [hempty]
    exact ⟨fun _ => ⟨t, rfl⟩, fun _ => ⟨_, rfl⟩⟩

end PlainSurface

namespace Surface

variable {α : Type} [Scalar α] {s : Surface α} {t : Triangulation}

/-- With a build, a question for a height is answered, and the next one is asked of a surface with the same build. -/
theorem Current.value?_ok (h : s.Current) (hb : s.plain.build = .ok t) (p : Point α) :
    ∃ z s', s.value? p = (some (.ok z), s') ∧ s'.Current ∧ s'.plain.build = .ok t := by
  obtain ⟨hanswer, hplain, he⟩ := h.value?_eq p
  obtain ⟨z, hz⟩ := PlainSurface.exists_value? hb p
  refine ⟨z, (s.value? p).2, Prod.ext (hanswer.trans hz) rfl, h.effect he, ?_⟩
  rw [hplain, PlainSurface.build_value?, hb]

theorem Current.value?_error {failure : Failure} (h : s.Current) (hb : s.plain.build = .error failure) (p : Point α) :
    (s.value? p).1 = some (.error failure) := by
  rw [(h.value?_eq p).1, PlainSurface.value?, hb]

/-- All that is looked up to answer questions about samples is there. -/
structure InRange (settings : Settings α) (samples : Samples α) : Prop where
  /-- In the mesh at any time of the build. -/
  mesh : ∀ first done rest m,
    Schedule.seed settings.build.tolerance samples (Schedule.order samples) = .ok (first, done ++ rest) →
    (Mesh.seed first).insertAll settings.build.budget (Triangulation.verdicts settings.build.tolerance samples) done = .ok m →
    m.InRange samples.size
  tables : ∀ t, Triangulation.build settings.build samples = .ok t → t.InRange samples.size
  /-- Every point has a place in the build, whatever is remembered. -/
  place : ∀ t, Triangulation.build settings.build samples = .ok t → ∀ (l : Locator) (p : Point α),
    ∃ place, (l.locate? t samples p).1 = some place ∧ place.InRange t
  /-- The edges that isolines cross are known and join samples. -/
  path : ∀ t, Triangulation.build settings.build samples = .ok t → ∀ (level : α) (e : Edge),
    e ∈ (Isoline.paths (Isoline.segments t samples level)).flatMap Prod.fst →
    Isoline.linked (Isoline.linksOf (Isoline.segments t samples level)) e ≠ [] ∧
      e.low < samples.size ∧ e.high < samples.size
  /-- The histogram has a value for each of its cells. -/
  histogram : ∀ r, (fresh samples settings).histogram?.1 = some (.ok r) → r.values.size = r.frame.cellCount

theorem inRange (settings : Settings α) (samples : Samples α) : InRange settings samples where
  mesh _ _ _ _ := Triangulation.inRange_of_run
  tables _ := Triangulation.inRange_of_build
  place _ h l _ := Locator.exists_locate? h l
  path _ h level _ := Isoline.inRange_of_path h samples level
  histogram r hr := by
    rw [(current_fresh samples settings).histogram?_eq.1] at hr
    rcases (fresh samples settings).plain.histogram?_cases with ⟨-, raster, hraster, hsize⟩ | ⟨-, hnone⟩
    · cases hraster.symm.trans hr
      exact hsize
    · cases hnone.symm.trans hr

end Surface

namespace CommandLine

/-! ## All or nothing -/

/-- A run that ended as it should: done without a report, or with a report and nothing else. -/
def Outcome.Clean (o : Outcome) : Prop :=
  (o.exit = 0 ∧ o.stderr = "") ∨
    (o.exit = 1 ∧ o.stdout = "" ∧ ∃ report, o.stderr = "graph2d_cli error: " ++ report ++ "\n")

/-- Everything was written if `P` holds; otherwise there is only a report. -/
def Written.Decides (w : Written) (P : Prop) : Prop :=
  (P ∧ w.ending = .complete) ∨ (¬P ∧ ∃ report, w = .failed report)

namespace Written

variable {w : Written} {P Q : Prop}

theorem Decides.clean (h : w.Decides P) : w.outcome.Clean ∧ (w.outcome.exit = 0 ↔ P) := by
  rcases h with ⟨hp, hcomplete⟩ | ⟨hp, report, rfl⟩
  · rw [outcome, hcomplete]
    exact ⟨.inl ⟨rfl, rfl⟩, iff_of_true rfl hp⟩
  · exact ⟨.inr ⟨rfl, rfl, report, rfl⟩, iff_of_false Nat.one_ne_zero hp⟩

theorem Decides.congr (h : w.Decides P) (hiff : P ↔ Q) : w.Decides Q := propext hiff ▸ h

theorem decides_all {lines : List String} (h : P) : (all lines).Decides P := .inl ⟨h, rfl⟩

theorem decides_failed {report : String} (h : ¬P) : (failed report).Decides P := .inr ⟨h, report, rfl⟩

end Written

theorem decides_result {β : Type} (result : Except Failure β) (write : β → List String) :
    (match result with
      | Except.ok b => Written.all (write b)
      | Except.error failure => Written.failed failure.message).Decides (∃ b : β, result = Except.ok b) := by
  cases result with
  | ok b => exact Written.decides_all ⟨b, rfl⟩
  | error failure => exact Written.decides_failed (by rintro ⟨_, ⟨⟩⟩)

/-! ## Commands -/

variable {s : Surface Float} {t : Triangulation}

/-- With a build every height is written, whatever the surface was asked before. -/
theorem writeValues_complete (h : s.Current) (hb : s.plain.build = .ok t) (queries : List (Point Float)) :
    (writeValues s queries).ending = .complete := by
  induction queries generalizing s with
  | nil => rfl
  | cons p queries ih =>
    obtain ⟨z, s', hz, h', hb'⟩ := h.value?_ok hb p
    rw [writeValues, hz]
    exact ih h' hb'

theorem writeValues_decides (h : s.Current) {queries : List (Point Float)} (hqueries : queries ≠ []) :
    (writeValues s queries).Decides (∃ t, s.plain.build = .ok t) := by
  cases hb : s.plain.build with
  | ok t => exact .inl ⟨⟨t, rfl⟩, writeValues_complete h hb queries⟩
  | error failure =>
    cases queries with
    | nil => exact absurd rfl hqueries
    | cons p queries =>
      have hanswer := h.value?_error hb p
      rcases hvalue : s.value? p with ⟨found, s'⟩
      rw [hvalue] at hanswer
      cases hanswer
      rw [writeValues, hvalue]
      exact Written.decides_failed (by rintro ⟨_, ⟨⟩⟩)

/-- The samples that a request is about, read from the bytes of its file. -/
def Request.samples (r : Request) (content : Except PointFile.FileFault (List UInt8)) :
    Except PointFile.Problem (Samples Float) :=
  (PointFile.readFile r.options.layout content).map fun reading =>
    if r.options.dedup then reading.samples.removeDuplicates else reading.samples

/-- What a request takes of its options and samples. -/
def Request.Served (r : Request) (s : Samples Float) : Prop :=
  match r.command with
  | .sample => s.isEmpty = false
  | .value => r.options.queries ≠ [] ∧ ∃ t, Triangulation.build r.options.settings.build s = .ok t
  | .triangles | .hull => ∃ t, Triangulation.build r.options.settings.build s = .ok t
  | .contour => r.options.level.isSome = true ∧ ∃ t, Triangulation.build r.options.settings.build s = .ok t

theorem execute_decides (r : Request) (s : Samples Float) :
    (execute r (Surface.fresh s r.options.settings)).Decides (r.Served s) := by
  have h := Surface.current_fresh s r.options.settings
  have hbuild : (Surface.fresh s r.options.settings).triangulation.1 = Triangulation.build r.options.settings.build s :=
    congrArg Prod.fst h.triangulation_eq
  rw [execute, Request.Served]
  cases r.command with
  | sample =>
    have hanswer := h.histogram?_eq.1
    dsimp only
    rcases hfound : (Surface.fresh s r.options.settings).histogram? with ⟨found, s'⟩
    rw [hfound] at hanswer
    rcases (Surface.fresh s r.options.settings).plain.histogram?_cases with ⟨hempty, raster, hraster, -⟩ | ⟨hempty, hnone⟩
    · cases hanswer.trans hraster
      exact Written.decides_all hempty
    · cases hanswer.trans hnone
      exact Written.decides_failed fun hserved => Bool.false_ne_true (hserved.symm.trans hempty)
  | value =>
    dsimp only
    split
    · rename_i hempty
      exact Written.decides_failed fun hserved => hserved.1 (List.isEmpty_iff.1 hempty)
    · rename_i hempty
      have hqueries : r.options.queries ≠ [] := fun e => hempty (List.isEmpty_iff.2 e)
      exact (writeValues_decides h hqueries).congr (and_iff_right hqueries).symm
  | triangles | hull =>
    dsimp only
    rw [hbuild]
    exact decides_result _ _
  | contour =>
    dsimp only
    cases r.options.level with
    | none => exact Written.decides_failed fun hserved => Bool.false_ne_true hserved.1
    | some level =>
      dsimp only
      rw [(h.isolines_eq level).1]
      refine (decides_result _ _).congr ?_
      rw [PlainSurface.isolines_ok_iff]
      exact (and_iff_right rfl).symm

theorem answer_eq (r : Request) (content : Except PointFile.FileFault (List UInt8)) : answer r content =
    match r.samples content with
    | .ok s => (execute r (Surface.fresh s r.options.settings)).outcome
    | .error problem => (Written.failed (r.path ++ ": " ++ problem.message)).outcome := by
  rw [answer, Request.samples]
  cases PointFile.readFile r.options.layout content <;> rfl

/-! ## Whole runs -/

/-- The arguments make a request about samples. -/
def Asks (arguments : List String) (file : String → Except PointFile.FileFault (List UInt8)) (r : Request) (s : Samples Float) :
    Prop :=
  readArguments arguments = .ok r ∧ r.samples (file r.path) = .ok s

/-- The arguments call for help, or they make a request that is served. -/
def Granted (arguments : List String) (file : String → Except PointFile.FileFault (List UInt8)) : Prop :=
  readArguments arguments = .error .help ∨ ∃ r s, Asks arguments file r s ∧ r.Served s

theorem run_decides (arguments : List String) (file : String → Except PointFile.FileFault (List UInt8)) :
    ∃ w : Written, run arguments file = w.outcome ∧ w.Decides (Granted arguments file) := by
  rw [run, Granted]
  simp only [Asks]
  cases hread : readArguments arguments with
  | error stop =>
    cases stop with
    | help => exact ⟨_, rfl, Written.decides_all (.inl rfl)⟩
    | fault f => exact ⟨_, rfl, Written.decides_failed (by simp)⟩
  | ok r =>
    dsimp only
    rw [answer_eq]
    cases hsamples : r.samples (file r.path) with
    | error problem =>
      refine ⟨_, rfl, Written.decides_failed ?_⟩
      rintro (h | ⟨r', s, ⟨hr, hs⟩, -⟩)
      · cases h
      · cases hr
        cases hs.symm.trans hsamples
    | ok s =>
      refine ⟨_, rfl, (execute_decides r s).congr ⟨fun hserved => .inr ⟨r, s, ⟨rfl, hsamples⟩, hserved⟩, ?_⟩⟩
      rintro (h | ⟨r', s', ⟨hr, hs⟩, hserved⟩)
      · cases h
      · cases hr
        cases hs.symm.trans hsamples
        exact hserved

/-- Whatever the arguments are and whatever the files hold, a run ends as it should: it serves a request and reports nothing,
or it makes a report and writes nothing. Which of the two depends on the request and its samples, and all that is looked up
for it is there. -/
theorem run_clean (arguments : List String) (file : String → Except PointFile.FileFault (List UInt8)) :
    (run arguments file).Clean ∧ ((run arguments file).exit = 0 ↔ Granted arguments file) ∧
      ∀ r s, Asks arguments file r s → Surface.InRange r.options.settings s := by
  obtain ⟨w, hrun, hdecides⟩ := run_decides arguments file
  rw [hrun]
  exact ⟨hdecides.clean.1, hdecides.clean.2, fun r s _ => Surface.inRange r.options.settings s⟩

end CommandLine

end DelaunaySurface
