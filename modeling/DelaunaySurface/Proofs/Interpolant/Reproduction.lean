import DelaunaySurface.Proofs.Interpolant.OneSurface
import DelaunaySurface.Proofs.Triangulation.Twins
/-!
# Reproduction of the samples

At the point of a sample the surface should have its height. The triangulation and what is located do not depend on the
heights, so in double precision this is a matter of the triangles found there: they must have the sample as their
corner (`reproduced_iff`). A dent in the hull can put a sample outside (`lost_dentedHill`). Over exact numbers and with
no tolerance every sample is reproduced (`reproduced_exact`).
-/

namespace DelaunaySurface

variable {α : Type} [Scalar α] {s : Samples α} {z : Nat → α} {t : Triangulation} {p : Point α}

/-! ## Other heights -/

namespace Samples

/-- The samples at the same places with other heights. -/
def withHeights (s : Samples α) (z : Nat → α) : Samples α :=
  { s with zs := Array.ofFn fun i : Fin s.size => z i, zs_size := by simp [size] }

theorem height_withHeights {i : Nat} (hi : i < s.size) : (s.withHeights z).height i = z i := by
  simp [height, withHeights, hi]

theorem height_withHeights_zero {i : Nat} (hi : z i = 0) : (s.withHeights z).height i = 0 := by
  by_cases h : i < s.size
  · rw [height_withHeights h, hi]
  · simp [height, withHeights, h]

omit [Scalar α] in
theorem points_withHeights : (s.withHeights z).points = s.points := by
  simp only [points, toList, List.map_ofFn]
  rfl

end Samples

namespace Schedule

theorem firstTwins?_withHeights (l : List Nat) : firstTwins? (s.withHeights z) l = firstTwins? s l := by
  fun_induction firstTwins? s l with
  | case1 i j rest hsame => exact if_pos hsame
  | case2 i j rest hsame ih => exact (if_neg hsame).trans ih
  | case3 l hl =>
    unfold firstTwins?
    split
    · exact (hl _ _ _ rfl).elim
    · rfl

theorem validate_withHeights : validate (s.withHeights z) = validate s := by
  unfold validate twins?
  rw [firstTwins?_withHeights]
  rfl

theorem order_withHeights : order (s.withHeights z) = order s := by
  unfold order Samples.bounds
  rw [Samples.points_withHeights]
  rfl

end Schedule

theorem Triangulation.build_withHeights (settings : BuildSettings α) : build settings (s.withHeights z) = build settings s := by
  unfold build mesh
  rw [Schedule.validate_withHeights, Schedule.order_withHeights]
  rfl

namespace Locator

theorem walkFrom_withHeights (steps i : Nat) : walkFrom t (s.withHeights z) p steps i = walkFrom t s p steps i := by
  induction steps generalizing i with
  | zero => rfl
  | succ steps ih =>
    rw [walkFrom, walkFrom]
    simp only [ih]
    rfl

theorem scanFrom_withHeights (best : Option (Nat × α)) (l : List Nat) :
    scanFrom t (s.withHeights z) p best l = scanFrom t s p best l := by
  induction l generalizing best with
  | nil => rfl
  | cons i l ih =>
    rw [scanFrom_cons, scanFrom_cons, ih]
    rfl

theorem scan?_withHeights : scan? t (s.withHeights z) p = scan? t s p := by
  unfold scan?
  rw [scanFrom_withHeights]
  rfl

/-- Where a point is located does not depend on the heights. -/
theorem locate?_withHeights (l : Locator) : l.locate? t (s.withHeights z) p = l.locate? t s p := by
  unfold locate? walk?
  rw [walkFrom_withHeights, scan?_withHeights]
  rfl

/-- Wherever a walk starts, and also by a scan, a point is put into a triangle with `P` exactly when no walk leaves the hull,
a walk arrives in triangles with `P` only, and the scan ends in one. -/
theorem inside_iff {settings : BuildSettings α} (h : Triangulation.build settings s = .ok t) {P : Nat → Prop} :
    (∀ strategy hint, ∃ j, ((fresh strategy hint).locate? t s p).1 = some (.inside j) ∧ P j) ↔
      (∀ j < t.size, ∀ k, exit? t s p j = some k → t.neighbour? j k ≠ none) ∧ (∀ j < t.size, exit? t s p j = none → P j) ∧
      ∃ j, scan? t s p = some (.inside j) ∧ P j := by
  constructor
  · intro hall
    refine ⟨fun j hj k hexit hnone => ?_, fun j hj hexit => ?_, ?_⟩
    · -- A walk that starts where it leaves the hull answers "outside".
      obtain ⟨j', hplace, -⟩ := hall .walk (some j)
      rw [locate?_walk, start_some hj, walkFrom_left hexit hnone] at hplace
      exact not_inside_outside? hplace
    · obtain ⟨j', hplace, hj'⟩ := hall .walk (some j)
      rw [locate?_walk, start_some hj, walkFrom_arrived hexit] at hplace
      cases hplace
      exact hj'
    · rw [← locate?_scan none]
      exact hall .scan none
  · rintro ⟨hhull, harrive, hscan⟩ strategy hint
    cases strategy with
    | scan =>
      rw [locate?_scan]
      exact hscan
    | walk =>
      rw [locate?_fst]
      obtain ⟨j, hj, hexit, hwalk⟩ | ⟨j, hj, k, hexit, hnone, -⟩ | hwalk :=
        walk?_cases (s := s) (p := p) (Triangulation.neighbour_lt_of_build h) (Triangulation.size_pos_of_build h) (fresh .walk hint)
      · exact ⟨j, hwalk, harrive j hj hexit⟩
      · exact absurd hnone (hhull j hj k hexit)
      · obtain ⟨j, hplace, hj⟩ := hscan
        exact ⟨j, hwalk.trans hplace, hj⟩

end Locator

/-! ## The corner at a point -/

/-- The corner whose height a triangle has at a point: the first at the same place. -/
def Triangle.cornerAt? (c : Triangle) (s : Samples α) (p : Point α) : Option Nat :=
  c.toList.find? fun v => (s.point v).same p

theorem Triangle.planarHeight_congr {s s' : Samples α} {c : Triangle} (hpoint : s'.point = s.point)
    (hheight : ∀ v ∈ c, s'.height v = s.height v) : c.planarHeight s' p = c.planarHeight s p := by
  unfold planarHeight
  rw [hpoint, hheight c.fst ((Triple.mem_iff _ _).2 ⟨0, rfl⟩), hheight c.snd ((Triple.mem_iff _ _).2 ⟨1, rfl⟩),
    hheight c.trd ((Triple.mem_iff _ _).2 ⟨2, rfl⟩)]

namespace Interpolant

variable {margin : α} {j : Nat}

theorem value?_fst (l : Locator) :
    (value? t s margin l p).1.map (·.1) = (l.locate? t s p).1.map (heightAt t s margin p) := by
  rw [value?, Option.map_map]
  rfl

theorem heightAt_corner {i : Nat} (h : (t.triangle j).cornerAt? s p = some i) : heightAt t s margin p (.inside j) = s.height i := by
  rw [Triangle.cornerAt?] at h
  rw [heightAt, h]

theorem heightAt_flat (h : (t.triangle j).cornerAt? s p = none) :
    heightAt t s margin p (.inside j) = (t.triangle j).planarHeight s p := by
  rw [Triangle.cornerAt?] at h
  rw [heightAt, h]

/-! ## Double precision -/

section Double

variable {s : Samples Float} {settings : BuildSettings Float} {i : Nat}

theorem same_self {p : Point Float} (h : p.x.isFinite = true ∧ p.y.isFinite = true) : p.same p = true :=
  (Schedule.same_iff_bitRank h h).2 ⟨.inl rfl, .inl rfl⟩

/-- Samples with a triangulation have finite coordinates. -/
theorem isFinite_of_build (h : Triangulation.build settings s = .ok t) (hi : i < s.size) :
    (s.point i).x.isFinite = true ∧ (s.point i).y.isFinite = true := by
  obtain ⟨m, hm, -⟩ := Triangulation.build_eq_ok.1 h
  exact Schedule.isFinite_of_notFinite? (Schedule.validate_ok_iff.1 (Triangulation.mesh_eq_ok.1 hm).1).1 hi

/-- A triangle that has the height of sample `i` at its point, whatever the heights are, has it as the corner there. -/
theorem cornerAt?_of_heightAt (h : Triangulation.build settings s = .ok t) (hi : i < s.size) (margin : Float)
    (hz : ∀ z : Nat → Float, (z i).isFinite = true → heightAt t (s.withHeights z) margin (s.point i) (.inside j) = z i) :
    (t.triangle j).cornerAt? s (s.point i) = some i := by
  -- The heights are all zero but that of sample `i`, or all zero.
  let peak : Nat → Float := fun k => if k = i then 1 else 0
  have hpeak : peak i = 1 := if_pos rfl
  have hone := hz peak (by rw [hpeak]; decide +kernel)
  have hzero := hz (fun _ => 0) (by decide +kernel)
  have hne : (0 : Float) ≠ 1 := by decide +kernel
  cases hcorner : (t.triangle j).cornerAt? s (s.point i) with
  | some v =>
    by_contra hv
    have hpeakv : peak v = 0 := if_neg fun e => hv (congrArg some e)
    rw [heightAt_corner (s := s.withHeights peak) hcorner, hpeak, Samples.height_withHeights_zero hpeakv] at hone
    exact hne hone
  | none =>
    -- Sample `i` is no corner, so the plane through the corners does not know its height.
    have hcongr : (t.triangle j).planarHeight (s.withHeights peak) (s.point i) =
        (t.triangle j).planarHeight (s.withHeights fun _ => 0) (s.point i) := by
      refine Triangle.planarHeight_congr rfl fun v hv => ?_
      have hvi : v ≠ i := by
        rintro rfl
        exact absurd (same_self (isFinite_of_build h hi)) (List.find?_eq_none.1 hcorner v hv)
      have hpeakv : peak v = 0 := if_neg hvi
      rw [Samples.height_withHeights_zero hpeakv]
      exact (Samples.height_withHeights_zero (z := fun _ => (0 : Float)) rfl).symm
    rw [heightAt_flat (s := s.withHeights peak) hcorner, hcongr, hpeak] at hone
    rw [heightAt_flat (s := s.withHeights fun _ => 0) hcorner] at hzero
    exact absurd (hzero.symm.trans hone) hne

/-- A locator takes sample `i` to its height, whatever the heights, exactly when it puts it into a triangle that has it as
the corner there. -/
theorem value?_eq_iff (h : Triangulation.build settings s = .ok t) (hi : i < s.size) (l : Locator) :
    (∀ z : Nat → Float, (z i).isFinite = true → ∀ margin, (value? t (s.withHeights z) margin l (s.point i)).1.map (·.1) = some (z i)) ↔
      ∃ j, (l.locate? t s (s.point i)).1 = some (.inside j) ∧ (t.triangle j).cornerAt? s (s.point i) = some i := by
  simp only [value?_fst, Locator.locate?_withHeights]
  constructor
  · intro hall
    have hflat := hall (fun _ => 0) (by decide +kernel) 1
    obtain ⟨place, hplace, hout⟩ := Option.map_eq_some_iff.1 hflat
    rw [hplace] at hall
    cases place with
    | inside j => exact ⟨j, hplace, cornerAt?_of_heightAt h hi 0 fun z hz => Option.some.inj (hall z hz 0)⟩
    | outside e =>
      -- Outside the answer is the margin's height, here not that of the sample.
      have hne : (1 : Float) ≠ 0 := by decide +kernel
      exact absurd hout hne
  · rintro ⟨j, hplace, hcorner⟩ z - margin
    rw [hplace]
    exact congrArg some ((heightAt_corner (s := s.withHeights z) hcorner).trans (Samples.height_withHeights hi))

/-- The surface takes the height of sample `i` at its point, whatever the heights, wherever a walk starts and also by a
scan, exactly when
* no triangle has the point beyond an edge on the hull,
* each triangle that has it beyond none of its edges has the sample as its corner there, and
* so has the triangle that a scan puts the point into. -/
theorem reproduced_iff (h : Triangulation.build settings s = .ok t) (hi : i < s.size) :
    (∀ z : Nat → Float, (z i).isFinite = true → ∀ margin strategy hint,
        (value? t (s.withHeights z) margin (.fresh strategy hint) (s.point i)).1.map (·.1) = some (z i)) ↔
      (∀ j < t.size, ∀ k, Locator.exit? t s (s.point i) j = some k → t.neighbour? j k ≠ none) ∧
      (∀ j < t.size, Locator.exit? t s (s.point i) j = none → (t.triangle j).cornerAt? s (s.point i) = some i) ∧
      ∃ j, Locator.scan? t s (s.point i) = some (.inside j) ∧ (t.triangle j).cornerAt? s (s.point i) = some i := by
  rw [← Locator.inside_iff h]
  simp only [← value?_eq_iff h hi]
  constructor
  · exact fun hall strategy hint z hz margin => hall z hz margin strategy hint
  · exact fun hall z hz margin strategy hint => hall strategy hint z hz margin

theorem reproduced_iff_dented : Triangulation.build .standard Triangulation.dented = .ok Triangulation.dentedTables ∧
    0 < Triangulation.dented.size ∧ ∀ z : Nat → Float, (z 0).isFinite = true → ∀ margin strategy hint,
      (value? Triangulation.dentedTables (Triangulation.dented.withHeights z) margin (.fresh strategy hint)
        (Triangulation.dented.point 0)).1.map (·.1) = some (z 0) :=
  ⟨Triangulation.build_dented, by decide, (reproduced_iff Triangulation.build_dented (by decide)).2
    ⟨by decide +kernel, by decide +kernel, 0, by decide +kernel, by decide +kernel⟩⟩

/-- The dented samples at the heights 1 to 4. -/
def dentedHill : Samples Float := Triangulation.dented.withHeights fun i => Scalar.ofCount (i + 1)

/-- A walk from the first triangle puts sample 1, of height 2, outside, where the surface has the margin's height. -/
theorem lost_dentedHill : Triangulation.build .standard dentedHill = .ok Triangulation.dentedTables ∧
    dentedHill.height 1 = 2 ∧
    (value? Triangulation.dentedTables dentedHill (-7) (.fresh .walk none) (dentedHill.point 1)).1.map (·.1) = some (-7) :=
  ⟨(Triangulation.build_withHeights _).trans Triangulation.build_dented, by decide +kernel, by decide +kernel⟩

end Double

/-! ## Exact numbers -/

/-- Over exact numbers and with no tolerance the surface has the height of each sample at its point, with either strategy and
whatever the locator remembers. -/
theorem reproduced_exact {s : Samples Rat} {budget i : Nat} (h : Triangulation.build ⟨budget, ⟨0⟩⟩ s = .ok t) (hi : i < s.size)
    (margin : Rat) (l : Locator) : (value? t s margin l (s.point i)).1.map (·.1) = some (s.height i) := by
  have hpaving := Triangulation.paving_of_build h
  have hf := hpaving.flatSurface_patched
  have hanswer := answers_of_flatSurface hpaving hf margin l (s.point i)
  cases hv : (value? t s margin l (s.point i)).1 with
  | none =>
    rw [hv] at hanswer
    exact hanswer.elim
  | some answer =>
    obtain ⟨z, place⟩ := answer
    rw [hv] at hanswer
    cases place with
    | outside e =>
      -- No sample is outside the hull.
      refine absurd (fun e he => ?_) hanswer.1
      rw [realCross_real, Rat.cast_nonneg]
      exact (Triangulation.sheet_of_build h).hull_left he hi
    | inside j =>
      obtain ⟨-, hz, hj, hin, -⟩ := hanswer
      rw [hf.corner j hj i (Triangulation.corner_of_region h hj hi hin), Rat.cast_inj] at hz
      exact congrArg some hz

end Interpolant

end DelaunaySurface
