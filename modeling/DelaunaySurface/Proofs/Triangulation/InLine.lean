import DelaunaySurface.Proofs.Triangulation.Exact
/-!
# Samples on one line

A build is refused as collinear when no sample turns off the line through the first two of its order. Samples that are
all in line with each other are (`collinear_iff`). The converse takes exact numbers and no tolerance
(`collinear_iff_exact`): two samples close to each other may be in line, within a tolerance, with samples far away that
form any triangle (`collinear_distantTriangle`).
-/

namespace DelaunaySurface

namespace Schedule

variable {α : Type} [Scalar α] {tol : Tolerance α} {s : Samples α}

/-- Any three samples are in line. -/
def AllInLine (tol : Tolerance α) (s : Samples α) : Prop :=
  ∀ i < s.size, ∀ j < s.size, ∀ k < s.size, i ≠ j ∧ j ≠ k ∧ i ≠ k →
    turn tol (s.point i) (s.point j) (s.point k) = .straight

instance : Decidable (AllInLine tol s) :=
  inferInstanceAs (Decidable (∀ i < s.size, ∀ j < s.size, ∀ k < s.size, i ≠ j ∧ j ≠ k ∧ i ≠ k →
    turn tol (s.point i) (s.point j) (s.point k) = .straight))

/-- All samples are in line with the first two to be inserted. -/
def InLineWithFirst (tol : Tolerance α) (s : Samples α) : Prop :=
  ∃ a b rest, order s = a :: b :: rest ∧ ∀ c ∈ rest, turn tol (s.point a) (s.point b) (s.point c) = .straight

theorem AllInLine.inLineWithFirst (h : AllInLine tol s) (hsize : 2 ≤ s.size) : InLineWithFirst tol s := by
  obtain ⟨a, b, rest, horder, hnodup, hmem⟩ := exists_first_two hsize
  simp only [List.nodup_cons, List.mem_cons, not_or] at hnodup hmem
  obtain ⟨⟨hab, ha⟩, hb, -⟩ := hnodup
  refine ⟨a, b, rest, horder, fun c hc => ?_⟩
  have hac : a ≠ c := by
    rintro rfl
    exact ha hc
  have hbc : b ≠ c := by
    rintro rfl
    exact hb hc
  exact h a ((hmem a).1 (.inl rfl)) b ((hmem b).1 (.inr (.inl rfl))) c ((hmem c).1 (.inr (.inr hc))) ⟨hab, hbc, hac⟩

theorem seed_eq_collinear_iff (hsize : 2 ≤ s.size) : seed tol s (order s) = .error .collinear ↔ InLineWithFirst tol s := by
  obtain ⟨a, b, rest, horder, -, -⟩ := exists_first_two hsize
  have hline : InLineWithFirst tol s ↔ firstTriangle? tol s a b rest = none := by
    rw [firstTriangle?_eq_none_iff, InLineWithFirst, horder]
    constructor
    · rintro ⟨a', b', rest', e, hall⟩
      cases e
      exact hall
    · intro hall
      exact ⟨a, b, rest, rfl, hall⟩
  rw [horder, hline, seed]
  cases firstTriangle? tol s a b rest <;> simp

end Schedule

namespace Triangulation

open Schedule (AllInLine InLineWithFirst)

section

variable {α : Type} [Scalar α] {settings : BuildSettings α} {s : Samples α}

/-- Only the choice of the seed finds samples to be in line. -/
theorem build_eq_collinear_iff (h : Schedule.validate s = .ok ()) :
    build settings s = .error .collinear ↔ InLineWithFirst settings.tolerance s := by
  have hsize : 2 ≤ s.size := by have := (Schedule.validate_ok_iff.1 h).2.1; omega
  rw [← Schedule.seed_eq_collinear_iff hsize, build_eq_error, mesh, h]
  change Schedule.seed settings.tolerance s (Schedule.order s) >>= _ = _ ↔ _
  rw [bind_eq_error]
  constructor
  · rintro (hseed | ⟨found, -, hrun⟩)
    · exact hseed
    · rcases Mesh.insertAll_error hrun with ⟨i, -, e⟩ | e <;> cases e
  · exact .inl

/-- An accepted set of samples is refused as collinear exactly when all are in line with the first two of the order.
Those whose samples are all in line with each other are refused, and they are the only ones exactly when being in line
with the first two makes all samples be in line. -/
theorem collinear_iff (h : Schedule.validate s = .ok ()) :
    (build settings s = .error .collinear ↔ InLineWithFirst settings.tolerance s) ∧
    (AllInLine settings.tolerance s → build settings s = .error .collinear) ∧
    ((build settings s = .error .collinear ↔ AllInLine settings.tolerance s) ↔
      (InLineWithFirst settings.tolerance s → AllInLine settings.tolerance s)) := by
  have hfirst : build settings s = .error .collinear ↔ InLineWithFirst settings.tolerance s := build_eq_collinear_iff h
  have hall : AllInLine settings.tolerance s → InLineWithFirst settings.tolerance s := fun hall =>
    hall.inLineWithFirst (by have := (Schedule.validate_ok_iff.1 h).2.1; omega)
  refine ⟨hfirst, fun ha => hfirst.2 (hall ha), ?_⟩
  rw [hfirst]
  exact ⟨fun hiff => hiff.1, fun himp => ⟨himp, hall⟩⟩

end

/-- Three samples on the axis. -/
def threeInLine : Samples Rat := .ofList [⟨0, 0, 0⟩, ⟨1, 0, 1⟩, ⟨2, 0, 2⟩]

theorem collinear_iff_threeInLine : Schedule.validate threeInLine = .ok () ∧
    build ⟨100, ⟨0⟩⟩ threeInLine = .error .collinear := by
  have hvalid : Schedule.validate threeInLine = .ok () := Schedule.validate_exact (by decide) (by decide)
  have hall : AllInLine ⟨0⟩ threeInLine := by decide +kernel
  exact ⟨hvalid, (@collinear_iff Rat _ ⟨100, ⟨0⟩⟩ threeInLine hvalid).2.1 hall⟩

/-- Over exact numbers and with no tolerance, a build is refused as collinear exactly when all samples are in line. -/
theorem collinear_iff_exact {s : Samples Rat} {budget : Nat} (h : Schedule.validate s = .ok ()) :
    build ⟨budget, ⟨0⟩⟩ s = .error .collinear ↔ AllInLine ⟨0⟩ s := by
  refine ⟨fun hbuild i hi j hj k hk _ => ?_, (@collinear_iff Rat _ ⟨budget, ⟨0⟩⟩ s h).2.1⟩
  by_contra hturn
  rw [turn_eq_straight] at hturn
  rw [build_eq_error] at hbuild
  rcases @mesh_cases s budget (Schedule.ne_of_validate h) ⟨i, hi, j, hj, k, hk, hturn⟩ with herror | ⟨m, -, hm, -⟩
  · rw [herror] at hbuild
    cases hbuild
  · rw [hm] at hbuild
    cases hbuild

/-! ## A triangle far away -/

/-- Two samples close to each other, and the corners of half a square in the direction from one to the other. -/
def distantTriangle : Samples Float := .ofList [⟨0, 0, 0⟩, ⟨1, 1, 0⟩, ⟨1000000000, 1000000001, 0⟩,
  ⟨1000000001, 1000000000, 0⟩, ⟨1000000001, 1000000001, 0⟩]

theorem order_distantTriangle : Schedule.order distantTriangle = [0, 1, 2, 3, 4] := by
  have hbounds : distantTriangle.bounds = .ok ⟨0, 1000000001, 0, 1000000001⟩ := by decide +kernel
  have hkeys : (List.range distantTriangle.size).map (Schedule.key distantTriangle ⟨0, 1000000001, 0, 1000000001⟩) =
      [⟨0, 0, 0⟩, ⟨0, 0, 1⟩, ⟨1, 0, 2⟩, ⟨1, 0, 3⟩, ⟨1, 0, 4⟩] := by decide +kernel
  rw [Schedule.order_eq hbounds hkeys]
  cbv

/-- With the standard settings these samples are refused, though the last three turn. -/
theorem collinear_distantTriangle : Schedule.validate distantTriangle = .ok () ∧
    build .standard distantTriangle = .error .collinear ∧
    turn .standard (distantTriangle.point 2) (distantTriangle.point 3) (distantTriangle.point 4) = .left := by
  have hvalid : Schedule.validate distantTriangle = .ok () :=
    Schedule.validate_eq_ok (by decide +kernel) (by decide) (by decide +kernel)
  refine ⟨hvalid, (build_eq_collinear_iff hvalid).2 ⟨0, 1, [2, 3, 4], order_distantTriangle, ?_⟩, ?_⟩
  · decide +kernel
  · decide +kernel

end Triangulation

end DelaunaySurface
