import DelaunaySurface.Proofs.Triangulation.Convexity
import DelaunaySurface.Proofs.Triangulation.Tiling
import DelaunaySurface.Proofs.Triangulation.Walk
/-!
# When walks and scans agree

A walk answers "outside" at the first hull edge that has the point beyond it; a scan does so only when no
triangle holds the point. For a point they agree, wherever the walks start, exactly when no hull edge has
it beyond while a triangle holds it, and no triangle has it beyond none of its edges while the scan rules
it out (`agree_iff`). Over exact numbers and with no tolerance this is always so (`agree_exact`); with one
it can fail, where an insertion left a dent in the hull (`engines_dented`).
-/

namespace DelaunaySurface

variable {α : Type} [Scalar α] {t : Triangulation} {s : Samples α} {p : Point α}

namespace Triangulation

/-- A triangle without a neighbour across an edge has a side of the hull there. -/
theorem hullSide_of_build {settings : BuildSettings α} (h : build settings s = .ok t) {i : Nat} {k : Fin 3} (hi : i < t.size) :
    t.neighbour? i k = none ↔ (t.triangle i).side k ∈ t.hullSides := by
  obtain ⟨m, hm, rfl⟩ := build_eq_ok.1 h
  obtain ⟨sites, hsurface, hperm⟩ := closedSurface_of_mesh hm
  have hlt : ∀ i ∈ sites, i < s.size := fun i hi => List.mem_range.1 (hperm.mem_iff.1 hi)
  rw [size_ofMesh] at hi
  rw [neighbour?_ofMesh_none hsurface hi, triangle_ofMesh hi]
  exact (hsurface.mem_cyclicPairs_hull hlt).symm

theorem hullEdges_of_build {settings : BuildSettings α} (h : build settings s = .ok t) :
    t.hullEdges = t.hullSides.map fun e => Edge.between e.1 e.2 := by
  obtain ⟨m, -, rfl⟩ := build_eq_ok.1 h
  rfl

end Triangulation

namespace Locator

theorem nearestEdge?_isSome (h : t.hullEdges ≠ []) : ∃ e, outside? t s p = some (.outside e) := by
  rw [outside?, nearestEdge?]
  split
  · exact absurd ‹_› h
  · exact ⟨_, rfl⟩

/-- The side of an exit has the point to its right. -/
theorem cross_of_exit? {i : Nat} {k : Fin 3} (h : exit? t s p i = some k) :
    cross (s.point ((t.triangle i).side k).1) (s.point ((t.triangle i).side k).2) p < 0 := by
  have := List.find?_some h
  rw [decide_eq_true_eq, Triangle.points, Triple.get_map, Triple.get_map] at this
  exact this

theorem not_cross_of_exit? {i : Nat} (h : exit? t s p i = none) (k : Fin 3) :
    ¬cross (s.point ((t.triangle i).side k).1) (s.point ((t.triangle i).side k).2) p < 0 := by
  have := List.find?_eq_none.1 h k (Triple.mem_indices k)
  rw [decide_eq_true_eq, Triangle.points, Triple.get_map, Triple.get_map] at this
  exact this

/-- A scan answers "outside" when no triangle holds the point and the point is beyond the hull. -/
theorem scan?_outside_iff (hsize : 0 < t.size) (hhull : t.hullSides ≠ [] → t.hullEdges ≠ []) :
    (scan? t s p).any Location.isOutside = true ↔
      (∀ i < t.size, ¬0 ≤ depth t s p i) ∧ beyondHull t s p = true := by
  rw [scan?]
  split
  · rename_i i hi
    obtain ⟨hmem, hdepth⟩ := scanFrom_holds hi
    exact iff_of_false Bool.false_ne_true fun h => h.1 i (List.mem_range.1 hmem) hdepth
  · rename_i found hfound
    obtain ⟨hdepth, -, hsome⟩ := scanFrom_best hfound
    have hnone : ∀ i < t.size, ¬0 ≤ depth t s p i := fun i hi => hdepth i (List.mem_range.2 hi)
    split
    · rename_i hbeyond
      have hsides : t.hullSides ≠ [] := by
        rintro h
        rw [beyondHull, h] at hbeyond
        cases hbeyond
      obtain ⟨e, he⟩ := nearestEdge?_isSome (s := s) (p := p) (hhull hsides)
      rw [he]
      exact iff_of_true rfl ⟨hnone, hbeyond⟩
    · rename_i hbeyond
      obtain ⟨b, rfl⟩ := Option.isSome_iff_exists.1 (hsome (.inr (by simp; omega)))
      exact iff_of_false Bool.false_ne_true fun h => hbeyond h.2

/-- Where a walk leaves the triangles the point is beyond the hull, and the answer is "outside". -/
theorem beyond_of_left {settings : BuildSettings α} (h : Triangulation.build settings s = .ok t) {i : Nat} {k : Fin 3}
    (hi : i < t.size) (hexit : exit? t s p i = some k) (hnone : t.neighbour? i k = none) :
    beyondHull t s p = true ∧ (outside? t s p).any Location.isOutside = true := by
  have hside := (Triangulation.hullSide_of_build h hi).1 hnone
  have hedges : t.hullEdges ≠ [] := by
    rw [Triangulation.hullEdges_of_build h]
    exact List.ne_nil_of_mem (List.mem_map_of_mem hside)
  obtain ⟨e, he⟩ := nearestEdge?_isSome (s := s) (p := p) hedges
  exact ⟨List.any_eq_true.2 ⟨_, hside, decide_eq_true (cross_of_exit? hexit)⟩, by rw [he]; rfl⟩

/-- A walk, wherever it starts, answers like a scan where no triangle holds a point that it would leave the hull for, and where
the scan does not rule out a point that a walk arrives at. -/
theorem agree_of_held {settings : BuildSettings α} (h : Triangulation.build settings s = .ok t)
    (hleft : ∀ i < t.size, ∀ k, exit? t s p i = some k → t.neighbour? i k = none → ∀ j < t.size, ¬0 ≤ depth t s p j)
    (harrived : ∀ i < t.size, exit? t s p i = none → beyondHull t s p = true → ∃ j < t.size, 0 ≤ depth t s p j)
    (hint : Option Nat) : ((fresh .walk hint).locate? t s p).1.any Location.isOutside =
      ((fresh .scan hint).locate? t s p).1.any Location.isOutside := by
  have hsize := Triangulation.size_pos_of_build h
  have hscan := scan?_outside_iff (s := s) (p := p) hsize (by rw [Triangulation.hullEdges_of_build h]; simp)
  have hsearch : (fresh .walk hint).search? t s p = (fresh .walk hint).walk? t s p := rfl
  rw [locate?_fst, hsearch, locate?_scan]
  obtain ⟨i, hi, hexit, hwalk⟩ | ⟨i, hi, k, hexit, hnone, hwalk⟩ | hwalk :=
    walk?_cases (s := s) (p := p) (Triangulation.neighbour_lt_of_build h) hsize (fresh .walk hint)
  all_goals rw [hwalk]
  · refine (Bool.eq_false_iff.2 fun hout => ?_).symm
    obtain ⟨hnone, hbeyond⟩ := hscan.1 hout
    obtain ⟨j, hj, hdepth⟩ := harrived i hi hexit hbeyond
    exact hnone j hj hdepth
  · obtain ⟨hbeyond, hout⟩ := beyond_of_left h hi hexit hnone
    exact hout.trans (hscan.2 ⟨hleft i hi k hexit hnone, hbeyond⟩).symm

/-- A build answers alike about a point by walks, wherever they start, and by a scan, exactly when
* no triangle holds a point that a triangle has beyond an edge on the hull, and
* some triangle holds a point that is beyond the hull, and that a triangle has beyond none of its edges. -/
theorem agree_iff {settings : BuildSettings α} (h : Triangulation.build settings s = .ok t) :
    (∀ hint, ((fresh .walk hint).locate? t s p).1.any Location.isOutside =
        ((fresh .scan hint).locate? t s p).1.any Location.isOutside) ↔
      (∀ i < t.size, ∀ k, exit? t s p i = some k → t.neighbour? i k = none → ∀ j < t.size, ¬0 ≤ depth t s p j) ∧
      ∀ i < t.size, exit? t s p i = none → beyondHull t s p = true → ∃ j < t.size, 0 ≤ depth t s p j := by
  have hsize := Triangulation.size_pos_of_build h
  have hscan := scan?_outside_iff (s := s) (p := p) hsize (by rw [Triangulation.hullEdges_of_build h]; simp)
  constructor
  · -- A walk from the triangle in question ends there.
    intro hagree
    simp only [locate?_walk, locate?_scan] at hagree
    refine ⟨fun i hi k hexit hnone => ?_, fun i hi hexit hbeyond => ?_⟩
    · have hat := hagree (some i)
      rw [start_some hi, walkFrom_left hexit hnone] at hat
      exact (hscan.1 (hat.symm.trans (beyond_of_left h hi hexit hnone).2)).1
    · have hat := hagree (some i)
      rw [start_some hi, walkFrom_arrived hexit] at hat
      by_contra hno
      rw [hscan.2 ⟨fun j hj hdepth => hno ⟨j, hj, hdepth⟩, hbeyond⟩] at hat
      cases hat
  · rintro ⟨hleft, harrived⟩
    exact agree_of_held h hleft harrived

theorem agree_iff_kite : ∃ t, Triangulation.build ⟨100, ⟨0⟩⟩ Triangulation.kite = .ok t ∧
    ((∀ hint, ((fresh .walk hint).locate? t Triangulation.kite ⟨1, 1⟩).1.any Location.isOutside =
        ((fresh .scan hint).locate? t Triangulation.kite ⟨1, 1⟩).1.any Location.isOutside) ↔
      (∀ i < t.size, ∀ k, exit? t Triangulation.kite ⟨1, 1⟩ i = some k → t.neighbour? i k = none →
        ∀ j < t.size, ¬0 ≤ depth t Triangulation.kite ⟨1, 1⟩ j) ∧
      ∀ i < t.size, exit? t Triangulation.kite ⟨1, 1⟩ i = none → beyondHull t Triangulation.kite ⟨1, 1⟩ = true →
        ∃ j < t.size, 0 ≤ depth t Triangulation.kite ⟨1, 1⟩ j) := by
  obtain ⟨t, ht⟩ := Triangulation.build_kite
  exact ⟨t, ht, @agree_iff Rat _ t Triangulation.kite ⟨1, 1⟩ ⟨100, ⟨0⟩⟩ ht⟩

/-! ## Exact numbers -/

/-- A triangle holds a point that is to the right of none of its sides. -/
theorem depth_nonneg_iff {s : Samples Rat} {p : Point Rat} {i : Nat} :
    0 ≤ depth t s p i ↔ ∀ k, 0 ≤ (t.triangle i).sideCross s k p := by
  rw [depth, Scalar.lesser_rat, Scalar.lesser_rat, le_min_iff, le_min_iff]
  refine ⟨fun ⟨⟨h2, h0⟩, h1⟩ k => ?_, fun h => ⟨⟨h 2, h 0⟩, h 1⟩⟩
  rcases Triple.eq_zero_or k with rfl | rfl | rfl
  · exact h0
  · exact h1
  · exact h2

/-- Over exact numbers and with no tolerance walks and scans always agree. -/
theorem agree_exact {s : Samples Rat} {budget : Nat} (h : Triangulation.build ⟨budget, ⟨0⟩⟩ s = .ok t) (p : Point Rat)
    (hint : Option Nat) : ((fresh .walk hint).locate? t s p).1.any Location.isOutside =
      ((fresh .scan hint).locate? t s p).1.any Location.isOutside := by
  have hsheet := Triangulation.sheet_of_build h
  refine agree_of_held h (fun i hi k hexit hnone j hj hdepth => ?_)
    (fun i hi hexit _ => ⟨i, hi, depth_nonneg_iff.2 fun k => ?_⟩) hint
  · -- What a triangle holds lies in the convex hull, which no hull side has to its right.
    have hregion : p.real ∈ (t.triangle j).region s := (hsheet.mem_region hj).2 fun k => by
      rw [realCross_real, Rat.cast_nonneg]
      exact depth_nonneg_iff.1 hdepth k
    have hleft := hsheet.realCross_nonneg ((Triangulation.hullSide_of_build h hi).1 hnone) (hsheet.region_subset hj hregion)
    rw [realCross_real, Rat.cast_nonneg] at hleft
    exact hleft.not_gt (cross_of_exit? hexit)
  · exact not_lt.1 (not_cross_of_exit? hexit k)

/-! ## A dent -/

/-- A point that a walk from the first triangle finds outside, a scan and a walk from the second one inside. -/
theorem engines_dented : ∃ t, Triangulation.build .standard Triangulation.dented = .ok t ∧
    ((fresh .walk none).locate? t Triangulation.dented ⟨900000000, 900000004⟩).1 = some (.outside ⟨1, 3⟩) ∧
    ((fresh .scan none).locate? t Triangulation.dented ⟨900000000, 900000004⟩).1 = some (.inside 1) ∧
    ((fresh .walk (some 1)).locate? t Triangulation.dented ⟨900000000, 900000004⟩).1 = some (.inside 1) :=
  ⟨Triangulation.dentedTables, Triangulation.build_dented, by decide +kernel, by decide +kernel, by decide +kernel⟩

end Locator

end DelaunaySurface
