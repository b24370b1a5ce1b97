import DelaunaySurface.Proofs.Mesh.Population
import DelaunaySurface.Proofs.Triangulation.Coherence
/-!
# When no sample is lost

A build can absorb all cells around a sample into one cavity and still succeed: nothing looks for that.
All samples are corners, and there are as many triangles as Euler's formula asks for, exactly when every
cavity of the run was a disk with all its corners on the rim (`complete_iff`).
-/

namespace DelaunaySurface

namespace Mesh

variable {m : Mesh} {sites : List Nat} {count : Nat}

namespace ClosedSurface

/-- The cells in use are triangles and unbounded cells, one behind each hull side. -/
theorem population_eq (h : m.ClosedSurface sites) : m.population = m.triangleSlots.length + m.outerSides.length := by
  have houter : m.outerSides.length = (m.liveSlots.filter fun t => !(m.cell t).bounded).length := by
    rw [outerSides, List.length_filterMap_eq_countP, ← List.countP_eq_length_filter, liveSlots, List.countP_filter]
    refine List.countP_congr fun t _ => ?_
    simp only [Bool.and_eq_true, Bool.not_eq_true', decide_eq_true_eq]
    constructor
    · intro hsome
      obtain ⟨s, hs⟩ := Option.isSome_iff_exists.1 hsome
      rw [Option.ite_none_right_eq_some] at hs
      exact ⟨unbounded_of_hullSide hs.2, hs.1⟩
    · rintro ⟨hb, ht⟩
      obtain ⟨-, s, -, -, hs⟩ := h.exists_hullSide ht hb
      exact Option.isSome_iff_exists.2 ⟨s, Option.ite_none_right_eq_some.2 ⟨ht, hs⟩⟩
  have htriangle : m.triangleSlots = m.liveSlots.filter fun t => (m.cell t).bounded := by
    rw [triangleSlots, liveSlots, List.filter_filter]
    refine List.filter_congr fun t _ => ?_
    rw [Bool.and_comm]
    congr 1
    exact (Bool.decide_eq_true).symm
  rw [population, List.length_eq_length_filter_add (fun t => (m.cell t).bounded), houter, htriangle]

theorem length_hull (h : m.ClosedSurface sites) (hc : ∀ i ∈ sites, i < count) :
    (hullOf (m.successors count)).length = m.outerSides.length := by
  rw [← Triangulation.length_cyclicPairs, (h.cyclicPairs_hull_perm hc).length_eq]

/-- A point that is a corner of a cell is one of a triangle. -/
theorem exists_triangle (h : m.ClosedSurface sites) {i : Nat} (hi : m.Present i) :
    ∃ t k, m.Live t ∧ (m.cell t).bounded = true ∧ (m.cell t).corners.get k = .site i := by
  obtain ⟨t, k, ht, e⟩ := hi
  cases hb : (m.cell t).bounded with
  | true => exact ⟨t, k, ht, hb, e⟩
  | false =>
    -- The triangle before the hull side of the cell has both of its ends.
    obtain ⟨j, s, hj, hs, -⟩ := h.exists_hullSide ht hb
    have hbehind := (h.finite_side t j _ _ ht hs).resolve_left (by rw [hb]; nofun)
    have htwin : m.side (m.behind t j) (m.twin (t, j)).2 = (m.side t j).reverse := h.side_twin ht j
    rcases Triple.eq_or_next_or_previous k j with rfl | rfl | rfl
    · rw [hj] at e; cases e
    · exact ⟨_, _, h.live_behind ht j, hbehind, (congrArg Side.head htwin).trans e⟩
    · exact ⟨_, _, h.live_behind ht j, hbehind, (congrArg Side.tail htwin).trans e⟩

end ClosedSurface

end Mesh

namespace Triangulation

variable {α : Type} [Scalar α] {settings : BuildSettings α} {s : Samples α}

theorem isSome_incident {m : Mesh} {sites : List Nat} {count i : Nat} (h : m.ClosedSurface sites) (hc : ∀ i ∈ sites, i < count)
    (hi : m.Present i) : ((ofMesh count m).incidentTriangle? i).isSome = true := by
  obtain ⟨t, k, ht, hb, e⟩ := h.exists_triangle hi
  obtain ⟨p, hp, rfl⟩ := Mesh.exists_slotOf ht hb
  rw [incident_ofMesh h hc, List.find?_isSome]
  refine ⟨p, List.mem_range.2 hp, decide_eq_true ?_⟩
  rw [triangle_ofMesh hp, Triple.mem_iff]
  rw [Mesh.corner_eq_site hb] at e
  exact ⟨k, Corner.site.inj e⟩

/-- A build that succeeds has every sample at a triangle, and the number of triangles that goes with its
hull, exactly when each of its cavities was a disk. -/
theorem complete_iff {t : Triangulation} (h : build settings s = .ok t) :
    ((∀ i < s.size, (t.incidentTriangle? i).isSome = true) ∧ t.size + 2 + t.hull.length = 2 * s.size) ↔
      ∀ first others, Schedule.seed settings.tolerance s (Schedule.order s) = .ok (first, others) →
        (Mesh.seed first).DisksOnly settings.budget (verdicts settings.tolerance s) others := by
  obtain ⟨m, hm, rfl⟩ := build_eq_ok.1 h
  obtain ⟨-, first, others, hs, hrun⟩ := mesh_eq_ok.1 hm
  have hnodup := Schedule.schedule_nodup hs
  have hseed := Schedule.closedSurface_seed hs
  have hsurface := hseed.insertAll hnodup hrun
  have hlt : ∀ i ∈ first.toList ++ others, i < s.size := fun i => Schedule.lt_of_mem_schedule hs
  have hsize : 3 + others.length = s.size := by
    have := (Schedule.schedule_perm hs).length_eq
    rwa [List.length_append, List.length_range] at this
  -- Triangles and hull sides make up the cells in use.
  have hcells : (ofMesh s.size m).size + (ofMesh s.size m).hull.length = m.population := by
    rw [size_ofMesh, hull_ofMesh, hsurface.length_hull hlt, hsurface.population_eq]
  have hpop := (hseed.population_insertAll hnodup hrun).2
  rw [Mesh.population_seed] at hpop
  constructor
  · rintro ⟨-, hcount⟩ first' others' hs'
    rw [hs] at hs'
    cases hs'
    exact hpop.1 (by omega)
  · intro hdisks
    have hd := hdisks first others hs
    refine ⟨fun i hi => isSome_incident hsurface hlt ?_, ?_⟩
    · refine hseed.present_insertAll (Mesh.present_seed first) hnodup hrun hd i ?_
      exact (Schedule.schedule_perm hs).mem_iff.2 (List.mem_range.2 hi)
    · have := hpop.2 hd
      omega

theorem complete_iff_kite : ∃ t, build ⟨100, ⟨0⟩⟩ kite = .ok t ∧
    (((∀ i < kite.size, (t.incidentTriangle? i).isSome = true) ∧ t.size + 2 + t.hull.length = 2 * kite.size) ↔
      ∀ first others, Schedule.seed ⟨0⟩ kite (Schedule.order kite) = .ok (first, others) →
        (Mesh.seed first).DisksOnly 100 (verdicts ⟨0⟩ kite) others) := by
  obtain ⟨t, ht⟩ := build_kite
  exact ⟨t, ht, @complete_iff Rat _ ⟨100, ⟨0⟩⟩ kite t ht⟩

/-- Five samples close to one line. -/
def nearlyAligned : Samples Float := .ofList [⟨8000000002, 8000000002, 0⟩, ⟨5000000002, 5000000003, 0⟩,
  ⟨4000000002, 4000000003, 0⟩, ⟨1000000000, 1000000000, 0⟩, ⟨3000000003, 3000000001, 0⟩]

theorem order_nearlyAligned : Schedule.order nearlyAligned = [2, 3, 4, 0, 1] := by
  have hbounds : nearlyAligned.bounds = .ok ⟨1000000000, 8000000002, 1000000000, 8000000002⟩ := by decide +kernel
  have hkeys : (List.range nearlyAligned.size).map (Schedule.key nearlyAligned ⟨1000000000, 8000000002, 1000000000, 8000000002⟩) =
      [⟨1, 0, 0⟩, ⟨1, 0, 1⟩, ⟨0, 0, 2⟩, ⟨0, 0, 3⟩, ⟨0, 0, 4⟩] := by decide +kernel
  rw [Schedule.order_eq hbounds hkeys]
  cbv

/-- A build with the standard settings that loses sample 0: the cavity of sample 1 takes in all cells
around it. -/
theorem build_nearlyAligned : ∃ t, build .standard nearlyAligned = .ok t ∧ t.incidentTriangle? 0 = none ∧
    ¬t.size + 2 + t.hull.length = 2 * nearlyAligned.size := by
  have hvalid : Schedule.validate nearlyAligned = .ok () :=
    Schedule.validate_eq_ok (by decide +kernel) (by decide) (by decide +kernel)
  have hseed : Schedule.seed .standard nearlyAligned (Schedule.order nearlyAligned) = .ok (⟨2, 3, 4⟩, [0, 1]) := by
    rw [order_nearlyAligned]
    decide +kernel
  obtain ⟨m, hm, hlost⟩ := exists_of_any (x := (Mesh.seed ⟨2, 3, 4⟩).insertAll 100000 (verdicts .standard nearlyAligned) [0, 1])
    (p := fun m => (ofMesh 5 m).incidentTriangle? 0 = none ∧ ¬(ofMesh 5 m).size + 2 + (ofMesh 5 m).hull.length = 10)
    (by decide +kernel)
  exact ⟨ofMesh 5 m, build_eq_ok.2 ⟨m, mesh_eq_ok.2 ⟨hvalid, _, _, hseed, hm⟩, rfl⟩, of_decide_eq_true hlost⟩

end Triangulation

end DelaunaySurface
