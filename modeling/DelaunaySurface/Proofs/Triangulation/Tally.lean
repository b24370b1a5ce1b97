import DelaunaySurface.Proofs.Mesh.Tally
import DelaunaySurface.Proofs.Triangulation.Schedule
/-!
# The tally of a build

Every insertion of a build ends, whatever the geometry answers, and what a build counts is what its cavities took: one
operation for each cell (`tally_of_build`).
-/

namespace DelaunaySurface

namespace Triangulation

variable {α : Type} [Scalar α] {settings : BuildSettings α} {s : Samples α} {first : Triple Nat} {others : List Nat}
  {t : Triangulation}

theorem length_schedule (hseed : Schedule.seed settings.tolerance s (Schedule.order s) = .ok (first, others)) :
    others.length + 3 = s.size := by
  have hlength := (Schedule.schedule_perm hseed).length_eq
  rw [List.length_append, List.length_range] at hlength
  have hfirst : first.toList.length = 3 := rfl
  omega

/-- The cavities of a build after its seed. -/
def buildCavities (settings : BuildSettings α) (s : Samples α) (first : Triple Nat) (others : List Nat) : List Cavity :=
  (Mesh.seed first).cavities settings.budget (verdicts settings.tolerance s) others

theorem accounted_of_build (hseed : Schedule.seed settings.tolerance s (Schedule.order s) = .ok (first, others))
    (h : build settings s = .ok t) : (buildCavities settings s first others).length + 3 = s.size ∧
      ∃ m, (Mesh.seed first).Accounted (buildCavities settings s first others) m ∧ t.diagnostics.tally = m.tally := by
  obtain ⟨m, hm, rfl⟩ := build_eq_ok.1 h
  obtain ⟨-, first', others', hseed', hrun⟩ := mesh_eq_ok.1 hm
  cases hseed.symm.trans hseed'
  obtain ⟨hlength, haccounted⟩ :=
    (Schedule.closedSurface_seed hseed).accounted_insertAll (Schedule.schedule_nodup hseed) hrun
  exact ⟨(congrArg (· + 3) hlength).trans (length_schedule hseed), m, haccounted, rfl⟩

/-- Every insertion of a build ends, even if the geometry answers at random, with each cell in use absorbed at most once
and charged once. So a build counts as operations the sizes of its cavities, one for each sample after the first three;
each has a member that is no repair, and none is larger than the largest. -/
theorem tally_of_build (hseed : Schedule.seed settings.tolerance s (Schedule.order s) = .ok (first, others)) :
    (∀ done i rest budget v w m, others = done ++ i :: rest → (Mesh.seed first).insertAll budget v done = .ok m →
      m.InsertionEnds w i) ∧
    ∀ t, build settings s = .ok t →
      let sizes := (buildCavities settings s first others).map (·.members.size)
      sizes.length + 3 = s.size ∧
        t.diagnostics.tally.operations = sizes.sum ∧
        t.diagnostics.tally.largest = sizes.max?.getD 0 ∧
        s.size - 3 ≤ t.diagnostics.tally.operations ∧
        t.diagnostics.tally.repairs ≤ t.diagnostics.tally.operations - (s.size - 3) ∧
        t.diagnostics.tally.operations ≤ (s.size - 3) * t.diagnostics.tally.largest := by
  refine ⟨?_, fun t ht => ?_⟩
  · rintro done i rest budget v w m rfl hm
    exact (closedSurface_of_run hseed hm).1.insert_ends w i
  · obtain ⟨hlength, m, haccounted, htally⟩ := accounted_of_build hseed ht
    have hoperations : m.tally.operations = ((buildCavities settings s first others).map (·.members.size)).sum :=
      haccounted.operations.trans (Nat.zero_add _)
    have hrepairs : m.tally.repairs = ((buildCavities settings s first others).map (·.repairs)).sum :=
      haccounted.repairs.trans (Nat.zero_add _)
    have hspare := haccounted.repairs_add_length_le
    have hmost := haccounted.sum_size_le
    rw [show (buildCavities settings s first others).length = s.size - 3 by omega, ← hoperations] at hspare hmost
    rw [← hrepairs] at hspare
    rw [htally]
    exact ⟨by rw [List.length_map, hlength], hoperations, haccounted.largest_eq rfl, by omega, by omega, hmost⟩

/-- The kite has two samples to insert after the first three, and takes two cells for each. -/
theorem tally_of_build_kite : Schedule.seed ⟨0⟩ kite (Schedule.order kite) = .ok (⟨0, 1, 3⟩, [2, 4]) ∧
    ∃ t, build ⟨100, ⟨0⟩⟩ kite = .ok t ∧ t.diagnostics.tally.largest = 2 ∧ t.diagnostics.tally.operations ≤ (5 - 3) * 2 := by
  have hseed : Schedule.seed ⟨0⟩ kite (Schedule.order kite) = .ok (⟨0, 1, 3⟩, [2, 4]) := by cbv
  obtain ⟨t, ht, hlargest⟩ := exists_of_any (x := build ⟨100, ⟨0⟩⟩ kite)
    (p := fun t => t.diagnostics.tally.largest = 2) (by cbv)
  have hlargest : t.diagnostics.tally.largest = 2 := of_decide_eq_true hlargest
  obtain ⟨-, -, -, -, -, hle⟩ := (@tally_of_build Rat _ ⟨100, ⟨0⟩⟩ kite _ _ hseed).2 t ht
  rw [hlargest] at hle
  exact ⟨hseed, t, ht, hlargest, hle⟩

end Triangulation

end DelaunaySurface
