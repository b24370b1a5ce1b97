import DelaunaySurface.Proofs.Mesh.Cutoff
import DelaunaySurface.Proofs.Triangulation.Schedule
/-!
# Builds within a smaller budget

The budget has no part in anything but when a build is given up. What a build gives within a budget it gives within
every smaller one that pays for it, and within no other (`build_of_budget_le`).
-/

namespace DelaunaySurface

namespace Triangulation

variable {α : Type} [Scalar α] {s : Samples α} {tol : Tolerance α} {b b' : Nat}

theorem mesh_cutOff (hle : b ≤ b') : CutOff b b' (·.tally.operations) (mesh ⟨b, tol⟩ s) (mesh ⟨b', tol⟩ s) := by
  rw [mesh, mesh]
  cases hvalid : Schedule.validate s with
  | error e =>
    refine .error ?_
    rintro rfl
    exact Schedule.validate_ne_budgetExceeded hvalid
  | ok =>
    change CutOff b b' _ (Schedule.seed tol s (Schedule.order s) >>= _) (Schedule.seed tol s (Schedule.order s) >>= _)
    cases hseed : Schedule.seed tol s (Schedule.order s) with
    | error e =>
      rw [Schedule.seed_error hseed]
      exact .error (by rintro ⟨⟩)
    | ok found => exact Mesh.insertAll_cutOff hle (Nat.zero_le b)

theorem build_cutOff (hle : b ≤ b') :
    CutOff b b' (·.diagnostics.tally.operations) (build ⟨b, tol⟩ s) (build ⟨b', tol⟩ s) :=
  (mesh_cutOff hle).map fun _ => rfl

/-- What a build gives within a budget, and what it gives within a smaller one: the same, if the smaller budget pays for
the operations, and otherwise that failure. A build that runs out of the larger budget runs out of the smaller one, and
one that fails for another reason fails for this reason or for want of budget. -/
theorem build_of_budget_le (hle : b ≤ b') :
    (∀ t, build ⟨b', tol⟩ s = .ok t →
      build ⟨b, tol⟩ s = if t.diagnostics.tally.operations ≤ b then .ok t else .error (.budgetExceeded b)) ∧
    (build ⟨b', tol⟩ s = .error (.budgetExceeded b') → build ⟨b, tol⟩ s = .error (.budgetExceeded b)) ∧
    ∀ e, build ⟨b', tol⟩ s = .error e → build ⟨b, tol⟩ s = .error e ∨ build ⟨b, tol⟩ s = .error (.budgetExceeded b) :=
  have h := build_cutOff hle
  ⟨h.done, h.spent, h.failed⟩

/-- The kite takes four operations. -/
theorem build_of_budget_le_kite : ∃ t, build ⟨100, ⟨0⟩⟩ kite = .ok t ∧
    4 ≤ 100 ∧ build ⟨4, ⟨0⟩⟩ kite = .ok t ∧ 3 ≤ 100 ∧ build ⟨3, ⟨0⟩⟩ kite = .error (.budgetExceeded 3) := by
  obtain ⟨t, ht, hoperations⟩ := exists_of_any (x := build ⟨100, ⟨0⟩⟩ kite)
    (p := fun t => t.diagnostics.tally.operations = 4) (by cbv)
  have hoperations : t.diagnostics.tally.operations = 4 := of_decide_eq_true hoperations
  have hfour := (build_of_budget_le (by decide : 4 ≤ 100)).1 t ht
  have hthree := (build_of_budget_le (by decide : 3 ≤ 100)).1 t ht
  rw [if_pos hoperations.le] at hfour
  rw [if_neg (by omega)] at hthree
  exact ⟨t, ht, by decide, hfour, by decide, hthree⟩

end Triangulation

end DelaunaySurface
