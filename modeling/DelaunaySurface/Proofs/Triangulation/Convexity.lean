import DelaunaySurface.Proofs.Triangulation.Coherence
/-!
# When the hull stays convex

An insertion changes the hull only by sides that end at its point. So a sample comes to lie to the right
of a hull side in one of two ways: the side is made with the sample already there, or the sample is
inserted and the side stays (`convex_iff`). With a tolerance the first does happen: whether a point is on
a hull side is judged from the end of the side, the sides that take its place are not judged at all
(`hull_dented`).
-/

namespace DelaunaySurface

namespace Mesh

variable {m n : Mesh} {sites l points : List Nat} {i budget : Nat} {blades : List Blade} {e : Nat × Nat}

/-- A hull side that does not end at the new point is an old one. -/
theorem Surgery.outer_kept (h : Surgery m sites l i blades n) (he : e ∈ n.outerSides) (hi : ¬(i = e.1 ∨ i = e.2)) :
    e ∈ m.outerSides := by
  obtain ⟨t, ht, hs⟩ := mem_outerSides.1 he
  rcases h.live_cases ht with ⟨ht, hl⟩ | ⟨b, hb, rfl⟩
  · refine mem_outerSides.2 ⟨t, ht, ?_⟩
    rwa [Cell.hullSide?, h.filled.corners_kept t ht hl] at hs
  · obtain ⟨k, hk, hside⟩ := Cell.hullSide?_eq_some_iff.1 hs
    refine absurd ?_ hi
    rcases Triple.eq_zero_or k with rfl | rfl | rfl
    · have := (h.side_blade_zero hb).symm.trans hside
      rw [Side.mk.injEq, Corner.site.injEq] at this
      exact .inl this.2
    · have := (h.side_blade_one hb).symm.trans hside
      rw [Side.mk.injEq, Corner.site.injEq] at this
      exact .inr this.1
    · rw [h.corners_blade hb] at hk
      cases hk

/-- No insertion of the run spoils a hull side that is counted: one that ends at the new point has no point
so far to its right, any other one not the new point. -/
def SparesHull (m : Mesh) (budget : Nat) (v : Nat → Verdicts) (right : Nat × Nat → Nat → Prop) (counted : Nat × Nat → Prop)
    (sites points : List Nat) : Prop :=
  ∀ done i rest n, points = done ++ i :: rest → m.insertAll budget v (done ++ [i]) = .ok n →
    ∀ e ∈ n.outerSides, counted e →
      if i = e.1 ∨ i = e.2 then ∀ j ∈ sites ++ done ++ [i], ¬right e j else ¬right e i

theorem SparesHull.of_concat {v : Nat → Verdicts} {right : Nat × Nat → Nat → Prop} {counted : Nat × Nat → Prop}
    (h : m.SparesHull budget v right counted sites (points ++ [i])) : m.SparesHull budget v right counted sites points :=
  fun done j rest n hpoints => h done j (rest ++ [i]) n (by simp [hpoints])

/-- What no insertion spoils is sound in the end, if it was in the beginning. -/
theorem ClosedSurface.not_right_insertAll (h : m.ClosedSurface sites) {v : Nat → Verdicts} (hn : (sites ++ points).Nodup)
    (hok : m.insertAll budget v points = .ok n) {right : Nat × Nat → Nat → Prop} {counted : Nat × Nat → Prop}
    (hstart : ∀ e ∈ m.outerSides, counted e → ∀ j ∈ sites, ¬right e j)
    (hspares : m.SparesHull budget v right counted sites points) :
    ∀ e ∈ n.outerSides, counted e → ∀ j ∈ sites ++ points, ¬right e j := by
  induction points using List.reverseRecOn generalizing n with
  | nil =>
    cases hok
    simpa using hstart
  | append_singleton points i ih =>
    intro e he hcounted j hj
    have hlast := hspares points i [] n rfl hok e he hcounted
    obtain ⟨m', hm', hn, hi, hsurface, hinsert⟩ := h.last_insertion hn hok
    rw [← List.append_assoc] at hj
    split at hlast
    · exact hlast j hj
    · rename_i hends
      obtain ⟨c, blades, -, hs, -⟩ := hsurface.surgery hi hinsert
      rcases List.mem_append.1 hj with hj | hj
      · exact ih hn hm' hspares.of_concat e (hs.outer_kept he hends) hcounted j hj
      · rw [List.mem_singleton.1 hj]
        exact hlast

end Mesh

namespace Triangulation

variable {α : Type} [Scalar α] {settings : BuildSettings α} {s : Samples α} {t : Triangulation}

/-- The sample lies to the right of the line from the first to the second sample of a pair. -/
def RightOf (tol : Tolerance α) (s : Samples α) (e : Nat × Nat) (j : Nat) : Prop :=
  turn tol (s.point e.1) (s.point e.2) (s.point j) = .right

/-- The hull of a build has no sample to its right exactly when that is so of the hull sides of the seed that
last, and no insertion spoils a hull side that lasts. -/
theorem convex_iff (h : build settings s = .ok t) :
    (∀ e ∈ t.hullSides, ∀ j < s.size, ¬RightOf settings.tolerance s e j) ↔
      ∀ first others, Schedule.seed settings.tolerance s (Schedule.order s) = .ok (first, others) →
        (∀ e ∈ (Mesh.seed first).outerSides, e ∈ t.hullSides → ∀ j ∈ first.toList, ¬RightOf settings.tolerance s e j) ∧
        (Mesh.seed first).SparesHull settings.budget (verdicts settings.tolerance s) (RightOf settings.tolerance s)
          (· ∈ t.hullSides) first.toList others := by
  obtain ⟨m, hm, rfl⟩ := build_eq_ok.1 h
  obtain ⟨-, first, others, hs, hrun⟩ := mesh_eq_ok.1 hm
  have hlt : ∀ i ∈ first.toList ++ others, i < s.size := fun i => Schedule.lt_of_mem_schedule hs
  constructor
  · intro hconvex first' others' hs'
    rw [hs] at hs'
    cases hs'
    refine ⟨fun e _ he j hj => hconvex e he j (hlt j (List.mem_append_left _ hj)), ?_⟩
    intro done i rest n hothers _ e _ he
    have hall : ∀ j ∈ first.toList ++ done ++ [i], ¬RightOf settings.tolerance s e j := by
      intro j hj
      refine hconvex e he j (hlt j ?_)
      rw [show first.toList ++ others = first.toList ++ done ++ [i] ++ rest by simp [hothers]]
      exact List.mem_append_left _ hj
    split
    · exact hall
    · exact hall i (by simp)
  · intro hspares e he j hj
    obtain ⟨hstart, hspares⟩ := hspares first others hs
    have hnodup := Schedule.schedule_nodup hs
    have hseed := Schedule.closedSurface_seed hs
    refine hseed.not_right_insertAll hnodup hrun hstart hspares e ?_ he j ?_
    · exact ((hseed.insertAll hnodup hrun).mem_cyclicPairs_hull hlt).1 he
    · exact (Schedule.schedule_perm hs).mem_iff.2 (List.mem_range.2 hj)

theorem convex_iff_kite : ∃ t, build ⟨100, ⟨0⟩⟩ kite = .ok t ∧
    ((∀ e ∈ t.hullSides, ∀ j < kite.size, ¬RightOf ⟨0⟩ kite e j) ↔
      ∀ first others, Schedule.seed ⟨0⟩ kite (Schedule.order kite) = .ok (first, others) →
        (∀ e ∈ (Mesh.seed first).outerSides, e ∈ t.hullSides → ∀ j ∈ first.toList, ¬RightOf ⟨0⟩ kite e j) ∧
        (Mesh.seed first).SparesHull 100 (verdicts ⟨0⟩ kite) (RightOf ⟨0⟩ kite) (· ∈ t.hullSides) first.toList others) := by
  obtain ⟨t, ht⟩ := build_kite
  exact ⟨t, ht, @convex_iff Rat _ ⟨100, ⟨0⟩⟩ kite t ht⟩

/-! ## A dent -/

/-- Three corners of a square, and a sample beside its diagonal, on the inner side. -/
def dented : Samples Float := .ofList [⟨0, 0, 0⟩, ⟨1000000000, 1000000000, 0⟩, ⟨0, 1000000000, 0⟩,
  ⟨100000000, 100000001, 0⟩]

/-- The last sample is taken for one on the diagonal, and put on the hull. -/
def dentedTables : Triangulation where
  triangles := #[⟨2, 0, 3⟩, ⟨1, 2, 3⟩]
  neighbours := #[⟨none, some 1, none⟩, ⟨some 0, none, none⟩]
  hull := [0, 3, 1, 2]
  hullEdges := [⟨0, 3⟩, ⟨1, 3⟩, ⟨1, 2⟩, ⟨0, 2⟩]
  onHull := #[true, true, true, true]
  incident := #[some 0, some 1, some 0, some 0]
  diagnostics := ⟨4, 2, 4, ⟨2, 2, 0, 0⟩⟩

theorem order_dented : Schedule.order dented = [0, 1, 2, 3] := by
  have hbounds : dented.bounds = .ok ⟨0, 1000000000, 0, 1000000000⟩ := by decide +kernel
  have hkeys : (List.range dented.size).map (Schedule.key dented ⟨0, 1000000000, 0, 1000000000⟩) =
      [⟨0, 0, 0⟩, ⟨0, 0, 1⟩, ⟨0, 0, 2⟩, ⟨0, 0, 3⟩] := by decide +kernel
  rw [Schedule.order_eq hbounds hkeys]
  cbv

theorem build_dented : build .standard dented = .ok dentedTables := by
  have hvalid : Schedule.validate dented = .ok () :=
    Schedule.validate_eq_ok (by decide +kernel) (by decide) (by decide +kernel)
  have hseed : Schedule.seed .standard dented (Schedule.order dented) = .ok (⟨0, 1, 2⟩, [3]) := by
    rw [order_dented]
    decide +kernel
  obtain ⟨m, hm, htables⟩ := exists_of_any (x := (Mesh.seed ⟨0, 1, 2⟩).insertAll 100000 (verdicts .standard dented) [3])
    (p := fun m => ofMesh 4 m = dentedTables) (by decide +kernel)
  exact build_eq_ok.2 ⟨m, mesh_eq_ok.2 ⟨hvalid, _, _, hseed, hm⟩, of_decide_eq_true htables⟩

/-- A build with the standard settings that leaves sample 1 to the right of the hull side from 0 to 3. -/
theorem hull_dented : ∃ t, build .standard dented = .ok t ∧ (0, 3) ∈ t.hullSides ∧ RightOf .standard dented (0, 3) 1 := by
  refine ⟨dentedTables, build_dented, by decide, ?_⟩
  rw [RightOf]
  decide +kernel

end Triangulation

end DelaunaySurface
