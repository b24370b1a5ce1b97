import DelaunaySurface.Proofs.Mesh.Growth
import DelaunaySurface.Proofs.Triangulation.Coherence
/-!
# Empty circles

Over exact numbers and with no tolerance a build of samples at different places, not all on one line,
succeeds unless it runs out of budget. It needs no repair, and no sample lies inside the circle of a
triangle (`emptyCircles_of_build`).
-/

namespace DelaunaySurface

/-! ## Turns without tolerance -/

theorem turn_eq_straight (a b c : Point Rat) : turn ⟨0⟩ a b c = .straight ↔ cross a b c = 0 := by
  rw [← turnDeterminant_value, ← vanishes_zero]
  unfold turn
  by_cases h : (⟨0⟩ : Tolerance Rat).vanishes (turnDeterminant a b c) = true
  · rw [if_pos h]
    exact iff_of_true rfl h
  · rw [if_neg h]
    refine iff_of_false ?_ h
    split <;> exact Turn.noConfusion

theorem turn_eq_left (a b c : Point Rat) : turn ⟨0⟩ a b c = .left ↔ 0 < cross a b c := by
  unfold turn
  by_cases h : (⟨0⟩ : Tolerance Rat).vanishes (turnDeterminant a b c) = true
  · rw [if_pos h]
    exact iff_of_false Turn.noConfusion ((vanishes_zero _).1 h).not_gt
  · rw [if_neg h]
    by_cases hpos : 0 < (turnDeterminant a b c).value
    · rw [if_pos hpos]
      exact iff_of_true rfl hpos
    · rw [if_neg hpos]
      exact iff_of_false Turn.noConfusion hpos

theorem cross_pos_of_turn {a b c : Point Rat} (h : turn ⟨0⟩ a b c = .left ∨ turn ⟨0⟩ a c b = .right) : 0 < cross a b c := by
  rcases h with hturn | hturn
  · exact (turn_eq_left _ _ _).1 hturn
  · -- A turn to the right is neither straight nor one to the left.
    have hleft : ¬ 0 < cross a c b := by
      rw [← turn_eq_left, hturn]
      exact Turn.noConfusion
    have hline : ¬ cross a c b = 0 := by
      rw [← turn_eq_straight, hturn]
      exact Turn.noConfusion
    rw [cross_swap_last]
    exact neg_pos.2 (lt_of_le_of_ne (not_lt.1 hleft) hline)

/-! ## The seed -/

namespace Schedule

variable {s : Samples Rat}

/-- The first triangle is counter-clockwise. -/
theorem turn_firstTriangle? {a b : Nat} {l others : List Nat} {first : Triple Nat}
    (h : firstTriangle? ⟨0⟩ s a b l = some (first, others)) :
    0 < cross (s.point first.fst) (s.point first.snd) (s.point first.trd) :=
  cross_pos_of_turn (turn_firstTriangle?_cases h)

theorem exists_firstTriangle {a b : Nat} {l : List Nat} (h : ∃ c ∈ l, cross (s.point a) (s.point b) (s.point c) ≠ 0) :
    ∃ first others, firstTriangle? ⟨0⟩ s a b l = some (first, others) ∧
      0 < cross (s.point first.fst) (s.point first.snd) (s.point first.trd) := by
  cases hfirst : firstTriangle? ⟨0⟩ s a b l with
  | some found => exact ⟨found.1, found.2, rfl, turn_firstTriangle? hfirst⟩
  | none =>
    obtain ⟨c, hc, hne⟩ := h
    exact absurd ((turn_eq_straight _ _ _).1 (firstTriangle?_eq_none_iff.1 hfirst c hc)) hne

/-- Samples that are not in line have different indices. -/
theorem ne_of_line {i j k : Nat} (hline : cross (s.point i) (s.point j) (s.point k) ≠ 0) : i ≠ j ∧ j ≠ k ∧ i ≠ k := by
  obtain ⟨hij, hjk, hik⟩ := ne_of_cross hline
  exact ⟨ne_of_apply_ne s.point hij, ne_of_apply_ne s.point hjk, ne_of_apply_ne s.point hik⟩

theorem three_le_size {i j k : Nat} (hi : i < s.size) (hj : j < s.size) (hk : k < s.size)
    (hline : cross (s.point i) (s.point j) (s.point k) ≠ 0) : 3 ≤ s.size := by
  obtain ⟨hij, hjk, hik⟩ := ne_of_line hline
  omega

/-- Samples at different places, not all on one line, have a triangle to begin with. -/
theorem exists_seed (hd : ∀ i < s.size, ∀ j < s.size, i ≠ j → s.point i ≠ s.point j) {i j k : Nat} (hi : i < s.size)
    (hj : j < s.size) (hk : k < s.size) (hline : cross (s.point i) (s.point j) (s.point k) ≠ 0) :
    ∃ first others, seed ⟨0⟩ s (order s) = .ok (first, others) ∧
      0 < cross (s.point first.fst) (s.point first.snd) (s.point first.trd) := by
  obtain ⟨a, b, rest, horder, hnodup, hmem⟩ := exists_first_two (s := s) (by have := three_le_size hi hj hk hline; omega)
  have hab : s.point a ≠ s.point b := by
    refine hd a ((hmem a).1 (by simp)) b ((hmem b).1 (by simp)) fun e => ?_
    exact (List.nodup_cons.1 hnodup).1 (by simp [e])
  obtain ⟨first, others, hfirst, hpos⟩ := exists_firstTriangle (s := s) (a := a) (b := b) (l := rest) (by
    by_contra hno
    -- Then all samples are in line with the first two.
    have hall : ∀ x < s.size, cross (s.point a) (s.point b) (s.point x) = 0 := by
      intro x hx
      by_contra hne
      rcases List.mem_cons.1 ((hmem x).2 hx) with rfl | hx
      · exact hne (cross_self_left _ _)
      · rcases List.mem_cons.1 hx with rfl | hx
        · exact hne (cross_self_right _ _)
        · exact hno ⟨x, hx, hne⟩
    exact hline (cross_eq_zero_of_line hab (hall i hi) (hall j hj) (hall k hk)))
  exact ⟨first, others, by rw [horder, seed, hfirst], hpos⟩

theorem validate_exact (hd : ∀ i < s.size, ∀ j < s.size, i ≠ j → s.point i ≠ s.point j) (hsize : 3 ≤ s.size) :
    validate s = .ok () := by
  refine validate_eq_ok (List.find?_eq_none.2 fun i _ => ?_) hsize fun i hi j hj hij => ?_
  · exact Bool.false_ne_true
  · exact Bool.eq_false_iff.2 fun hsame => hd i hi j hj hij (Point.same_rat.1 hsame)

end Schedule

namespace Mesh

theorem not_outward_of_turn {a b c : Point Rat} (h : 0 < cross a b c) : ¬Outward b a c := by
  have hswap := cross_swap a b c
  rintro (h1 | ⟨h1, -⟩) <;> linarith

theorem delaunay_seed (place : Nat → Point Rat) {a b c : Nat} (hs : (seed ⟨a, b, c⟩).ClosedSurface [a, b, c])
    (hturn : 0 < cross (place a) (place b) (place c)) (hd : ∀ i ∈ [a, b, c], ∀ j ∈ [a, b, c], i ≠ j → place i ≠ place j) :
    (seed ⟨a, b, c⟩).Delaunay place [a, b, c] where
  toClosedSurface := hs
  turn t x y z ht := by
    revert t
    refine forall_live_seed ?_ nofun nofun nofun
    intro hc
    cases hc
    exact hturn
  empty t ht i hi := by
    have hbca : 0 < cross (place b) (place c) (place a) := (cross_rotate _ _ _).symm ▸ hturn
    have hcab : 0 < cross (place c) (place a) (place b) := (cross_rotate _ _ _).symm ▸ hbca
    have hi : i = a ∨ i = b ∨ i = c := by simpa using hi
    revert t
    refine forall_live_seed ?_ ?_ ?_ ?_
    · refine fun hc => absurd ((insideCircle_zero _ _ _ _).1 hc) (not_lt.2 (le_of_eq ?_))
      rcases hi with rfl | rfl | rfl <;> simp only [inCircle_eq] <;> ring
    · refine fun hc => absurd ((inHalfPlane_zero _ _ _).1 hc) ?_
      rcases hi with rfl | rfl | rfl
      · exact not_outward_of_turn hbca
      · exact not_outward_right _ _
      · exact not_outward_left _ _
    · refine fun hc => absurd ((inHalfPlane_zero _ _ _).1 hc) ?_
      rcases hi with rfl | rfl | rfl
      · exact not_outward_left _ _
      · exact not_outward_of_turn hcab
      · exact not_outward_right _ _
    · refine fun hc => absurd ((inHalfPlane_zero _ _ _).1 hc) ?_
      rcases hi with rfl | rfl | rfl
      · exact not_outward_right _ _
      · exact not_outward_left _ _
      · exact not_outward_of_turn hturn
  distinct := hd

end Mesh

namespace Triangulation

/-- Every triangle is counter-clockwise, and no sample lies inside its circle. -/
def EmptyCircles (t : Triangulation) (s : Samples Rat) : Prop :=
  ∀ c ∈ t.triangles.toList, 0 < cross (s.point c.fst) (s.point c.snd) (s.point c.trd) ∧
    ∀ i < s.size, (circleDeterminant (s.point c.fst) (s.point c.snd) (s.point c.trd) (s.point i)).value ≤ 0

theorem triangle_mem {t : Triangulation} {i : Nat} (hi : i < t.size) : t.triangle i ∈ t.triangles.toList := by
  rw [triangle, Array.getD_eq_getD_getElem?, Array.getElem?_eq_getElem hi]
  exact Array.getElem_mem_toList hi

theorem EmptyCircles.inCircle_le {t : Triangulation} {s : Samples Rat} (h : t.EmptyCircles s) {i j : Nat} (hi : i < t.size)
    (hj : j < s.size) : inCircle (s.point (t.triangle i).fst) (s.point (t.triangle i).snd) (s.point (t.triangle i).trd) (s.point j) ≤ 0 :=
  (h _ (triangle_mem hi)).2 j hj

theorem EmptyCircles.turn {t : Triangulation} {s : Samples Rat} (h : t.EmptyCircles s) {i : Nat} (hi : i < t.size) :
    0 < cross (s.point (t.triangle i).fst) (s.point (t.triangle i).snd) (s.point (t.triangle i).trd) :=
  (h _ (triangle_mem hi)).1

theorem emptyCircles_ofMesh {s : Samples Rat} {m : Mesh} {sites : List Nat} (h : m.Delaunay s.point sites)
    (hs : ∀ i < s.size, i ∈ sites) : (ofMesh s.size m).EmptyCircles s := by
  intro c hc
  rw [triangles_ofMesh, List.mem_map] at hc
  obtain ⟨t, ht, rfl⟩ := hc
  obtain ⟨ht, hb⟩ := Mesh.mem_triangleSlots.1 ht
  have hcorners := Mesh.corners_eq hb
  refine ⟨h.turn t _ _ _ ht hcorners, fun i hi => not_lt.1 fun hin => h.empty t ht i (hs i hi) ?_⟩
  rw [Mesh.Covers, Mesh.conflicts, hcorners]
  exact (insideCircle_zero _ _ _ _).2 hin

/-- The mesh of samples at different places, not all on one line: a Delaunay surface over all of them, unless the budget is
spent. -/
theorem mesh_cases {s : Samples Rat} {budget : Nat}
    (hd : ∀ i < s.size, ∀ j < s.size, i ≠ j → s.point i ≠ s.point j)
    (hline : ∃ i < s.size, ∃ j < s.size, ∃ k < s.size, cross (s.point i) (s.point j) (s.point k) ≠ 0) :
    mesh ⟨budget, ⟨0⟩⟩ s = .error (.budgetExceeded budget) ∨
      ∃ m sites, mesh ⟨budget, ⟨0⟩⟩ s = .ok m ∧ m.Delaunay s.point sites ∧ (∀ i < s.size, i ∈ sites) ∧ m.tally.repairs = 0 := by
  obtain ⟨i, hi, j, hj, k, hk, hline⟩ := hline
  obtain ⟨first, others, hseed, hturn⟩ := Schedule.exists_seed hd hi hj hk hline
  have hvalid := Schedule.validate_exact hd (Schedule.three_le_size hi hj hk hline)
  have hmesh : mesh ⟨budget, ⟨0⟩⟩ s = (Mesh.seed first).insertAll budget (verdicts ⟨0⟩ s) others := by
    rw [mesh, hvalid]
    change (Schedule.seed ⟨0⟩ s (Schedule.order s) >>= _) = _
    rw [hseed]
    rfl
  have hlt : ∀ x ∈ first.toList ++ others, x < s.size := fun x hx => Schedule.lt_of_mem_schedule hseed hx
  have hdelaunay := Mesh.delaunay_seed s.point (Schedule.closedSurface_seed hseed) hturn fun x hx y hy =>
    hd x (hlt x (List.mem_append_left _ hx)) y (hlt y (List.mem_append_left _ hy))
  rcases hdelaunay.insertAll_cases (Schedule.schedule_nodup hseed) (fun x hx y hy => hd x (hlt x hx) y (hlt y hy)) budget with
    herror | ⟨m, hok, hm, hrepairs⟩
  · exact .inl (hmesh.trans herror)
  · exact .inr ⟨m, _, hmesh.trans hok, hm, fun x hx => (Schedule.schedule_perm hseed).mem_iff.2 (List.mem_range.2 hx), hrepairs⟩

/-- Read over exact numbers and with no tolerance, a build of samples at different places, not all on one
line, runs out of budget or ends with a Delaunay triangulation, and repairs no cavity. -/
theorem emptyCircles_of_build {s : Samples Rat} {budget : Nat}
    (hd : ∀ i < s.size, ∀ j < s.size, i ≠ j → s.point i ≠ s.point j)
    (hline : ∃ i < s.size, ∃ j < s.size, ∃ k < s.size, cross (s.point i) (s.point j) (s.point k) ≠ 0) :
    build ⟨budget, ⟨0⟩⟩ s = .error (.budgetExceeded budget) ∨
      ∃ t, build ⟨budget, ⟨0⟩⟩ s = .ok t ∧ t.diagnostics.tally.repairs = 0 ∧ t.EmptyCircles s := by
  rcases mesh_cases hd hline with herror | ⟨m, sites, hm, hdelaunay, hall, hrepairs⟩
  · refine .inl ?_
    rw [build, herror]
    rfl
  · exact .inr ⟨ofMesh s.size m, build_eq_ok.2 ⟨m, hm, rfl⟩, hrepairs, emptyCircles_ofMesh hdelaunay hall⟩

theorem emptyCircles_of_build_kite : ∃ t, build ⟨100, ⟨0⟩⟩ kite = .ok t ∧ t.diagnostics.tally.repairs = 0 ∧
    t.EmptyCircles kite := by
  obtain ⟨t, ht⟩ := build_kite
  refine (@emptyCircles_of_build kite 100 (by decide +kernel)
    ⟨0, by decide, 1, by decide, 2, by decide, by decide +kernel⟩).resolve_left fun herror => ?_
  rw [ht] at herror
  cases herror

end Triangulation

end DelaunaySurface
