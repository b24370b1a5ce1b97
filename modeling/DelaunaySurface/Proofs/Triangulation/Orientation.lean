import DelaunaySurface.Proofs.Double.Side
import DelaunaySurface.Proofs.Triangulation.Convexity
/-!
# Triangles as they are computed

A point is joined to a side only after the very determinant of the triangle to be made was found not to be `≤ 0`, and
the seed is turned after the same determinant, up to the order of its products. So in double precision no triangle of a
build is clockwise or flat as computed, whatever the other tests answer (`counterClockwise_of_build`). A determinant that
overflows to no number at all compares with nothing, and is not ruled out.
-/

namespace DelaunaySurface

/-! ## Turns in double precision -/

section Turns

variable {tol : Tolerance Float} {a b c : Point Float}

theorem cross_pos_of_left (h : turn tol a b c = .left) : 0 < cross a b c := by
  simp only [turn] at h
  split at h
  · cases h
  · split at h
    · assumption
    · cases h

/-- The determinant with its last two points swapped is the same difference taken the other way round. -/
theorem cross_swap_float (a b c : Point Float) :
    cross a c b = (b.y - a.y) * (c.x - a.x) - (b.x - a.x) * (c.y - a.y) := by
  rw [cross, Double.product_comm (c.x - a.x), Double.product_comm (c.y - a.y)]

/-- What turns right turns left with its last two points swapped. -/
theorem not_cross_nonpos_of_right (hfin : tol.eps.isFinite = true) (hpos : 0 < tol.eps) (h : turn tol a b c = .right) :
    ¬ cross a c b ≤ 0 := by
  simp only [turn] at h
  split at h
  · cases h
  · rename_i hlarge
    split at h
    · cases h
    · rename_i hleft
      rw [cross_swap_float]
      exact Double.not_nonpos_swap hfin hpos (fun hle => hlarge (decide_eq_true hle)) hleft

end Turns

namespace Mesh

variable {m n : Mesh} {sites points : List Nat} {i budget : Nat} {P : Nat → Nat → Nat → Prop}

/-! ## What holds of the corners of all triangles -/

/-- The corners of every triangle, in their order, are related. -/
def Faces (m : Mesh) (P : Nat → Nat → Nat → Prop) : Prop :=
  ∀ t x y z, m.Live t → (m.cell t).corners = ⟨.site x, .site y, .site z⟩ → P x y z

theorem faces_seed {t : Triple Nat} (h : P t.fst t.snd t.trd) : (seed t).Faces P := by
  intro u x y z hu
  revert u
  refine forall_live_seed ?_ nofun nofun nofun
  intro hc
  cases hc
  exact h

/-- Sides that do not block the view are all that new triangles stand on. -/
theorem ClosedSurface.faces_insert (h : m.ClosedSurface sites) (hi : i ∉ sites) {v : Verdicts}
    (hok : m.insert budget v i = .ok n) (hv : ∀ x y, v.notLeftOf x y = false → P x y i) (hm : m.Faces P) : n.Faces P := by
  obtain ⟨c, blades, hc, hs, -⟩ := h.surgery hi hok
  obtain ⟨-, hview⟩ := h.cut_of_cavity hc
  intro t x y z ht hcorners
  rcases hs.live_cases ht with ⟨ht, hl⟩ | ⟨b, hb, rfl⟩
  · rw [hs.filled.corners_kept t ht hl] at hcorners
    exact hm t x y z ht hcorners
  · obtain ⟨s, hzip⟩ := exists_zip_of_mem hs.filled.sides hb
    have hside := zip_side hs.filled.sides hzip
    have hseen := hview s (List.of_mem_zip hzip).1
    rw [hs.corners_blade hb, Triple.mk.injEq, Corner.site.injEq] at hcorners
    obtain ⟨htail, hhead, rfl⟩ := hcorners
    rw [← hside, show b.side = ⟨.site x, .site y⟩ from by rw [← htail, ← hhead]] at hseen
    exact hv x y hseen

theorem ClosedSurface.faces_insertAll (h : m.ClosedSurface sites) {v : Nat → Verdicts} (hn : (sites ++ points).Nodup)
    (hok : m.insertAll budget v points = .ok n) (hv : ∀ i x y, (v i).notLeftOf x y = false → P x y i) (hm : m.Faces P) :
    n.Faces P := by
  induction points using List.reverseRecOn generalizing n with
  | nil =>
    cases hok
    exact hm
  | append_singleton points i ih =>
    obtain ⟨m', hm', hn, hi, hsurface, hinsert⟩ := h.last_insertion hn hok
    exact hsurface.faces_insert hi hinsert (hv i) (ih hn hm')

end Mesh

namespace Triangulation

/-- No triangle is clockwise or flat as computed. -/
def CounterClockwise (t : Triangulation) (s : Samples Float) : Prop :=
  ∀ c ∈ t.triangles.toList, ¬ cross (s.point c.fst) (s.point c.snd) (s.point c.trd) ≤ 0

variable {settings : BuildSettings Float} {s : Samples Float}

theorem counterClockwise_ofMesh {m : Mesh}
    (h : m.Faces fun x y z => ¬ cross (s.point x) (s.point y) (s.point z) ≤ 0) : (ofMesh s.size m).CounterClockwise s := by
  intro c hc
  rw [triangles_ofMesh, List.mem_map] at hc
  obtain ⟨t, ht, rfl⟩ := hc
  obtain ⟨ht, hb⟩ := Mesh.mem_triangleSlots.1 ht
  exact h t _ _ _ ht (Mesh.corners_eq hb)

theorem not_cross_nonpos_seed (hfin : settings.tolerance.eps.isFinite = true) (hpos : 0 < settings.tolerance.eps)
    {l others : List Nat} {first : Triple Nat} (h : Schedule.seed settings.tolerance s l = .ok (first, others)) :
    ¬ cross (s.point first.fst) (s.point first.snd) (s.point first.trd) ≤ 0 := by
  rcases Schedule.turn_seed_cases h with hturn | hturn
  · exact Double.not_nonpos_of_pos (cross_pos_of_left hturn)
  · exact not_cross_nonpos_of_right hfin hpos hturn

/-- With a finite tolerance above zero, every triangle of a build is counter-clockwise as computed, and so it is in any
run that judges sight as the build does, whatever its other tests answer. -/
theorem counterClockwise_of_build (hfin : settings.tolerance.eps.isFinite = true) (hpos : 0 < settings.tolerance.eps) :
    (∀ t, build settings s = .ok t → t.CounterClockwise s) ∧
      ∀ v : Nat → Verdicts, (∀ i, (v i).notLeftOf = (verdicts settings.tolerance s i).notLeftOf) →
        ∀ first others m, Schedule.seed settings.tolerance s (Schedule.order s) = .ok (first, others) →
          (Mesh.seed first).insertAll settings.budget v others = .ok m → (ofMesh s.size m).CounterClockwise s := by
  have hrun : ∀ v : Nat → Verdicts, (∀ i, (v i).notLeftOf = (verdicts settings.tolerance s i).notLeftOf) →
      ∀ first others m, Schedule.seed settings.tolerance s (Schedule.order s) = .ok (first, others) →
        (Mesh.seed first).insertAll settings.budget v others = .ok m → (ofMesh s.size m).CounterClockwise s := by
    intro v hv first others m hseed hok
    refine counterClockwise_ofMesh ((Schedule.closedSurface_seed hseed).faces_insertAll (Schedule.schedule_nodup hseed) hok ?_
      (Mesh.faces_seed (not_cross_nonpos_seed hfin hpos hseed)))
    intro i x y hleft
    rw [hv] at hleft
    exact of_decide_eq_false hleft
  refine ⟨fun t ht => ?_, hrun⟩
  obtain ⟨m, hm, rfl⟩ := build_eq_ok.1 ht
  obtain ⟨-, first, others, hseed, hok⟩ := mesh_eq_ok.1 hm
  exact hrun _ (fun _ => rfl) first others m hseed hok

theorem counterClockwise_of_build_dented : build .standard dented = .ok dentedTables ∧ dentedTables.CounterClockwise dented := by
  have hfin : (BuildSettings.standard : BuildSettings Float).tolerance.eps.isFinite = true := by decide +kernel
  have hpos : 0 < (BuildSettings.standard : BuildSettings Float).tolerance.eps := by decide +kernel
  exact ⟨build_dented, (counterClockwise_of_build hfin hpos).1 _ build_dented⟩

end Triangulation

end DelaunaySurface
