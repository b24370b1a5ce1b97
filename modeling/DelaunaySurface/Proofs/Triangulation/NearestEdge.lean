import DelaunaySurface.Proofs.Plane.Segment
import DelaunaySurface.Proofs.Triangulation.Justified
/-!
# The nearest edge of the hull

Over exact numbers the edge that is answered for a point outside is truly the nearest: it has a point such that no point of any
edge of the hull is nearer to the one asked for (`trulyNearest_of_locate`). What is compared are the least distances
(`measured`), and going through the edges for the least of them passes over ties only.
-/

namespace DelaunaySurface

open Triangulation (build)

/-- The points of an edge. -/
def Edge.points (s : Samples Rat) (e : Edge) : Set (ℝ × ℝ) := segment ℝ (s.point e.low).real (s.point e.high).real

/-- What the distance computed of a point from a closed segment is. -/
structure Measured (p a b : Point Rat) : Prop where
  /-- The least over all points of the segment in the real plane. -/
  least : IsLeast ((fun t : ℝ => realDistanceSq p.real (AffineMap.lineMap a.real b.real t)) '' Set.Icc 0 1)
    (segmentDistanceSq p a b : Rat)
  /-- That of a rational point of it. -/
  attained : ∃ t ∈ Set.Icc (0 : Rat) 1, segmentDistanceSq p a b = dot (along a b t) (along a b t) p
  swap : segmentDistanceSq p b a = segmentDistanceSq p a b
  zero_iff : segmentDistanceSq p a b = 0 ↔ p.real ∈ segment ℝ a.real b.real

theorem measured (p a b : Point Rat) : Measured p a b where
  least := isLeast_segmentDistanceSq p a b
  attained := ⟨_, nearestShare_mem p a b, segmentDistanceSq_eq_dot p a b⟩
  swap := segmentDistanceSq_swap p a b
  zero_iff := segmentDistanceSq_eq_zero

namespace Locator

/-- Any search that finds a point outside answers with the nearest edge. -/
theorem outside?_of_locate? {α : Type} [Scalar α] {t : Triangulation} {s : Samples α} {p : Point α} {l : Locator} {e : Edge}
    (h : (l.locate? t s p).1 = some (.outside e)) : outside? t s p = some (.outside e) := by
  have hscan : scan? t s p = some (.outside e) → outside? t s p = some (.outside e) := fun h => by
    rw [scan?] at h
    split at h
    · cases h
    · split at h
      · exact h
      · split at h
        · cases h
        · exact h
  rw [locate?_fst, search?] at h
  cases hstrategy : l.strategy with
  | scan =>
    rw [hstrategy] at h
    exact hscan h
  | walk =>
    rw [hstrategy] at h
    dsimp only at h
    rw [walk?_fst] at h
    split at h
    · cases h
    · exact h
    · exact hscan h

variable {t : Triangulation} {s : Samples Rat} {p : Point Rat} {e : Edge}

/-- The edge has a point such that no point of the hull is nearer to `p`. -/
structure TrulyNearest (t : Triangulation) (s : Samples Rat) (p : Point Rat) (e : Edge) : Prop where
  mem : e ∈ t.hullEdges
  /-- The edges of the hull join the samples that follow one another on it. -/
  sides : t.hullEdges = t.hullSides.map fun side => Edge.between side.1 side.2
  foot : ∃ foot ∈ e.points s, ∀ f ∈ t.hullEdges, ∀ q ∈ f.points s, realDistanceSq p.real foot ≤ realDistanceSq p.real q

/-- The edge of the least distance has the nearest point. -/
theorem exists_foot (h : outside? t s p = some (.outside e)) : e ∈ t.hullEdges ∧
    ∃ foot ∈ e.points s, ∀ f ∈ t.hullEdges, ∀ q ∈ f.points s, realDistanceSq p.real foot ≤ realDistanceSq p.real q := by
  have hedges : t.hullEdges ≠ [] := fun hnil => by
    rw [outside?, nearestEdge?, hnil] at h
    cases h
  obtain ⟨nearest, hnearest, hmem, hleast⟩ := nearest_outside? (s := s) (p := p) Scalar.lawful_rat hedges
  cases hnearest.symm.trans h
  refine ⟨hmem, _, nearestPoint_mem p (s.point e.low) (s.point e.high), fun f hf q hq => ?_⟩
  have hf : distanceSq s p e ≤ distanceSq s p f := not_lt.1 (hleast f hf)
  calc realDistanceSq p.real (nearestPoint p (s.point e.low) (s.point e.high)).real
      = (distanceSq s p e : Rat) := (segmentDistanceSq_real p _ _).symm
    _ ≤ (distanceSq s p f : Rat) := Rat.cast_le.2 hf
    _ ≤ realDistanceSq p.real q := (isLeast_segment p _ _).2 ⟨q, hq, rfl⟩

/-- The distance of a point from a segment is computed right, and so on every build, of any numbers over exact places, the edge
that a locator of any strategy and hint answers for a point outside is truly the nearest of the hull. -/
theorem trulyNearest_of_locate (p : Point Rat) : (∀ a b, Measured p a b) ∧
    ∀ {α : Type} [Scalar α] {settings : BuildSettings α} {built : Samples α} {t : Triangulation}, build settings built = .ok t →
      ∀ (s : Samples Rat) (l : Locator) (e : Edge), (l.locate? t s p).1 = some (.outside e) → TrulyNearest t s p e := by
  refine ⟨measured p, fun h s l e hout => ?_⟩
  obtain ⟨hmem, hfoot⟩ := exists_foot (outside?_of_locate? hout)
  exact ⟨hmem, Triangulation.hullEdges_of_build h, hfoot⟩

/-- Right of the kite. -/
theorem trulyNearest_of_locate_kite : ∃ t, build ⟨100, ⟨0⟩⟩ Triangulation.kite = .ok t ∧
    ((fresh .walk none).locate? t Triangulation.kite ⟨6, 1⟩).1 = some (.outside ⟨1, 3⟩) ∧
    TrulyNearest t Triangulation.kite ⟨6, 1⟩ ⟨1, 3⟩ := by
  have hkite : (build ⟨100, ⟨0⟩⟩ Triangulation.kite).toOption.any (fun t =>
      ((fresh .walk none).locate? t Triangulation.kite ⟨6, 1⟩).1 = some (.outside ⟨1, 3⟩)) = true := by cbv
  obtain ⟨t, ht, hkite⟩ := Triangulation.exists_of_any hkite
  have hout := of_decide_eq_true hkite
  exact ⟨t, ht, hout, (trulyNearest_of_locate ⟨6, 1⟩).2 ht Triangulation.kite (fresh .walk none) ⟨1, 3⟩ hout⟩

end Locator

end DelaunaySurface
