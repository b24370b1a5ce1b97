import Mathlib
import DelaunaySurface.Interpolant
import DelaunaySurface.Proofs.Triangulation.Paving
/-!
# Flat surfaces

The plane through the three samples of a triangle, and the surface that the planes make over a paving: the only
height over the hull that is continuous, flat over each triangle and right at the samples (`FlatSurface.eqOn`,
`Paving.flatSurface_patched`).
-/

namespace DelaunaySurface

open Triple (next previous)

namespace Triangle

variable {c : Triangle} {s : Samples Rat} {q r : ℝ × ℝ}

/-- The height of the plane through the three samples of a triangle. -/
noncomputable def plane (c : Triangle) (s : Samples Rat) (q : ℝ × ℝ) : ℝ :=
  (∑ k, c.realSide s k q * (s.height (c.get k) : Rat)) / (cross (s.point c.fst) (s.point c.snd) (s.point c.trd) : Rat)

theorem sum_realSide (c : Triangle) (s : Samples Rat) (q : ℝ × ℝ) :
    ∑ k, c.realSide s k q = (cross (s.point c.fst) (s.point c.snd) (s.point c.trd) : Rat) := by
  rw [Fin.sum_univ_three, ← realCross_real]
  exact realCross_add _ _ _ q

theorem sum_realSide_smul (c : Triangle) (s : Samples Rat) (q : ℝ × ℝ) :
    ∑ k, c.realSide s k q • (s.point (c.get k)).real = ((cross (s.point c.fst) (s.point c.snd) (s.point c.trd) : Rat) : ℝ) • q := by
  rw [Fin.sum_univ_three, ← realCross_real]
  exact realCross_weights _ _ _ q

theorem plane_combine {x y : ℝ} (h : x + y = 1) : c.plane s (x • q + y • r) = x * c.plane s q + y * c.plane s r := by
  have hside : ∀ k, c.realSide s k (x • q + y • r) = x * c.realSide s k q + y * c.realSide s k r := fun k =>
    realCross_combine _ _ q r h
  simp only [plane, hside, Fin.sum_univ_three]
  ring

theorem continuous_plane (c : Triangle) (s : Samples Rat) : Continuous (c.plane s) := by
  have hside : ∀ k, Continuous (c.realSide s k) := fun k => continuous_realCross _ _
  unfold plane
  fun_prop

/-- A plane is a linear form of the coordinates up to a constant. -/
theorem plane_linear (c : Triangle) (s : Samples Rat) : ∃ x y z : ℝ, ∀ q, c.plane s q = x * q.1 + y * q.2 + z := by
  have hside : ∀ k, ∃ x y z : ℝ, ∀ q, c.realSide s k q = x * q.1 + y * q.2 + z := fun k => by
    refine ⟨-((s.point (c.side k).2).y - (s.point (c.side k).1).y), (s.point (c.side k).2).x - (s.point (c.side k).1).x, ?_, ?_⟩
    · exact c.realSide s k 0
    · intro q
      simp only [realSide, realCross, Prod.fst_zero, Prod.snd_zero]
      ring
  choose x y z hxyz using hside
  let area : ℝ := (cross (s.point c.fst) (s.point c.snd) (s.point c.trd) : Rat)
  refine ⟨(∑ k, x k * (s.height (c.get k) : Rat)) / area, (∑ k, y k * (s.height (c.get k) : Rat)) / area,
    (∑ k, z k * (s.height (c.get k) : Rat)) / area, fun q => ?_⟩
  simp only [plane, hxyz, Fin.sum_univ_three]
  ring

/-- Over a triangle there is one flat height with given values at the corners. -/
theorem eq_plane {x y z : ℝ} (h : 0 < cross (s.point c.fst) (s.point c.snd) (s.point c.trd))
    (hcorner : ∀ k, x * (s.point (c.get k)).real.1 + y * (s.point (c.get k)).real.2 + z = (s.height (c.get k) : Rat)) (q : ℝ × ℝ) :
    x * q.1 + y * q.2 + z = c.plane s q := by
  have hA : ((cross (s.point c.fst) (s.point c.snd) (s.point c.trd) : Rat) : ℝ) ≠ 0 := Rat.cast_ne_zero.2 h.ne'
  have hsum := sum_realSide c s q
  have hweights := sum_realSide_smul c s q
  have h1 := congrArg Prod.fst hweights
  have h2 := congrArg Prod.snd hweights
  rw [plane, eq_div_iff hA]
  simp only [← hcorner, Fin.sum_univ_three, Prod.fst_add, Prod.snd_add, Prod.smul_fst, Prod.smul_snd, smul_eq_mul] at hsum h1 h2 ⊢
  linear_combination -x * h1 - y * h2 - z * hsum

theorem plane_corner (h : cross (s.point c.fst) (s.point c.snd) (s.point c.trd) ≠ 0) (k : Fin 3) :
    c.plane s (s.point (c.get k)).real = (s.height (c.get k) : Rat) := by
  have hA : ((cross (s.point c.fst) (s.point c.snd) (s.point c.trd) : Rat) : ℝ) ≠ 0 := Rat.cast_ne_zero.2 h
  have hbca := cross_rotate (s.point c.fst) (s.point c.snd) (s.point c.trd)
  have hcab := (cross_rotate (s.point c.snd) (s.point c.trd) (s.point c.fst)).trans hbca
  rw [plane, div_eq_iff hA, Fin.sum_univ_three]
  -- The other two corners lie on the sides at this one.
  rcases Triple.eq_zero_or k with rfl | rfl | rfl <;>
    simp only [realSide, side, Triple.get, next, previous, realCross_real, cross_self_left, cross_self_right, hbca, hcab, Rat.cast_zero,
      zero_mul, add_zero, zero_add] <;> ring

/-- The height at a rational point. -/
theorem planarHeight_real (h : cross (s.point c.fst) (s.point c.snd) (s.point c.trd) ≠ 0) (p : Point Rat) :
    ((c.planarHeight s p : Rat) : ℝ) = c.plane s p.real := by
  have hzero : (cross (s.point c.fst) (s.point c.snd) (s.point c.trd) == 0) = false := decide_eq_false h
  unfold planarHeight
  simp only [hzero, Bool.false_eq_true, if_false]
  rw [plane, Fin.sum_univ_three]
  simp only [realSide, side, Triple.get, next, previous, realCross_real]
  rw [← cross_rotate p (s.point c.snd) (s.point c.trd), cross_rotate (s.point c.trd) (s.point c.fst) p]
  push_cast
  ring

/-- Over a closed triangle the plane stays between the heights of two corners. -/
theorem plane_bounds (h : 0 < cross (s.point c.fst) (s.point c.snd) (s.point c.trd)) (hq : ∀ k, 0 ≤ c.realSide s k q) :
    (∃ k, (s.height (c.get k) : Rat) ≤ c.plane s q) ∧ ∃ k, c.plane s q ≤ (s.height (c.get k) : Rat) := by
  have hA : (0 : ℝ) < (cross (s.point c.fst) (s.point c.snd) (s.point c.trd) : Rat) := Rat.cast_pos.2 h
  obtain ⟨k, hk⟩ := Finite.exists_min fun k => s.height (c.get k)
  obtain ⟨l, hl⟩ := Finite.exists_max fun k => s.height (c.get k)
  refine ⟨⟨k, ?_⟩, l, ?_⟩
  · rw [plane, le_div_iff₀ hA, ← sum_realSide c s q, Finset.mul_sum]
    refine Finset.sum_le_sum fun j _ => ?_
    rw [mul_comm]
    exact mul_le_mul_of_nonneg_left (Rat.cast_le.2 (hk j)) (hq j)
  · rw [plane, div_le_iff₀ hA, ← sum_realSide c s q, Finset.mul_sum]
    refine Finset.sum_le_sum fun j _ => ?_
    rw [mul_comm]
    exact mul_le_mul_of_nonneg_right (Rat.cast_le.2 (hl j)) (hq j)

theorem corner_mem (c : Triangle) (s : Samples Rat) (k : Fin 3) : (s.point (c.get k)).real ∈ c.region s := by
  refine subset_convexHull ℝ _ ?_
  rcases Triple.eq_zero_or k with rfl | rfl | rfl
  · exact .inl rfl
  · exact .inr (.inl rfl)
  · exact .inr (.inr rfl)

end Triangle

namespace Triangulation

variable {t : Triangulation} {s : Samples Rat} {q : ℝ × ℝ} {i j : Nat} {f g : ℝ × ℝ → ℝ}

namespace Paving

variable (h : t.Paving s)

include h

theorem mem_region (hi : i < t.size) : q ∈ (t.triangle i).region s ↔ ∀ k, 0 ≤ (t.triangle i).realSide s k q :=
  Triangle.mem_region (h.turn i hi)

theorem region_subset (hi : i < t.size) : (t.triangle i).region s ⊆ t.hullRegion s := by
  rw [← h.cover]
  exact Set.subset_biUnion_of_mem (u := fun i => (t.triangle i).region s) hi

/-- Where triangles meet their planes agree. -/
theorem plane_eq (hi : i < t.size) (hj : j < t.size) (hqi : q ∈ (t.triangle i).region s) (hqj : q ∈ (t.triangle j).region s) :
    (t.triangle i).plane s q = (t.triangle j).plane s q := by
  by_cases hij : i = j
  · rw [hij]
  have hconvex : Convex ℝ {r | (t.triangle i).plane s r = (t.triangle j).plane s r} := by
    intro q hq r hr x y _ _ hxy
    change _ = _
    rw [Triangle.plane_combine hxy, Triangle.plane_combine hxy, show (t.triangle i).plane s q = _ from hq,
      show (t.triangle i).plane s r = _ from hr]
  refine convexHull_min ?_ hconvex (h.meet i hi j hj hij ⟨hqi, hqj⟩)
  rintro _ ⟨v, hvi, hvj, rfl⟩
  obtain ⟨k, rfl⟩ := (Triple.mem_iff _ _).1 hvi
  obtain ⟨l, hl⟩ := (Triple.mem_iff _ _).1 hvj
  change _ = _
  rw [Triangle.plane_corner (h.turn i hi).ne', ← hl, Triangle.plane_corner (h.turn j hj).ne']

end Paving

/-- A height over the polygon within the hull that is continuous, flat over each triangle and right at the samples. -/
structure FlatSurface (t : Triangulation) (s : Samples Rat) (f : ℝ × ℝ → ℝ) : Prop where
  continuousOn : ContinuousOn f (t.hullRegion s)
  flat : ∀ i < t.size, ∃ x y z : ℝ, ∀ q ∈ (t.triangle i).region s, f q = x * q.1 + y * q.2 + z
  corner : ∀ i < t.size, ∀ v ∈ t.triangle i, f (s.point v).real = (s.height v : Rat)

theorem FlatSurface.eq_plane (h : t.Paving s) (hf : t.FlatSurface s f) (hi : i < t.size) (hq : q ∈ (t.triangle i).region s) :
    f q = (t.triangle i).plane s q := by
  obtain ⟨x, y, z, hflat⟩ := hf.flat i hi
  rw [hflat q hq]
  refine Triangle.eq_plane (h.turn i hi) (fun k => ?_) q
  rw [← hflat _ (Triangle.corner_mem _ s k), hf.corner i hi _ ((Triple.mem_iff _ _).2 ⟨k, rfl⟩)]

/-- There is one such height, -/
theorem FlatSurface.eqOn (h : t.Paving s) (hf : t.FlatSurface s f) (hg : t.FlatSurface s g) : Set.EqOn f g (t.hullRegion s) := by
  intro q hq
  rw [← h.cover] at hq
  obtain ⟨i, hi, hq⟩ := Set.mem_iUnion₂.1 hq
  rw [hf.eq_plane h hi hq, hg.eq_plane h hi hq]

open Classical in
/-- The height of the first triangle found at a point. -/
noncomputable def patched (t : Triangulation) (s : Samples Rat) (q : ℝ × ℝ) : ℝ :=
  if h : ∃ i < t.size, q ∈ (t.triangle i).region s then (t.triangle (Nat.find h)).plane s q else 0

theorem Paving.patched_eq (h : t.Paving s) (hi : i < t.size) (hq : q ∈ (t.triangle i).region s) :
    t.patched s q = (t.triangle i).plane s q := by
  classical
  have hex : ∃ i < t.size, q ∈ (t.triangle i).region s := ⟨i, hi, hq⟩
  rw [patched, dif_pos hex]
  obtain ⟨hlt, hmem⟩ := Nat.find_spec hex
  exact h.plane_eq hlt hi hmem hq

/-- the planes of the triangles put together. -/
theorem Paving.flatSurface_patched (h : t.Paving s) : t.FlatSurface s (t.patched s) where
  continuousOn := by
    have hunion : t.hullRegion s = ⋃ i : Fin t.size, (t.triangle i).region s := by
      rw [← h.cover]
      ext q
      simp [Fin.exists_iff]
    rw [hunion]
    refine (locallyFinite_of_finite _).continuousOn_iUnion (fun i => Sheet.isClosed_region _ s) fun i => ?_
    exact (Triangle.continuous_plane _ s).continuousOn.congr fun q hq => h.patched_eq i.isLt hq
  flat i hi := by
    obtain ⟨x, y, z, hplane⟩ := Triangle.plane_linear (t.triangle i) s
    exact ⟨x, y, z, fun q hq => (h.patched_eq hi hq).trans (hplane q)⟩
  corner i hi v hv := by
    obtain ⟨k, rfl⟩ := (Triple.mem_iff _ _).1 hv
    rw [h.patched_eq hi (Triangle.corner_mem _ s k), Triangle.plane_corner (h.turn i hi).ne']

end Triangulation

end DelaunaySurface
