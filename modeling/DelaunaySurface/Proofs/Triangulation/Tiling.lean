import DelaunaySurface.Proofs.Mesh.Tiling
import DelaunaySurface.Proofs.Plane.Real
import DelaunaySurface.Proofs.Triangulation.Exact
/-!
# The triangles tile the convex hull

Over exact numbers and with no tolerance the triangles of a build fill the convex hull of the samples and
do not overlap, and its hull goes once around (`tiles_of_build`). `Sheet` is all that is used of the mesh
for this, in terms of rational points; the step to the real plane is by approximation.
-/

namespace DelaunaySurface

open Triple (next previous)

/-- How far a point lies to the left of a side of a triangle, times the length of the side. -/
def Triangle.sideCross (c : Triangle) (s : Samples Rat) (k : Fin 3) (p : Point Rat) : Rat :=
  cross (s.point (c.side k).1) (s.point (c.side k).2) p

/-- The closed triangle in the real plane. -/
def Triangle.region (c : Triangle) (s : Samples Rat) : Set (ℝ × ℝ) :=
  convexHull ℝ {(s.point c.fst).real, (s.point c.snd).real, (s.point c.trd).real}

theorem Triangle.mem_region {c : Triangle} {s : Samples Rat} {q : ℝ × ℝ}
    (h : 0 < cross (s.point c.fst) (s.point c.snd) (s.point c.trd)) :
    q ∈ c.region s ↔ ∀ k, 0 ≤ realCross (s.point (c.side k).1) (s.point (c.side k).2) q := by
  refine (mem_convexHull_triangle h).trans ⟨fun ⟨h2, h0, h1⟩ k => ?_, fun hk => ⟨hk 2, hk 0, hk 1⟩⟩
  rcases Triple.eq_zero_or k with rfl | rfl | rfl
  · exact h0
  · exact h1
  · exact h2

/-- The places of the samples in the real plane. -/
def Samples.places (s : Samples Rat) : Set (ℝ × ℝ) := {q | ∃ i < s.size, (s.point i).real = q}

namespace Triangulation

/-- The triangles lie side by side and fill the hull, as far as rational points tell. -/
structure Sheet (t : Triangulation) (s : Samples Rat) : Prop where
  nonempty : 0 < t.size
  distinct : ∀ i < s.size, ∀ j < s.size, i ≠ j → s.point i ≠ s.point j
  corner : ∀ i < t.size, ∀ k, (t.triangle i).get k < s.size
  turn : ∀ i < t.size, ∀ k, 0 < (t.triangle i).sideCross s k (s.point ((t.triangle i).get k))
  hull_mem : ∀ e ∈ t.hullSides, e.1 ∈ t.hull ∧ e.2 ∈ t.hull
  hull_lt : ∀ e ∈ t.hullSides, e.1 < s.size ∧ e.2 < s.size
  hull_ne : ∀ e ∈ t.hullSides, s.point e.1 ≠ s.point e.2
  hull_empty : ∀ e ∈ t.hullSides, ∀ i < s.size, ¬Outward (s.point e.2) (s.point e.1) (s.point i)
  /-- A side of a triangle has a sample to its right, or it is a hull side. -/
  across : ∀ i < t.size, ∀ k, (t.triangle i).side k ∈ t.hullSides ∨ ∃ x < s.size, (t.triangle i).sideCross s k (s.point x) < 0
  /-- A point strictly inside the hull lies in a triangle. -/
  inside : ∀ p, (∀ i < s.size, s.point i ≠ p) → (∀ e ∈ t.hullSides, 0 < cross (s.point e.1) (s.point e.2) p) →
    ∃ i < t.size, ∀ k, 0 ≤ (t.triangle i).sideCross s k p
  /-- No point lies strictly inside two triangles. -/
  alone : ∀ p, (∀ i < s.size, s.point i ≠ p) → ∀ i < t.size, ∀ j < t.size, (∀ k, 0 < (t.triangle i).sideCross s k p) →
    (∀ k, 0 < (t.triangle j).sideCross s k p) → i = j

theorem sheet_ofMesh {s : Samples Rat} {m : Mesh} {sites : List Nat} (h : m.Delaunay s.point sites)
    (hs : ∀ i, i ∈ sites ↔ i < s.size) : (ofMesh s.size m).Sheet s := by
  have hlt : ∀ i ∈ sites, i < s.size := fun i => (hs i).1
  have hsides : ∀ e, e ∈ (ofMesh s.size m).hullSides ↔ e ∈ m.outerSides := fun e => h.mem_cyclicPairs_hull hlt
  have hsize : (ofMesh s.size m).size = m.triangleSlots.length := size_ofMesh
  have hslot : ∀ i < (ofMesh s.size m).size, m.slotOf i ∈ m.triangleSlots := fun i hi =>
    Mesh.mem_triangleSlots.2 (Mesh.slotOf_mem (hsize ▸ hi))
  have htriangle : ∀ i < (ofMesh s.size m).size, (ofMesh s.size m).triangle i = m.triangleAt (m.slotOf i) := fun i hi =>
    triangle_ofMesh (hsize ▸ hi)
  have hnew : ∀ {p}, (∀ i < s.size, s.point i ≠ p) → ∀ i ∈ sites, s.point i ≠ p := fun hp i hi => hp i (hlt i hi)
  refine
    { nonempty := ?_, distinct := ?_, corner := ?_, turn := ?_, hull_mem := fun e => mem_of_mem_cyclicPairs, hull_lt := ?_,
      hull_ne := ?_, hull_empty := ?_, across := ?_, inside := ?_, alone := ?_ }
  · rw [hsize]
    exact List.length_pos_of_mem (Mesh.mem_triangleSlots.2 ⟨h.hint_live, h.hint_bounded⟩)
  · exact fun i hi j hj => h.distinct i ((hs i).2 hi) j ((hs j).2 hj)
  · intro i hi k
    obtain ⟨hlive, hb⟩ := Mesh.mem_triangleSlots.1 (hslot i hi)
    rw [htriangle i hi]
    exact hlt _ (h.among _ k _ hlive (Mesh.corner_eq_site hb k))
  · intro i hi k
    rw [htriangle i hi]
    exact h.turn_triangleAt (hslot i hi) k
  · intro e he
    obtain ⟨h1, h2⟩ := h.outer_among ((hsides e).1 he)
    exact ⟨hlt _ h1, hlt _ h2⟩
  · exact fun e he => h.outer_ne ((hsides e).1 he)
  · exact fun e he i hi => h.not_outward_hull ((hsides e).1 he) ((hs i).2 hi)
  · intro i hi k
    obtain ⟨hlive, hb⟩ := Mesh.mem_triangleSlots.1 (hslot i hi)
    rw [htriangle i hi, hsides]
    rcases h.outer_or_exists hlive hb (Mesh.side_eq_site hb k) with ho | ⟨x, hx, hneg⟩
    · exact .inl ho
    · exact .inr ⟨x, hlt x hx, hneg⟩
  · intro p hp hin
    obtain ⟨u, hu, hk⟩ := h.exists_triangle_of_inside (hnew hp) fun e he => hin e ((hsides e).2 he)
    obtain ⟨hlive, hb⟩ := Mesh.mem_triangleSlots.1 hu
    obtain ⟨i, hi, rfl⟩ := Mesh.exists_slotOf hlive hb
    rw [← hsize] at hi
    exact ⟨i, hi, htriangle i hi ▸ hk⟩
  · intro p hp i hi j hj hin hin'
    rw [htriangle i hi] at hin
    rw [htriangle j hj] at hin'
    have hij := h.eq_of_inside (hnew hp) (hslot i hi) (hslot j hj) hin hin'
    rw [hsize] at hi hj
    rwa [Mesh.slotOf_eq hi, Mesh.slotOf_eq hj, m.triangleSlots_nodup.getElem_inj_iff] at hij

theorem sheet_of_build {s : Samples Rat} {budget : Nat} {t : Triangulation} (h : build ⟨budget, ⟨0⟩⟩ s = .ok t) : t.Sheet s := by
  obtain ⟨m, hm, rfl⟩ := build_eq_ok.1 h
  obtain ⟨sites, hdelaunay, hperm⟩ := delaunay_of_mesh hm
  exact sheet_ofMesh hdelaunay fun i => by rw [hperm.mem_iff, List.mem_range]

/-! ## From rational points to the plane -/

namespace Sheet

variable {t : Triangulation} {s : Samples Rat} {q : ℝ × ℝ} {i j : Nat}

theorem isClosed_region (c : Triangle) (s : Samples Rat) : IsClosed (c.region s) :=
  Set.Finite.isClosed_convexHull ℝ (Set.toFinite _)

theorem finite_places (s : Samples Rat) : s.places.Finite := by
  refine ((Set.finite_Iio s.size).image fun i => (s.point i).real).subset ?_
  rintro _ ⟨i, hi, rfl⟩
  exact ⟨i, hi, rfl⟩

/-- The triangles together. -/
def cover (t : Triangulation) (s : Samples Rat) : Set (ℝ × ℝ) := ⋃ i < t.size, (t.triangle i).region s

theorem isClosed_cover : IsClosed (cover t s) :=
  (Set.finite_Iio t.size).isClosed_biUnion fun i _ => isClosed_region (t.triangle i) s

variable (h : t.Sheet s)

include h

theorem mem_region (hi : i < t.size) : q ∈ (t.triangle i).region s ↔
    ∀ k, 0 ≤ realCross (s.point ((t.triangle i).side k).1) (s.point ((t.triangle i).side k).2) q :=
  Triangle.mem_region (h.turn i hi 2)

theorem hull_left {e : Nat × Nat} (he : e ∈ t.hullSides) (hi : i < s.size) :
    0 ≤ cross (s.point e.1) (s.point e.2) (s.point i) := by
  have hswap := cross_swap (s.point e.1) (s.point e.2) (s.point i)
  by_contra hneg
  exact h.hull_empty e he i hi (.inl (by linarith))

theorem realCross_nonneg {e : Nat × Nat} (he : e ∈ t.hullSides) (hq : q ∈ convexHull ℝ s.places) :
    0 ≤ realCross (s.point e.1) (s.point e.2) q := by
  refine convexHull_min ?_ (convex_left (s.point e.1) (s.point e.2)) hq
  rintro _ ⟨i, hi, rfl⟩
  change 0 ≤ realCross _ _ _
  rw [realCross_real, Rat.cast_nonneg]
  exact h.hull_left he hi

theorem region_subset (hi : i < t.size) : (t.triangle i).region s ⊆ convexHull ℝ s.places := by
  refine convexHull_mono ?_
  rintro _ (rfl | rfl | rfl)
  · exact ⟨_, h.corner i hi 0, rfl⟩
  · exact ⟨_, h.corner i hi 1, rfl⟩
  · exact ⟨_, h.corner i hi 2, rfl⟩

/-- The middle of three samples that are not in line is strictly inside the hull. -/
theorem centroid_inside {a b c : Nat} (ha : a < s.size) (hb : b < s.size) (hc : c < s.size)
    (hline : cross (s.point a) (s.point b) (s.point c) ≠ 0) {e : Nat × Nat} (he : e ∈ t.hullSides) :
    0 < cross (s.point e.1) (s.point e.2) (centroid (s.point a) (s.point b) (s.point c)) := by
  have ha := h.hull_left he ha
  have hb := h.hull_left he hb
  have hc := h.hull_left he hc
  rw [cross_centroid]
  by_contra hno
  exact hline (cross_eq_zero_of_line (h.hull_ne e he) (by linarith) (by linarith) (by linarith))

omit h in
theorem isOpen_inside : IsOpen {q | ∀ e ∈ t.hullSides, 0 < realCross (s.point e.1) (s.point e.2) q} := by
  have : {q | ∀ e ∈ t.hullSides, 0 < realCross (s.point e.1) (s.point e.2) q} =
      ⋂ e ∈ {e | e ∈ t.hullSides}, {q | 0 < realCross (s.point e.1) (s.point e.2) q} := by
    ext q
    simp
  rw [this]
  exact (List.finite_toSet t.hullSides).isOpen_biInter fun e _ => isOpen_lt continuous_const (continuous_realCross _ _)

/-! ## The triangles fill the hull -/

/-- What is strictly inside the hull is covered: otherwise a rational point nearby would not be, -/
theorem mem_cover_of_inside (hq : ∀ e ∈ t.hullSides, 0 < realCross (s.point e.1) (s.point e.2) q) : q ∈ cover t s := by
  by_contra hno
  obtain ⟨p, ⟨hin, hout⟩, hp⟩ := exists_rational (isOpen_inside.inter isClosed_cover.isOpen_compl) ⟨q, hq, hno⟩
    ((List.range s.size).map s.point)
  obtain ⟨i, hi, hk⟩ := h.inside p (fun i hi => hp _ (List.mem_map_of_mem (List.mem_range.2 hi))) fun e he => by
    have := hin e he
    rwa [realCross_real, Rat.cast_pos] at this
  refine hout (Set.mem_biUnion (s := Set.Iio t.size) hi ((h.mem_region hi).2 fun k => ?_))
  rw [realCross_real, Rat.cast_nonneg]
  exact hk k

/-- and the rest of the hull lies close to such points. -/
theorem mem_cover (hq : ∀ e ∈ t.hullSides, 0 ≤ realCross (s.point e.1) (s.point e.2) q) : q ∈ cover t s := by
  -- The middle of some triangle is strictly inside the hull.
  obtain ⟨o, ho⟩ : ∃ o, ∀ e ∈ t.hullSides, 0 < cross (s.point e.1) (s.point e.2) o :=
    ⟨_, fun e he => h.centroid_inside (h.corner 0 h.nonempty 0) (h.corner 0 h.nonempty 1) (h.corner 0 h.nonempty 2)
      (h.turn 0 h.nonempty 2).ne' he⟩
  have ho' : ∀ e ∈ t.hullSides, 0 < realCross (s.point e.1) (s.point e.2) o.real := fun e he => by
    rw [realCross_real, Rat.cast_pos]
    exact ho e he
  by_cases hqo : q = o.real
  · exact h.mem_cover_of_inside (hqo ▸ ho')
  · refine mem_of_toward isClosed_cover hqo Set.finite_empty fun x hx hx1 _ => h.mem_cover_of_inside fun e he => ?_
    rw [AffineMap.lineMap_apply_module, realCross_combine _ _ _ _ (by ring)]
    exact add_pos_of_nonneg_of_pos (mul_nonneg (by linarith) (hq e he)) (mul_pos hx (ho' e he))

theorem cover_eq : cover t s = convexHull ℝ s.places :=
  Set.Subset.antisymm (Set.iUnion₂_subset fun _ hi => h.region_subset hi) fun _ hq => h.mem_cover fun _ he => h.realCross_nonneg he hq

theorem mem_hull_iff : q ∈ convexHull ℝ s.places ↔ ∀ e ∈ t.hullSides, 0 ≤ realCross (s.point e.1) (s.point e.2) q :=
  ⟨fun hq _ he => h.realCross_nonneg he hq, fun hq => h.cover_eq ▸ h.mem_cover hq⟩

/-! ## The hull goes around -/

/-- The frontier is where the hull meets the line of a hull side. -/
theorem mem_frontier_iff : q ∈ frontier (convexHull ℝ s.places) ↔
    q ∈ convexHull ℝ s.places ∧ ∃ e ∈ t.hullSides, realCross (s.point e.1) (s.point e.2) q = 0 := by
  rw [((finite_places s).isClosed_convexHull ℝ).frontier_eq, Set.mem_sdiff]
  refine and_congr_right fun hq => ⟨fun hnot => ?_, ?_⟩
  · by_contra hno
    refine hnot (mem_interior.2 ⟨_, fun r hr => h.mem_hull_iff.2 fun e he => (hr e he).le, isOpen_inside, fun e he => ?_⟩)
    exact lt_of_le_of_ne (h.realCross_nonneg he hq) fun h0 => hno ⟨e, he, h0.symm⟩
  · rintro ⟨e, he, h0⟩ hin
    exact (realCross_pos_of_mem_interior (h.hull_ne e he) (fun r hr => h.realCross_nonneg he hr) hin).ne' h0

/-- A side of a triangle on the line of a hull side is a hull side itself: there is nothing to its right. -/
theorem mem_hullSides_of_line {e : Nat × Nat} (he : e ∈ t.hullSides) (hi : i < t.size) {k : Fin 3}
    (hu : cross (s.point e.1) (s.point e.2) (s.point ((t.triangle i).side k).1) = 0)
    (hw : cross (s.point e.1) (s.point e.2) (s.point ((t.triangle i).side k).2) = 0) : (t.triangle i).side k ∈ t.hullSides := by
  refine (h.across i hi k).resolve_right ?_
  rintro ⟨x, hx, hneg⟩
  exact hneg.not_ge (cross_nonneg_of_line (h.hull_ne e he) hu hw (h.hull_left he (h.corner i hi k)) (h.turn i hi k)
    (h.hull_left he hx))

/-- A point on the line of a hull side is not strictly inside a triangle, whose corners would all be on the line then. -/
theorem exists_realCross_eq_zero {e : Nat × Nat} (he : e ∈ t.hullSides) (hi : i < t.size) (hq : q ∈ (t.triangle i).region s)
    (h0 : realCross (s.point e.1) (s.point e.2) q = 0) :
    ∃ k, realCross (s.point ((t.triangle i).side k).1) (s.point ((t.triangle i).side k).2) q = 0 := by
  have hk := (h.mem_region hi).1 hq
  have hcorner : ∀ k, (0 : ℝ) ≤ (cross (s.point e.1) (s.point e.2) (s.point ((t.triangle i).get k)) : Rat) := fun k =>
    Rat.cast_nonneg.2 (h.hull_left he (h.corner i hi k))
  have hmul := realCross_mul (s.point (t.triangle i).fst) (s.point (t.triangle i).snd) (s.point (t.triangle i).trd)
    (s.point e.1) (s.point e.2) q
  rw [h0, mul_zero] at hmul
  have h0 := mul_nonneg (hk 0) (hcorner 0)
  have h1 := mul_nonneg (hk 1) (hcorner 1)
  have h2 := mul_nonneg (hk 2) (hcorner 2)
  obtain ⟨h01, hc⟩ := (add_eq_zero_iff_of_nonneg (add_nonneg h0 h1) h2).1 hmul
  obtain ⟨ha, hb⟩ := (add_eq_zero_iff_of_nonneg h0 h1).1 h01
  by_contra hno
  push Not at hno
  refine (h.turn i hi 2).ne' (cross_eq_zero_of_line (h.hull_ne e he) ?_ ?_ ?_)
  · exact Rat.cast_eq_zero.1 ((mul_eq_zero.1 ha).resolve_left (hno 0))
  · exact Rat.cast_eq_zero.1 ((mul_eq_zero.1 hb).resolve_left (hno 1))
  · exact Rat.cast_eq_zero.1 ((mul_eq_zero.1 hc).resolve_left (hno 2))

/-- A point of the frontier other than a sample lies on a hull side, -/
theorem exists_side_of_notMem {e : Nat × Nat} (he : e ∈ t.hullSides) (hq : q ∈ convexHull ℝ s.places)
    (h0 : realCross (s.point e.1) (s.point e.2) q = 0) (hplace : q ∉ s.places) :
    ∃ f ∈ t.hullSides, q ∈ segment ℝ (s.point f.1).real (s.point f.2).real := by
  rw [← h.cover_eq] at hq
  obtain ⟨i, hi, hq⟩ := Set.mem_iUnion₂.1 hq
  have hk := (h.mem_region hi).1 hq
  obtain ⟨k, hside⟩ := h.exists_realCross_eq_zero he hi hq h0
  have hnext : 0 ≤ realCross (s.point ((t.triangle i).side k).2) (s.point ((t.triangle i).get k)) q := by
    simpa only [Triangle.side, Triple.next_next, Triple.previous_next] using hk (next k)
  have hprevious : 0 ≤ realCross (s.point ((t.triangle i).get k)) (s.point ((t.triangle i).side k).1) q := by
    simpa only [Triangle.side, Triple.next_previous, Triple.previous_previous] using hk (previous k)
  have hsegment := mem_segment_of_realCross (h.turn i hi k) hside hnext hprevious
  -- So it is on a side of the triangle, between the ends, and the side is on the line.
  obtain ⟨hu, hw⟩ := cross_eq_zero_of_segment hsegment (fun hq => hplace ⟨_, h.corner i hi (next k), hq.symm⟩)
    (fun hq => hplace ⟨_, h.corner i hi (previous k), hq.symm⟩) h0 (h.hull_left he (h.corner i hi (next k)))
    (h.hull_left he (h.corner i hi (previous k)))
  exact ⟨_, h.mem_hullSides_of_line he hi hu hw, hsegment⟩

omit h in
theorem isClosed_sides : IsClosed (⋃ f ∈ t.hullSides, segment ℝ (s.point f.1).real (s.point f.2).real) := by
  refine (List.finite_toSet t.hullSides).isClosed_biUnion fun f _ => ?_
  rw [← convexHull_pair]
  exact (Set.toFinite _).isClosed_convexHull ℝ

/-- and so does a sample there, which is close to others. -/
theorem mem_sides {e : Nat × Nat} (he : e ∈ t.hullSides) (hq : q ∈ convexHull ℝ s.places)
    (h0 : realCross (s.point e.1) (s.point e.2) q = 0) :
    q ∈ ⋃ f ∈ t.hullSides, segment ℝ (s.point f.1).real (s.point f.2).real := by
  -- One end of the side is not where `q` is, and on the way there all is frontier.
  obtain ⟨v, hv, hv0, hqv⟩ : ∃ v < s.size, cross (s.point e.1) (s.point e.2) (s.point v) = 0 ∧ q ≠ (s.point v).real := by
    by_cases hq1 : q = (s.point e.1).real
    · refine ⟨e.2, (h.hull_lt e he).2, cross_self_right _ _, fun hq2 => h.hull_ne e he ?_⟩
      exact real_injective (hq1.symm.trans hq2)
    · exact ⟨e.1, (h.hull_lt e he).1, cross_self_left _ _, hq1⟩
  refine mem_of_toward isClosed_sides hqv (finite_places s) fun x hx hx1 hplace => ?_
  have hmem := (convex_convexHull ℝ s.places).lineMap_mem hq (subset_convexHull ℝ _ ⟨v, hv, rfl⟩) ⟨hx.le, hx1.le⟩
  obtain ⟨f, hf, hseg⟩ := h.exists_side_of_notMem he hmem (by
    rw [AffineMap.lineMap_apply_module, realCross_combine _ _ _ _ (by ring), h0, realCross_real, hv0]
    simp) hplace
  exact Set.mem_biUnion hf hseg

/-- The hull sides make up the frontier. -/
theorem frontier_eq : frontier (convexHull ℝ s.places) = ⋃ f ∈ t.hullSides, segment ℝ (s.point f.1).real (s.point f.2).real := by
  refine Set.Subset.antisymm (fun q hq => ?_) fun q hq => ?_
  · obtain ⟨hmem, e, he, h0⟩ := h.mem_frontier_iff.1 hq
    exact h.mem_sides he hmem h0
  · obtain ⟨f, hf, hseg⟩ := Set.mem_iUnion₂.1 hq
    obtain ⟨h1, h2⟩ := h.hull_lt f hf
    refine h.mem_frontier_iff.2 ⟨segment_subset_convexHull (s := s.places) ⟨_, h1, rfl⟩ ⟨_, h2, rfl⟩ hseg, f, hf, ?_⟩
    obtain ⟨x, y, -, -, hxy, rfl⟩ := hseg
    rw [realCross_combine _ _ _ _ hxy, realCross_real, realCross_real, cross_self_left, cross_self_right]
    simp

/-- All samples on the frontier are on the hull. -/
theorem mem_hull_of_frontier (hi : i < s.size) (hfrontier : (s.point i).real ∈ frontier (convexHull ℝ s.places)) : i ∈ t.hull := by
  rw [h.frontier_eq] at hfrontier
  obtain ⟨f, hf, hseg⟩ := Set.mem_iUnion₂.1 hfrontier
  obtain ⟨h1, h2⟩ := h.hull_lt f hf
  obtain ⟨hm1, hm2⟩ := h.hull_mem f hf
  by_contra hno
  have hne : ∀ j < s.size, j ∈ t.hull → s.point i ≠ s.point j := fun j hj hm => h.distinct i hi j hj fun hij => hno (hij ▸ hm)
  exact h.hull_empty f hf i hi (outward_of_mem_segment hseg (hne _ h1 hm1) (hne _ h2 hm2))

/-! ## The triangles do not overlap -/

theorem disjoint_interior (hi : i < t.size) (hj : j < t.size) (hij : i ≠ j) :
    Disjoint (interior ((t.triangle i).region s)) (interior ((t.triangle j).region s)) := by
  rw [Set.disjoint_iff_inter_eq_empty]
  by_contra hne
  obtain ⟨p, ⟨hpi, hpj⟩, hp⟩ := exists_rational (isOpen_interior.inter isOpen_interior) (Set.nonempty_iff_ne_empty.2 hne)
    ((List.range s.size).map s.point)
  have hstrict : ∀ {n}, n < t.size → p.real ∈ interior ((t.triangle n).region s) → ∀ k, 0 < (t.triangle n).sideCross s k p := by
    intro n hn hin k
    have hne : s.point ((t.triangle n).side k).1 ≠ s.point ((t.triangle n).side k).2 := fun heq =>
      (h.turn n hn k).ne' (by rw [Triangle.sideCross, heq]; simp only [cross_eq]; ring)
    have hpos := realCross_pos_of_mem_interior hne (fun r hr => (h.mem_region hn).1 hr k) hin
    rwa [realCross_real, Rat.cast_pos] at hpos
  exact hij (h.alone p (fun x hx => hp _ (List.mem_map_of_mem (List.mem_range.2 hx))) i hi j hj (hstrict hi hpi) (hstrict hj hpj))

end Sheet

/-! ## Every exact build -/

/-- The triangles tile the convex hull of the samples, and the hull of the triangulation is its boundary. -/
structure Tiles (t : Triangulation) (s : Samples Rat) : Prop where
  /-- No sample lies to the right of a hull side. -/
  hull_left : ∀ e ∈ t.hullSides, ∀ i < s.size, 0 ≤ cross (s.point e.1) (s.point e.2) (s.point i)
  /-- The sides of the hull are the boundary of the convex hull of the samples. -/
  frontier_eq : frontier (convexHull ℝ s.places) = ⋃ e ∈ t.hullSides, segment ℝ (s.point e.1).real (s.point e.2).real
  /-- All samples on the boundary are on the hull, those between its corners included. -/
  mem_hull : ∀ i < s.size, (s.point i).real ∈ frontier (convexHull ℝ s.places) → i ∈ t.hull
  /-- Different triangles have no interior point in common. -/
  disjoint : ∀ i < t.size, ∀ j < t.size, i ≠ j →
    Disjoint (interior ((t.triangle i).region s)) (interior ((t.triangle j).region s))
  /-- The closed triangles cover the convex hull, and nothing else. -/
  cover : ⋃ i < t.size, (t.triangle i).region s = convexHull ℝ s.places

/-- Read over exact numbers and with no tolerance, the triangles of every build that succeeds tile the convex hull
of the samples, and its hull is the boundary. -/
theorem tiles_of_build {s : Samples Rat} {budget : Nat} {t : Triangulation} (h : build ⟨budget, ⟨0⟩⟩ s = .ok t) : t.Tiles s where
  hull_left _ he _ hi := (sheet_of_build h).hull_left he hi
  frontier_eq := (sheet_of_build h).frontier_eq
  mem_hull _ hi := (sheet_of_build h).mem_hull_of_frontier hi
  disjoint _ hi _ hj := (sheet_of_build h).disjoint_interior hi hj
  cover := (sheet_of_build h).cover_eq

theorem tiles_of_build_kite : ∃ t, build ⟨100, ⟨0⟩⟩ kite = .ok t ∧ t.Tiles kite := by
  obtain ⟨t, ht⟩ := build_kite
  exact ⟨t, ht, tiles_of_build ht⟩

end Triangulation

end DelaunaySurface
