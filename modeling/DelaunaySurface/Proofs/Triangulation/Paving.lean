import DelaunaySurface.Proofs.Triangulation.Engines
/-!
# Pavings

A paving is what is to be expected of a triangulation's geometry: counter-clockwise triangles that meet in common
corners and whole common edges, cover the polygon within the hull, and have tables that go with them (`Paving`). Over
exact numbers and with no tolerance every build makes one (`paving_of_build`). That triangles meet so is shown near a
point that two of them share: there is no room for a third one around the inner part of a side.
-/

namespace DelaunaySurface

open Triple (next previous)

/-- How far a point of the real plane lies to the left of a side of a triangle, times the length of the side. -/
noncomputable def Triangle.realSide (c : Triangle) (s : Samples Rat) (k : Fin 3) (q : ℝ × ℝ) : ℝ :=
  realCross (s.point (c.side k).1) (s.point (c.side k).2) q

/-- The open triangle in the real plane. -/
def Triangle.openRegion (c : Triangle) (s : Samples Rat) : Set (ℝ × ℝ) := {q | ∀ k, 0 < c.realSide s k q}

/-- The open wedge between the two sides at a corner. -/
def Triangle.wedge (c : Triangle) (s : Samples Rat) (k : Fin 3) : Set (ℝ × ℝ) :=
  {q | 0 < c.realSide s (next k) q} ∩ {q | 0 < c.realSide s (previous k) q}

/-- The places of the corners that two triangles have in common. -/
def Triangle.commonPlaces (c d : Triangle) (s : Samples Rat) : Set (ℝ × ℝ) :=
  {q | ∃ v, v ∈ c ∧ v ∈ d ∧ (s.point v).real = q}

namespace Triangulation

variable {t : Triangulation} {s : Samples Rat} {q : ℝ × ℝ} {i j : Nat}

theorem isOpen_left (a b : Point Rat) : IsOpen {q | 0 < realCross a b q} :=
  isOpen_lt continuous_const (continuous_realCross a b)

theorem isOpen_openRegion (c : Triangle) : IsOpen (c.openRegion s) := by
  have : c.openRegion s = ⋂ k, {q | 0 < c.realSide s k q} := by
    ext q
    simp [Triangle.openRegion]
  rw [this]
  exact isOpen_iInter_of_finite fun k => isOpen_left _ _

theorem isOpen_wedge (c : Triangle) (s : Samples Rat) (k : Fin 3) : IsOpen (c.wedge s k) :=
  (isOpen_left _ _).inter (isOpen_left _ _)

/-- What is in the wedge of a corner and to the left of the side opposite is strictly inside. -/
theorem mem_openRegion {c : Triangle} {k : Fin 3} (hw : q ∈ c.wedge s k) (hk : 0 < c.realSide s k q) : q ∈ c.openRegion s := by
  intro l
  rcases Triple.eq_or_next_or_previous l k with rfl | rfl | rfl
  · exact hk
  · exact hw.1
  · exact hw.2

namespace Sheet

variable (h : t.Sheet s)

include h

/-- The middle of a triangle is strictly inside it. -/
theorem centroid_mem (hi : i < t.size) : (centroid (s.point (t.triangle i).fst) (s.point (t.triangle i).snd)
    (s.point (t.triangle i).trd)).real ∈ (t.triangle i).openRegion s := by
  intro k
  rw [Triangle.realSide, realCross_real, Rat.cast_pos]
  rcases Triple.eq_zero_or k with rfl | rfl | rfl
  · rw [← centroid_rotate]
    exact cross_centroid_pos (h.turn i hi 0)
  · rw [← centroid_rotate, ← centroid_rotate]
    exact cross_centroid_pos (h.turn i hi 1)
  · exact cross_centroid_pos (h.turn i hi 2)

theorem region_subset_closure (hi : i < t.size) : (t.triangle i).region s ⊆ closure ((t.triangle i).openRegion s) := by
  intro q hq
  have ho := h.centroid_mem hi
  by_cases hqo : q = (centroid (s.point (t.triangle i).fst) (s.point (t.triangle i).snd) (s.point (t.triangle i).trd)).real
  · exact subset_closure (hqo ▸ ho)
  · refine mem_of_toward isClosed_closure hqo Set.finite_empty fun x hx hx1 _ => subset_closure fun k => ?_
    rw [Triangle.realSide, AffineMap.lineMap_apply_module, realCross_combine _ _ _ _ (by ring)]
    exact add_pos_of_nonneg_of_pos (mul_nonneg (by linarith) ((h.mem_region hi).1 hq k)) (mul_pos hx (ho k))

theorem eq_of_mem_openRegion (hi : i < t.size) (hj : j < t.size) (hqi : q ∈ (t.triangle i).openRegion s)
    (hqj : q ∈ (t.triangle j).openRegion s) : i = j := by
  obtain ⟨p, ⟨hpi, hpj⟩, hp⟩ := exists_rational ((isOpen_openRegion _).inter (isOpen_openRegion _)) ⟨q, hqi, hqj⟩
    ((List.range s.size).map s.point)
  have hpos : ∀ {n}, p.real ∈ (t.triangle n).openRegion s → ∀ k, 0 < (t.triangle n).sideCross s k p := fun hpn k => by
    have := hpn k
    rwa [Triangle.realSide, realCross_real, Rat.cast_pos] at this
  exact h.alone p (fun x hx => hp _ (List.mem_map_of_mem (List.mem_range.2 hx))) i hi j hj (hpos hpi) (hpos hpj)

/-- Where a triangle reaches into the wedge of a corner of another, near a point that they share, and not beyond the side
opposite, the two are the same. -/
theorem eq_of_near {W : Set (ℝ × ℝ)} {k : Fin 3} (hW : IsOpen W) (hwedge : W ⊆ (t.triangle i).wedge s k) (hi : i < t.size)
    (hj : j < t.size) (hqj : q ∈ (t.triangle j).region s) (hqW : q ∈ W)
    (hleft : ∀ r ∈ W, r ∈ (t.triangle j).openRegion s → 0 ≤ (t.triangle i).realSide s k r) : i = j := by
  obtain ⟨r, hrW, hrj⟩ := mem_closure_iff.1 (h.region_subset_closure hj hqj) W hW hqW
  have hne : s.point ((t.triangle i).side k).1 ≠ s.point ((t.triangle i).side k).2 := fun heq =>
    (h.turn i hi k).ne' (by rw [Triangle.sideCross, heq]; simp only [cross_eq]; ring)
  have hpos : 0 < (t.triangle i).realSide s k r := by
    refine realCross_pos_of_mem_interior (S := W ∩ (t.triangle j).openRegion s) hne (fun x hx => hleft x hx.1 hx.2) ?_
    rw [(hW.inter (isOpen_openRegion _)).interior_eq]
    exact ⟨hrW, hrj⟩
  exact h.eq_of_mem_openRegion hi hj (mem_openRegion (hwedge hrW) hpos) hrj

omit h in
/-- The sides next to the corner `k`. -/
theorem realSide_next (c : Triangle) (k : Fin 3) (q : ℝ × ℝ) :
    c.realSide s (next k) q = realCross (s.point (c.side k).2) (s.point (c.get k)) q := by
  simp only [Triangle.realSide, Triangle.side, Triple.next_next, Triple.previous_next]

omit h in
theorem realSide_previous (c : Triangle) (k : Fin 3) (q : ℝ × ℝ) :
    c.realSide s (previous k) q = realCross (s.point (c.get k)) (s.point (c.side k).1) q := by
  simp only [Triangle.realSide, Triangle.side, Triple.next_previous, Triple.previous_previous]

/-- A point of a triangle on the line of a side is on the side, -/
theorem mem_segment (hi : i < t.size) (hq : q ∈ (t.triangle i).region s) {k : Fin 3} (h0 : (t.triangle i).realSide s k q = 0) :
    q ∈ segment ℝ (s.point ((t.triangle i).side k).1).real (s.point ((t.triangle i).side k).2).real := by
  have hk := (h.mem_region hi).1 hq
  exact mem_segment_of_realCross (h.turn i hi k) h0 (realSide_next _ k q ▸ hk (next k)) (realSide_previous _ k q ▸ hk (previous k))

/-- and one on the lines of two sides is the corner between them. -/
theorem eq_corner (hi : i < t.size) {k : Fin 3} (hnext : (t.triangle i).realSide s (next k) q = 0)
    (hprevious : (t.triangle i).realSide s (previous k) q = 0) : q = (s.point ((t.triangle i).get k)).real := by
  rw [realSide_next] at hnext
  rw [realSide_previous] at hprevious
  refine eq_real_of_realCross ?_ hnext hprevious
  exact (cross_rotate _ _ _).symm ▸ (cross_rotate _ _ _).symm ▸ h.turn i hi k

/-- A point between the ends of a side is in a wedge on either side. -/
theorem mem_wedge_across {n : Nat} {k l : Fin 3} (hi : i < t.size) (hn : n < t.size)
    (hl : (t.triangle n).side l = ((t.triangle i).side k).swap) (hw : q ∈ (t.triangle i).wedge s k)
    (h0 : (t.triangle i).realSide s k q = 0) : q ∈ (t.triangle n).wedge s l := by
  have hturn := h.turn n hn l
  rw [Triangle.sideCross, hl] at hturn
  obtain ⟨h1, h2⟩ := realCross_pos_across (h.turn i hi k) hturn h0 (realSide_next _ k q ▸ hw.1) (realSide_previous _ k q ▸ hw.2)
  constructor
  · change 0 < (t.triangle n).realSide s (next l) q
    rw [realSide_next, hl]
    exact h1
  · change 0 < (t.triangle n).realSide s (previous l) q
    rw [realSide_previous, hl]
    exact h2

/-- A point of a triangle in the wedge of a corner is in no other triangle, but for the one across the side opposite, when
it is on that side. -/
theorem eq_or_neighbour (ht : t.Coherent) (hhull : ∀ i < t.size, ∀ k, t.neighbour? i k = none → (t.triangle i).side k ∈ t.hullSides)
    (hi : i < t.size) (hj : j < t.size) (hqi : q ∈ (t.triangle i).region s) (hqj : q ∈ (t.triangle j).region s) {k : Fin 3}
    (hw : q ∈ (t.triangle i).wedge s k) : i = j ∨ t.neighbour? i k = some j ∧ (t.triangle i).realSide s k q = 0 := by
  rcases ((h.mem_region hi).1 hqi k).lt_or_eq with hpos | h0
  · exact .inl (h.eq_of_near ((isOpen_wedge _ s k).inter (isOpen_left _ _)) Set.inter_subset_left hi hj hqj ⟨hw, hpos⟩
      fun r hr _ => le_of_lt hr.2)
  cases hn : t.neighbour? i k with
  | none =>
    -- Nothing is to the right of a hull side.
    have hside := hhull i hi k hn
    exact .inl (h.eq_of_near (isOpen_wedge _ s k) subset_rfl hi hj hqj hw fun r _ hr =>
      h.realCross_nonneg hside (h.region_subset hj ((h.mem_region hj).2 fun l => (hr l).le)))
  | some n =>
    obtain ⟨hn', -, l, hl⟩ := (ht.neighbour_iff i k n hi).1 hn
    have hswap : ∀ r, (t.triangle n).realSide s l r = -(t.triangle i).realSide s k r := fun r => by
      rw [Triangle.realSide, hl]
      simp only [Triangle.realSide, realCross, Prod.swap]
      ring
    have hopen := (isOpen_wedge (t.triangle i) s k).inter (isOpen_wedge (t.triangle n) s l)
    have hq : q ∈ (t.triangle i).wedge s k ∩ (t.triangle n).wedge s l := ⟨hw, h.mem_wedge_across hi hn' hl hw h0.symm⟩
    by_cases hright : ∃ r ∈ (t.triangle i).wedge s k ∩ (t.triangle n).wedge s l, r ∈ (t.triangle j).openRegion s ∧
        (t.triangle i).realSide s k r < 0
    · -- To the right of the side there is only the triangle across.
      obtain ⟨r, hr, hrj, hneg⟩ := hright
      have hrn := mem_openRegion hr.2 (by rw [hswap]; exact neg_pos.2 hneg)
      rw [h.eq_of_mem_openRegion hn' hj hrn hrj]
      exact .inr ⟨rfl, h0.symm⟩
    · push Not at hright
      exact .inl (h.eq_of_near hopen Set.inter_subset_left hi hj hqj hq hright)

/-- Two triangles of an exact build meet in what their common corners span. -/
theorem meet (ht : t.Coherent) (hhull : ∀ i < t.size, ∀ k, t.neighbour? i k = none → (t.triangle i).side k ∈ t.hullSides)
    (hcorner : ∀ j < t.size, ∀ v < s.size, (s.point v).real ∈ (t.triangle j).region s → v ∈ t.triangle j)
    (hi : i < t.size) (hj : j < t.size) (hij : i ≠ j) :
    (t.triangle i).region s ∩ (t.triangle j).region s ⊆ convexHull ℝ ((t.triangle i).commonPlaces (t.triangle j) s) := by
  rintro q ⟨hqi, hqj⟩
  have hk := (h.mem_region hi).1 hqi
  by_cases hedge : ∃ k, q ∈ (t.triangle i).wedge s k
  · -- On a side, and between its ends: the other triangle is the one across, and has both ends.
    obtain ⟨k, hw⟩ := hedge
    obtain ⟨hn, h0⟩ := (h.eq_or_neighbour ht hhull hi hj hqi hqj hw).resolve_left hij
    obtain ⟨-, -, l, hl⟩ := (ht.neighbour_iff i k j hi).1 hn
    obtain ⟨h1, h2⟩ := Prod.ext_iff.1 hl
    refine segment_subset_convexHull ?_ ?_ (h.mem_segment hi hqi h0)
    · exact ⟨_, (Triple.mem_iff _ _).2 ⟨next k, rfl⟩, (Triple.mem_iff _ _).2 ⟨previous l, h2⟩, rfl⟩
    · exact ⟨_, (Triple.mem_iff _ _).2 ⟨previous k, rfl⟩, (Triple.mem_iff _ _).2 ⟨next l, h1⟩, rfl⟩
  · -- On two sides: a corner.
    have hzero : ∀ k, (t.triangle i).realSide s (next k) q = 0 ∨ (t.triangle i).realSide s (previous k) q = 0 := fun k => by
      by_contra hne
      rw [not_or] at hne
      exact hedge ⟨k, lt_of_le_of_ne (hk _) (Ne.symm hne.1), lt_of_le_of_ne (hk _) (Ne.symm hne.2)⟩
    obtain ⟨k, hnext, hprevious⟩ : ∃ k, (t.triangle i).realSide s (next k) q = 0 ∧ (t.triangle i).realSide s (previous k) q = 0 := by
      rcases hzero 0 with h1 | h2
      · rcases hzero 1 with h2 | h0
        · exact ⟨0, h1, h2⟩
        · exact ⟨2, h0, h1⟩
      · rcases hzero 2 with h0 | h1
        · exact ⟨1, h2, h0⟩
        · exact ⟨0, h1, h2⟩
    have hq := h.eq_corner hi hnext hprevious
    refine subset_convexHull ℝ _ ⟨(t.triangle i).get k, (Triple.mem_iff _ _).2 ⟨k, rfl⟩, ?_, hq.symm⟩
    exact hcorner j hj _ (h.corner i hi k) (hq ▸ hqj)

end Sheet

/-! ## Pavings -/

/-- The closed polygon within the hull: what lies to the right of none of its sides. -/
def hullRegion (t : Triangulation) (s : Samples Rat) : Set (ℝ × ℝ) :=
  {q | ∀ e ∈ t.hullSides, 0 ≤ realCross (s.point e.1) (s.point e.2) q}

/-- Counter-clockwise triangles that lie side by side and cover the polygon within the hull, with the tables that go with
them. -/
structure Paving (t : Triangulation) (s : Samples Rat) : Prop where
  nonempty : 0 < t.size
  corner : ∀ i < t.size, ∀ v ∈ t.triangle i, v < s.size
  turn : ∀ i < t.size, 0 < cross (s.point (t.triangle i).fst) (s.point (t.triangle i).snd) (s.point (t.triangle i).trd)
  /-- Two triangles share no more than a corner or a whole edge: they meet in what their common corners span. -/
  meet : ∀ i < t.size, ∀ j < t.size, i ≠ j →
    (t.triangle i).region s ∩ (t.triangle j).region s ⊆ convexHull ℝ ((t.triangle i).commonPlaces (t.triangle j) s)
  cover : ⋃ i < t.size, (t.triangle i).region s = t.hullRegion s
  /-- A neighbour is a triangle with the same edge in the other direction. -/
  neighbour : ∀ i < t.size, ∀ k j, t.neighbour? i k = some j → j < t.size ∧ ∃ l, (t.triangle j).side l = ((t.triangle i).side k).swap
  neighbour_none : ∀ i < t.size, ∀ k, t.neighbour? i k = none ↔ (t.triangle i).side k ∈ t.hullSides
  hullEdges : t.hullEdges = t.hullSides.map fun e => Edge.between e.1 e.2

/-- A sample in a closed triangle whose circle holds no sample is one of its corners. -/
theorem Sheet.mem_of_region (h : t.Sheet s) (hempty : t.EmptyCircles s) (hj : j < t.size) {v : Nat} (hv : v < s.size)
    (hin : (s.point v).real ∈ (t.triangle j).region s) : v ∈ t.triangle j := by
  by_contra hno
  have hne : ∀ k, s.point v ≠ s.point ((t.triangle j).get k) := fun k =>
    h.distinct v hv _ (h.corner j hj k) fun e => hno ((Triple.mem_iff _ _).2 ⟨k, e.symm⟩)
  have hk : ∀ k, 0 ≤ (t.triangle j).sideCross s k (s.point v) := fun k => by
    have := (h.mem_region hj).1 hin k
    rwa [realCross_real, Rat.cast_nonneg] at this
  exact (hempty.inCircle_le hj hv).not_gt (InTriangle.inCircle_pos ⟨hk 2, hk 0, hk 1⟩ (h.turn j hj 2) (hne 0) (hne 1) (hne 2))

theorem corner_of_region {budget v : Nat} (h : build ⟨budget, ⟨0⟩⟩ s = .ok t) (hj : j < t.size) (hv : v < s.size)
    (hin : (s.point v).real ∈ (t.triangle j).region s) : v ∈ t.triangle j := by
  have hsheet := sheet_of_build h
  obtain ⟨m, hm, rfl⟩ := build_eq_ok.1 h
  exact hsheet.mem_of_region (emptyCircles_of_mesh hm) hj hv hin

/-- Read over exact numbers and with no tolerance, every build that succeeds paves the polygon within its hull. -/
theorem paving_of_build {s : Samples Rat} {budget : Nat} (h : build ⟨budget, ⟨0⟩⟩ s = .ok t) : t.Paving s := by
  have hsheet := sheet_of_build h
  have hcoherent : t.Coherent := by
    obtain ⟨m, hm, rfl⟩ := build_eq_ok.1 h
    exact coherent_of_mesh hm
  exact
    { nonempty := hsheet.nonempty
      corner := fun i hi v hv => by
        obtain ⟨k, rfl⟩ := (Triple.mem_iff _ _).1 hv
        exact hsheet.corner i hi k
      turn := fun i hi => hsheet.turn i hi 2
      meet := fun i hi j hj hij => hsheet.meet hcoherent (fun i hi k => (hullSide_of_build h hi).1)
        (fun j hj v hv => corner_of_region h hj hv) hi hj hij
      cover := hsheet.cover_eq.trans (Set.ext fun q => hsheet.mem_hull_iff)
      neighbour := fun i hi k j hn => ⟨hcoherent.neighbour_lt hi hn, ((hcoherent.neighbour_iff i k j hi).1 hn).2.2⟩
      neighbour_none := fun i hi k => hullSide_of_build h hi
      hullEdges := hullEdges_of_build h }

end Triangulation

end DelaunaySurface
