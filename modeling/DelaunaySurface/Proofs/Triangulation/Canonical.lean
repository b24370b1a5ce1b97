import DelaunaySurface.Proofs.Mesh.Budget
import DelaunaySurface.Proofs.Plane.Disk
import DelaunaySurface.Proofs.Triangulation.Tiling
/-!
# Canonical triangulations

Samples in general position have one Delaunay triangulation: the triples whose disk holds no sample
(`cornerSets_eq`). A build finds it in any order of the samples, given budget enough (`canonical_of_build`).
-/

namespace DelaunaySurface

namespace Triangulation

/-! ## Enough budget -/

section Budget

variable {α : Type} [Scalar α] {s : Samples α} {budget : Nat}

/-- The square of the number of samples is budget enough, whatever the tolerance. -/
theorem build_within {settings : BuildSettings α} (hb : s.size ^ 2 ≤ settings.budget) :
    build settings s ≠ .error (.budgetExceeded budget) := by
  rw [Ne, build_eq_error, ← Ne, mesh]
  cases hvalid : Schedule.validate s with
  | error e =>
    intro h
    cases h
    exact Schedule.validate_ne_budgetExceeded hvalid
  | ok =>
    change Schedule.seed settings.tolerance s (Schedule.order s) >>= _ ≠ _
    cases hseed : Schedule.seed settings.tolerance s (Schedule.order s) with
    | error e =>
      rw [Schedule.seed_error hseed]
      rintro ⟨⟩
    | ok found =>
      obtain ⟨first, others⟩ := found
      have hlength : others.length + 3 = s.size := by
        have := (Schedule.schedule_perm hseed).length_eq
        rw [List.length_append, List.length_range] at this
        exact (Nat.add_comm _ _).trans this
      change (Mesh.seed first).insertAll settings.budget (verdicts settings.tolerance s) others ≠ _
      have hroom : (Mesh.seed first).tally.operations + others.length * ((Mesh.seed first).population + others.length) ≤
          settings.budget := by
        rw [Mesh.population_seed]
        change 0 + _ ≤ _
        rw [← hlength] at hb
        nlinarith
      rcases (Schedule.closedSurface_seed hseed).insertAll_within (v := verdicts settings.tolerance s)
        (Schedule.schedule_nodup hseed) hroom with ⟨i, herror⟩ | ⟨m, hok⟩
      · rw [herror]
        rintro ⟨⟩
      · rw [hok]
        rintro ⟨⟩

end Budget

end Triangulation

/-! ## General position -/

/-- Samples at different places, not all on one line, and no four of them on one circle. -/
structure Samples.GeneralPosition (s : Samples Rat) : Prop where
  distinct : ∀ i < s.size, ∀ j < s.size, i ≠ j → s.point i ≠ s.point j
  notInLine : ∃ i < s.size, ∃ j < s.size, ∃ k < s.size, cross (s.point i) (s.point j) (s.point k) ≠ 0
  noCircle : ∀ i < s.size, ∀ j < s.size, ∀ k < s.size, ∀ l < s.size, [i, j, k, l].Nodup →
    ¬Cocircular (s.point i) (s.point j) (s.point k) (s.point l)

/-- The triples of samples that are not in line and whose disk holds no sample. -/
def Samples.emptyTriples (s : Samples Rat) : Set (Finset Nat) :=
  {f | ∃ a < s.size, ∃ b < s.size, ∃ c < s.size, cross (s.point a) (s.point b) (s.point c) ≠ 0 ∧
    (∀ i < s.size, ¬InDisk (s.point a) (s.point b) (s.point c) (s.point i)) ∧ f = {a, b, c}}

/-- The corners of a triangle, in no order. -/
def Triangle.cornerSet (c : Triangle) : Finset Nat := {c.fst, c.snd, c.trd}

namespace Triangulation

/-- The triangles by their corners. -/
def cornerSets (t : Triangulation) : Set (Finset Nat) := {f | ∃ i < t.size, (t.triangle i).cornerSet = f}

variable {s s' : Samples Rat} {t t' : Triangulation} {budget : Nat}

/-- In general position, only the corners of a triangle are on its circle. -/
theorem mem_cornerSet (hg : s.GeneralPosition) (hsheet : t.Sheet s) (h : t.EmptyCircles s) {i x : Nat} (hi : i < t.size) (hx : x < s.size)
    (h0 : inCircle (s.point (t.triangle i).fst) (s.point (t.triangle i).snd) (s.point (t.triangle i).trd) (s.point x) = 0) :
    x ∈ (t.triangle i).cornerSet := by
  by_contra hno
  have hturn := h.turn hi
  rw [Triangle.cornerSet, Finset.mem_insert, Finset.mem_insert, Finset.mem_singleton, not_or, not_or] at hno
  refine hg.noCircle _ (hsheet.corner i hi 0) _ (hsheet.corner i hi 1) _ (hsheet.corner i hi 2) x hx ?_
    (cocircular_of_inCircle hturn.ne' h0)
  obtain ⟨hab, hbc, hac⟩ := Schedule.ne_of_line hturn.ne'
  simp only [Triple.get, List.nodup_cons, List.mem_cons, List.not_mem_nil, or_false, not_or, not_false_eq_true, and_true,
    List.nodup_nil]
  exact ⟨⟨hab, hac, Ne.symm hno.1⟩, ⟨hbc, Ne.symm hno.2.1⟩, Ne.symm hno.2.2⟩

/-- A triple whose disk is empty is the corner set of the triangle that holds its middle. -/
theorem exists_triangle_of_empty (hg : s.GeneralPosition) (hsheet : t.Sheet s) (hempty : t.EmptyCircles s) {a b c : Nat}
    (ha : a < s.size) (hb : b < s.size) (hc : c < s.size) (hturn : 0 < cross (s.point a) (s.point b) (s.point c))
    (hdisk : ∀ i < s.size, inCircle (s.point a) (s.point b) (s.point c) (s.point i) ≤ 0) :
    ∃ i < t.size, (t.triangle i).cornerSet = {a, b, c} := by
  obtain ⟨q, hq⟩ : ∃ q, q = centroid (s.point a) (s.point b) (s.point c) := ⟨_, rfl⟩
  have hturn' : 0 < cross (s.point b) (s.point c) (s.point a) := (cross_rotate _ _ _).symm ▸ hturn
  have hab : 0 < cross (s.point a) (s.point b) q := hq ▸ cross_centroid_pos hturn
  have hbc : 0 < cross (s.point b) (s.point c) q := by
    rw [hq, ← centroid_rotate]
    exact cross_centroid_pos hturn'
  have hca : 0 < cross (s.point c) (s.point a) q := by
    rw [hq, ← centroid_rotate, ← centroid_rotate]
    exact cross_centroid_pos ((cross_rotate _ _ _).symm ▸ hturn')
  -- The middle is no sample, as it lies in the disk.
  have hnew : ∀ i < s.size, s.point i ≠ q := by
    rintro i hi rfl
    refine (hdisk i hi).not_gt (InTriangle.inCircle_pos ⟨hab.le, hbc.le, hca.le⟩ hturn ?_ ?_ ?_) <;> intro e <;>
      rw [e] at hab hbc hca
    · exact hab.ne' (cross_self_left _ _)
    · exact hab.ne' (cross_self_right _ _)
    · exact hbc.ne' (cross_self_right _ _)
  obtain ⟨i, hi, hin⟩ := hsheet.inside q hnew fun e he => hq ▸ hsheet.centroid_inside ha hb hc hturn.ne' he
  obtain ⟨ha0, hb0, hc0⟩ := inCircle_eq_zero_of_overlap hab hbc hca ⟨hin 2, hin 0, hin 1⟩ (hempty.inCircle_le hi ha)
    (hempty.inCircle_le hi hb) (hempty.inCircle_le hi hc) (hdisk _ (hsheet.corner i hi 0)) (hdisk _ (hsheet.corner i hi 1))
    (hdisk _ (hsheet.corner i hi 2))
  obtain ⟨hab, hbc, hac⟩ := Schedule.ne_of_line hturn.ne'
  refine ⟨i, hi, (Finset.eq_of_subset_of_card_le ?_ ?_).symm⟩
  · intro x hx
    simp only [Finset.mem_insert, Finset.mem_singleton] at hx
    rcases hx with rfl | rfl | rfl
    · exact mem_cornerSet hg hsheet hempty hi ha ha0
    · exact mem_cornerSet hg hsheet hempty hi hb hb0
    · exact mem_cornerSet hg hsheet hempty hi hc hc0
  · rw [Finset.card_eq_three.2 ⟨a, b, c, hab, hac, hbc, rfl⟩]
    exact Finset.card_le_three

theorem not_inDisk_iff {a b c p : Point Rat} (h : 0 < cross a b c) : ¬InDisk a b c p ↔ inCircle a b c p ≤ 0 := by
  rw [inDisk_iff h.ne', mul_pos_iff_of_pos_left h, not_lt]

/-- In general position, the triangles of a Delaunay triangulation are the triples whose disk is empty. -/
theorem cornerSets_eq (hg : s.GeneralPosition) (hsheet : t.Sheet s) (hempty : t.EmptyCircles s) : t.cornerSets = s.emptyTriples := by
  ext f
  constructor
  · rintro ⟨i, hi, rfl⟩
    exact ⟨_, hsheet.corner i hi 0, _, hsheet.corner i hi 1, _, hsheet.corner i hi 2, (hempty.turn hi).ne',
      fun j hj => (not_inDisk_iff (hempty.turn hi)).2 (hempty.inCircle_le hi hj), rfl⟩
  · rintro ⟨a, ha, b, hb, c, hc, hline, hdisk, rfl⟩
    rcases lt_or_gt_of_ne hline with hturn | hturn
    · -- A clockwise triple is a counter-clockwise one with two corners exchanged.
      have hswap : 0 < cross (s.point b) (s.point a) (s.point c) := by
        rw [cross_swap]
        exact neg_pos.2 hturn
      obtain ⟨i, hi, e⟩ := exists_triangle_of_empty hg hsheet hempty hb ha hc hswap fun j hj => by
        rw [inCircle_swap, neg_nonpos]
        by_contra hneg
        exact hdisk j hj ((inDisk_iff hline).2 (mul_pos_of_neg_of_neg hturn (not_le.1 hneg)))
      exact ⟨i, hi, e.trans (Finset.insert_comm b a {c})⟩
    · exact exists_triangle_of_empty hg hsheet hempty ha hb hc hturn fun j hj => (not_inDisk_iff hturn).1 (hdisk j hj)

/-- The hull's samples are those on the boundary of the convex hull. -/
theorem Sheet.mem_hull_iff_frontier (h : t.Sheet s) {v : Nat} :
    v ∈ t.hull ↔ v < s.size ∧ (s.point v).real ∈ frontier (convexHull ℝ s.places) := by
  refine ⟨fun hv => ?_, fun ⟨hv, hfrontier⟩ => h.mem_hull_of_frontier hv hfrontier⟩
  rw [← map_fst_cyclicPairs t.hull, List.mem_map] at hv
  obtain ⟨e, he, rfl⟩ := hv
  refine ⟨(h.hull_lt e he).1, ?_⟩
  rw [h.frontier_eq]
  exact Set.mem_biUnion he (left_mem_segment ℝ _ _)

end Triangulation

/-! ## Samples in another order -/

/-- The samples `s'` are `s` in another order: sample `i` has become sample `σ i`. -/
structure Samples.Permuted (s s' : Samples Rat) (σ : Equiv.Perm Nat) : Prop where
  size : s'.size = s.size
  lt_iff : ∀ i, σ i < s.size ↔ i < s.size
  point : ∀ i < s.size, s'.point (σ i) = s.point i

namespace Samples

variable {s s' : Samples Rat} {σ : Equiv.Perm Nat}

namespace Permuted

theorem symm (h : s.Permuted s' σ) : s'.Permuted s σ.symm where
  size := h.size.symm
  lt_iff i := by rw [h.size, ← h.lt_iff, Equiv.apply_symm_apply]
  point i hi := by
    have hlt : σ.symm i < s.size := by rwa [← h.lt_iff, Equiv.apply_symm_apply, ← h.size]
    rw [← h.point _ hlt, Equiv.apply_symm_apply]

theorem lt (h : s.Permuted s' σ) {i : Nat} (hi : i < s.size) : σ i < s'.size := by
  rw [h.size, h.lt_iff]
  exact hi

/-- Every sample in the new order is one of the old order. -/
theorem exists_eq (h : s.Permuted s' σ) {j : Nat} (hj : j < s'.size) : ∃ i < s.size, σ i = j ∧ s'.point j = s.point i := by
  refine ⟨σ.symm j, h.symm.lt hj, σ.apply_symm_apply j, ?_⟩
  rw [h.symm.point j hj]

theorem places_eq (h : s.Permuted s' σ) : s'.places = s.places := by
  ext q
  constructor
  · rintro ⟨j, hj, rfl⟩
    obtain ⟨i, hi, -, e⟩ := h.exists_eq hj
    exact ⟨i, hi, by rw [e]⟩
  · rintro ⟨i, hi, rfl⟩
    exact ⟨σ i, h.lt hi, by rw [h.point i hi]⟩

theorem generalPosition (h : s.Permuted s' σ) (hg : s.GeneralPosition) : s'.GeneralPosition where
  distinct i hi j hj hij := by
    obtain ⟨x, hx, rfl, ei⟩ := h.exists_eq hi
    obtain ⟨y, hy, rfl, ej⟩ := h.exists_eq hj
    rw [ei, ej]
    exact hg.distinct x hx y hy fun e => hij (congrArg σ e)
  notInLine := by
    obtain ⟨i, hi, j, hj, k, hk, hline⟩ := hg.notInLine
    refine ⟨σ i, h.lt hi, σ j, h.lt hj, σ k, h.lt hk, ?_⟩
    rwa [h.point i hi, h.point j hj, h.point k hk]
  noCircle i hi j hj k hk l hl hn := by
    obtain ⟨x, hx, rfl, ei⟩ := h.exists_eq hi
    obtain ⟨y, hy, rfl, ej⟩ := h.exists_eq hj
    obtain ⟨z, hz, rfl, ek⟩ := h.exists_eq hk
    obtain ⟨w, hw, rfl, el⟩ := h.exists_eq hl
    rw [ei, ej, ek, el]
    exact hg.noCircle x hx y hy z hz w hw (List.Nodup.of_map σ hn)

theorem image_mem_emptyTriples (h : s.Permuted s' σ) {f : Finset Nat} (hf : f ∈ s.emptyTriples) : f.image σ ∈ s'.emptyTriples := by
  obtain ⟨a, ha, b, hb, c, hc, hline, hdisk, rfl⟩ := hf
  refine ⟨σ a, h.lt ha, σ b, h.lt hb, σ c, h.lt hc, ?_, fun j hj => ?_, ?_⟩
  · rwa [h.point a ha, h.point b hb, h.point c hc]
  · obtain ⟨i, hi, -, e⟩ := h.exists_eq hj
    rw [h.point a ha, h.point b hb, h.point c hc, e]
    exact hdisk i hi
  · rw [Finset.image_insert, Finset.image_insert, Finset.image_singleton]

theorem emptyTriples_eq (h : s.Permuted s' σ) : s'.emptyTriples = Finset.image σ '' s.emptyTriples := by
  ext f
  constructor
  · refine fun hf => ⟨f.image σ.symm, h.symm.image_mem_emptyTriples hf, ?_⟩
    rw [Finset.image_image, Equiv.self_comp_symm, Finset.image_id]
  · rintro ⟨f, hf, rfl⟩
    exact h.image_mem_emptyTriples hf

end Permuted

end Samples

namespace Triangulation

theorem build_of_generalPosition {s : Samples Rat} (h : s.GeneralPosition) {budget : Nat} (hb : s.size ^ 2 ≤ budget) :
    ∃ t, build ⟨budget, ⟨0⟩⟩ s = .ok t := by
  rcases @mesh_cases s budget h.distinct h.notInLine with herror | ⟨m, -, hm, -⟩
  · exact absurd (build_eq_error.2 herror) (build_within hb)
  · exact ⟨_, build_eq_ok.2 ⟨m, hm, rfl⟩⟩

/-- What an exact build of samples in general position ends with. -/
theorem cornerSets_of_build {s : Samples Rat} (h : s.GeneralPosition) {budget : Nat} {t : Triangulation}
    (ht : build ⟨budget, ⟨0⟩⟩ s = .ok t) : t.cornerSets = s.emptyTriples := by
  have hsheet := sheet_of_build ht
  obtain ⟨m, hm, rfl⟩ := build_eq_ok.1 ht
  exact cornerSets_eq h hsheet (emptyCircles_of_mesh hm)

/-- Read over exact numbers, with no tolerance and with budget enough, samples in general position have one
triangulation: the triples whose disk holds no sample. Samples in another order have the same triangles and
the same samples on the hull, by their new names. -/
theorem canonical_of_build {s : Samples Rat} (h : s.GeneralPosition) :
    (∀ budget, s.size ^ 2 ≤ budget → ∃ t, build ⟨budget, ⟨0⟩⟩ s = .ok t) ∧
    ∀ budget t, build ⟨budget, ⟨0⟩⟩ s = .ok t → t.cornerSets = s.emptyTriples ∧
      ∀ s' σ, s.Permuted s' σ → (∀ budget', s.size ^ 2 ≤ budget' → ∃ t', build ⟨budget', ⟨0⟩⟩ s' = .ok t') ∧
        ∀ budget' t', build ⟨budget', ⟨0⟩⟩ s' = .ok t' →
          t'.cornerSets = Finset.image σ '' t.cornerSets ∧ ∀ v, σ v ∈ t'.hull ↔ v ∈ t.hull := by
  refine ⟨fun budget => build_of_generalPosition h, fun budget t ht => ?_⟩
  have hsets := cornerSets_of_build h ht
  refine ⟨hsets, fun s' σ hs' => ⟨fun budget' hb' => ?_, fun budget' t' ht' => ⟨?_, fun v => ?_⟩⟩⟩
  · exact build_of_generalPosition (hs'.generalPosition h) (hs'.size ▸ hb')
  · rw [cornerSets_of_build (hs'.generalPosition h) ht', hs'.emptyTriples_eq, hsets]
  · rw [(sheet_of_build ht').mem_hull_iff_frontier, (sheet_of_build ht).mem_hull_iff_frontier, hs'.places_eq, hs'.size, hs'.lt_iff]
    exact and_congr_right fun hv => by rw [hs'.point v hv]

/-- The kite with its first two samples exchanged. -/
def exchangedKite : Samples Rat := .ofList [⟨4, 0, 0⟩, ⟨0, 0, 0⟩, ⟨0, 4, 0⟩, ⟨5, 5, 0⟩, ⟨2, 3, 0⟩]

theorem permuted_kite : kite.Permuted exchangedKite (Equiv.swap 0 1) where
  size := rfl
  lt_iff i := by
    change Equiv.swap 0 1 i < 5 ↔ i < 5
    rw [Equiv.swap_apply_def]
    split
    · subst i
      decide
    · split
      · subst i
        decide
      · rfl
  point := by decide +kernel

set_option synthInstance.maxSize 256 in
theorem generalPosition_kite : kite.GeneralPosition where
  distinct := by decide +kernel
  notInLine := ⟨0, by decide, 1, by decide, 2, by decide, by decide +kernel⟩
  noCircle := by
    have hne : ∀ i < kite.size, ∀ j < kite.size, ∀ k < kite.size, ∀ l < kite.size, [i, j, k, l].Nodup →
        ¬inCircle (kite.point i) (kite.point j) (kite.point k) (kite.point l) = 0 := by
      decide +kernel
    exact fun i hi j hj k hk l hl hn hcircle => hne i hi j hj k hk l hl hn hcircle.inCircle_eq_zero

theorem canonical_of_build_kite : ∃ t t', build ⟨100, ⟨0⟩⟩ kite = .ok t ∧ build ⟨100, ⟨0⟩⟩ exchangedKite = .ok t' ∧
    t.cornerSets = kite.emptyTriples ∧ t'.cornerSets = Finset.image (Equiv.swap 0 1) '' t.cornerSets ∧
    ∀ v, Equiv.swap 0 1 v ∈ t'.hull ↔ v ∈ t.hull := by
  obtain ⟨henough, hall⟩ := canonical_of_build generalPosition_kite
  obtain ⟨t, ht⟩ := henough 100 (by decide)
  obtain ⟨hsets, hpermuted⟩ := hall 100 t ht
  obtain ⟨henough', hall'⟩ := hpermuted exchangedKite (Equiv.swap 0 1) permuted_kite
  obtain ⟨t', ht'⟩ := henough' 100 (by decide)
  exact ⟨t, t', ht, ht', hsets, hall' 100 t' ht'⟩

end Triangulation

end DelaunaySurface
