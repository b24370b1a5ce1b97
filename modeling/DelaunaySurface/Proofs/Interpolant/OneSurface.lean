import DelaunaySurface.Proofs.Interpolant.FlatSurface
/-!
# One surface

Over a paving and with exact numbers a walk and a scan answer right, whatever a locator remembers (`right_locate?`), so
the answers are those of one flat surface (`surface_of_paving`). What is known about the geometry is `Paving` alone.
-/

namespace DelaunaySurface

namespace Locator

variable {t : Triangulation} {s : Samples Rat} {p : Point Rat} {i : Nat}

theorem beyondHull_iff : beyondHull t s p = true ↔ p.real ∉ t.hullRegion s := by
  simp only [beyondHull, List.any_eq_true, decide_eq_true_eq, Triangulation.hullRegion, Set.mem_ofPred_eq, not_forall, not_le,
    realCross_real, exists_prop]
  exact exists_congr fun e => and_congr_right fun _ => Rat.cast_lt_zero.symm

theorem mem_region_of_exit? (h : t.Paving s) (hi : i < t.size) (hexit : exit? t s p i = none) :
    p.real ∈ (t.triangle i).region s := by
  refine (h.mem_region hi).2 fun k => ?_
  rw [Triangle.realSide, realCross_real, Rat.cast_nonneg]
  exact not_lt.1 (not_cross_of_exit? hexit k)

theorem mem_region_iff_depth (h : t.Paving s) (hi : i < t.size) : p.real ∈ (t.triangle i).region s ↔ 0 ≤ depth t s p i := by
  rw [h.mem_region hi, depth_nonneg_iff]
  refine forall_congr' fun k => ?_
  rw [Triangle.realSide, realCross_real, Rat.cast_nonneg]
  rfl

theorem outside?_eq (h : t.Paving s) (hp : p.real ∉ t.hullRegion s) : ∃ e, outside? t s p = some (.outside e) := by
  obtain ⟨e, he, -⟩ := List.any_eq_true.1 (beyondHull_iff.2 hp)
  refine nearestEdge?_isSome ?_
  rw [h.hullEdges]
  exact List.ne_nil_of_mem (List.mem_map_of_mem he)

/-- A right answer for a point: outside the hull, or in a triangle with it. -/
def Right (t : Triangulation) (s : Samples Rat) (p : Point Rat) : Option Location → Prop
  | some (.outside _) => p.real ∉ t.hullRegion s
  | some (.inside i) => i < t.size ∧ p.real ∈ (t.triangle i).region s
  | none => False

theorem right_outside? (h : t.Paving s) (hp : p.real ∉ t.hullRegion s) : Right t s p (outside? t s p) := by
  obtain ⟨e, he⟩ := outside?_eq h hp
  rw [he]
  exact hp

theorem right_scan? (h : t.Paving s) : Right t s p (scan? t s p) := by
  rw [scan?]
  split
  · rename_i i hi
    obtain ⟨hmem, hdepth⟩ := scanFrom_holds hi
    have hlt := List.mem_range.1 hmem
    exact ⟨hlt, (mem_region_iff_depth h hlt).2 hdepth⟩
  · -- No triangle holds the point, so it is not within the hull.
    rename_i found hfound
    have hp : p.real ∉ t.hullRegion s := by
      rw [← h.cover]
      intro hp
      obtain ⟨i, hi, hp⟩ := Set.mem_iUnion₂.1 hp
      exact (scanFrom_best hfound).1 i (List.mem_range.2 hi) ((mem_region_iff_depth h hi).1 hp)
    rw [if_pos (beyondHull_iff.2 hp)]
    exact right_outside? h hp

theorem right_walk? (h : t.Paving s) (l : Locator) : Right t s p (l.walk? t s p).1 := by
  obtain ⟨i, hi, hexit, hwalk⟩ | ⟨i, hi, k, hexit, hnone, hwalk⟩ | hwalk :=
    walk?_cases (s := s) (p := p) (fun hi hn => (h.neighbour _ hi _ _ hn).1) h.nonempty l
  all_goals rw [hwalk]
  · exact ⟨hi, mem_region_of_exit? h hi hexit⟩
  · -- The edge that the walk leaves by is a side of the hull.
    refine right_outside? h fun hp => ?_
    have hside := hp _ ((h.neighbour_none i hi k).1 hnone)
    rw [realCross_real, Rat.cast_nonneg] at hside
    exact hside.not_gt (cross_of_exit? hexit)
  · exact right_scan? h

/-- A walk and a scan answer right, whatever is remembered. -/
theorem right_locate? (h : t.Paving s) (l : Locator) : Right t s p (l.locate? t s p).1 := by
  rw [locate?_fst, search?]
  cases l.strategy with
  | walk => exact right_walk? h l
  | scan => exact right_scan? h

end Locator

namespace Interpolant

variable {t : Triangulation} {s : Samples Rat} {p : Point Rat} {i : Nat} {f : ℝ × ℝ → ℝ}

/-- In a triangle with the point, the height is that of its plane, also where a corner is at the point. -/
theorem heightAt_inside (h : t.Paving s) (hi : i < t.size) (margin : Rat) :
    ((heightAt t s margin p (.inside i) : Rat) : ℝ) = (t.triangle i).plane s p.real := by
  rw [heightAt]
  split
  · rename_i v hv
    obtain ⟨k, rfl⟩ := (Triple.mem_iff _ _).1 (List.mem_of_find?_eq_some hv)
    have hsame := List.find?_some hv
    have hp : s.point ((t.triangle i).get k) = p := Point.same_rat.1 hsame
    rw [← hp, Triangle.plane_corner (h.turn i hi).ne']
  · exact Triangle.planarHeight_real (h.turn i hi).ne' p

/-- The right answer at a point for the height `f`: outside the hull the margin's; inside it the height there, with a triangle
that holds the point and has no corner below which, and none above which, all of them are. -/
def Answers (t : Triangulation) (s : Samples Rat) (f : ℝ × ℝ → ℝ) (margin : Rat) (p : Point Rat) : Option (Rat × Location) → Prop
  | some (z, .outside _) => p.real ∉ t.hullRegion s ∧ z = margin
  | some (z, .inside i) => p.real ∈ t.hullRegion s ∧ (z : ℝ) = f p.real ∧ i < t.size ∧ p.real ∈ (t.triangle i).region s ∧
      (∃ v ∈ t.triangle i, s.height v ≤ z) ∧ ∃ v ∈ t.triangle i, z ≤ s.height v
  | none => False

/-- Over a paving all answers are right for its flat surface. -/
theorem answers_of_flatSurface (h : t.Paving s) (hf : t.FlatSurface s f) (margin : Rat) (l : Locator) (p : Point Rat) :
    Answers t s f margin p (value? t s margin l p).1 := by
  have hright := Locator.right_locate? (p := p) h l
  have hvalue : (value? t s margin l p).1 = (l.locate? t s p).1.map fun place => (heightAt t s margin p place, place) := rfl
  rw [hvalue]
  cases hplace : (l.locate? t s p).1 with
  | none =>
    rw [hplace] at hright
    exact hright
  | some place =>
    rw [hplace] at hright
    cases place with
    | outside e => exact ⟨hright, rfl⟩
    | inside i =>
      obtain ⟨hi, hp⟩ := hright
      have hz := heightAt_inside (p := p) h hi margin
      obtain ⟨⟨k, hk⟩, l, hl⟩ := Triangle.plane_bounds (h.turn i hi) ((h.mem_region hi).1 hp)
      rw [← hz, Rat.cast_le] at hk hl
      exact ⟨h.region_subset hi hp, by rw [hf.eq_plane h hi hp, hz], hi, hp, ⟨_, (Triple.mem_iff _ _).2 ⟨k, rfl⟩, hk⟩,
        _, (Triple.mem_iff _ _).2 ⟨l, rfl⟩, hl⟩

/-- Over every paving there is one height that is continuous, flat over each triangle and right at the samples, and all answers
are those for it: with either strategy, whatever the locator remembers and wherever the point is. -/
theorem surface_of_paving (h : t.Paving s) :
    (∃ f, t.FlatSurface s f) ∧ (∀ f g, t.FlatSurface s f → t.FlatSurface s g → Set.EqOn f g (t.hullRegion s)) ∧
    ∀ f, t.FlatSurface s f → ∀ margin l p, Answers t s f margin p (value? t s margin l p).1 :=
  ⟨⟨_, h.flatSurface_patched⟩, fun _ _ hf hg => hf.eqOn h hg, fun _ hf => answers_of_flatSurface h hf⟩

/-- The kite with a peak in the middle. -/
def peakedKite : Samples Rat := .ofList [⟨0, 0, 1⟩, ⟨4, 0, 2⟩, ⟨0, 4, 3⟩, ⟨5, 5, 1⟩, ⟨2, 3, 9⟩]

theorem surface_of_paving_peakedKite : ∃ t, Triangulation.build ⟨100, ⟨0⟩⟩ peakedKite = .ok t ∧ t.Paving peakedKite ∧
    (∃ f, t.FlatSurface peakedKite f) ∧
    (∀ f g, t.FlatSurface peakedKite f → t.FlatSurface peakedKite g → Set.EqOn f g (t.hullRegion peakedKite)) ∧
    ∀ f, t.FlatSurface peakedKite f → ∀ margin l p, Answers t peakedKite f margin p (value? t peakedKite margin l p).1 := by
  obtain ⟨t, ht⟩ : ∃ t, Triangulation.build ⟨100, ⟨0⟩⟩ peakedKite = .ok t := Triangulation.exists_of_isOk (by cbv)
  have hpaving := Triangulation.paving_of_build ht
  exact ⟨t, ht, hpaving, surface_of_paving hpaving⟩

end Interpolant

end DelaunaySurface
