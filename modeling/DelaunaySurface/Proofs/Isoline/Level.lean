import DelaunaySurface.Proofs.Interpolant.FlatSurface
import DelaunaySurface.Proofs.Isoline.Contours
/-!
# Lines on the surface

With exact heights a line at a level lies on the surface: each piece of it goes through one closed triangle, and the plane of
that triangle has the height of the level all along it (`onSurface_of_build`). An edge is crossed where linear interpolation
between its ends reaches the level, and the plane of a triangle is linear along each of its edges, so the two formulas agree at
the crossings; between them both the triangle and its level set are convex.
-/

namespace DelaunaySurface

namespace Isoline

open Triangulation (cyclicPairs)

/-! ## Pieces -/

/-- The points that follow one another on a line, the first one after the last when it closes. -/
def pieces {α : Type} (l : Isoline α) : List (Point α × Point α) :=
  if l.closed then cyclicPairs l.points else l.points.zip l.points.tail

theorem cyclicPairs_map {β γ : Type} (f : β → γ) (l : List β) : cyclicPairs (l.map f) = (cyclicPairs l).map (Prod.map f f) := by
  cases l with
  | nil => rfl
  | cons a l =>
    have hrest : l.map f ++ [f a] = (l ++ [a]).map f := by rw [List.map_append, List.map_singleton]
    rw [List.map_cons, cyclicPairs, cyclicPairs, hrest, ← List.map_cons, List.zip_map]

/-- The pieces of a line are between the crossings of the steps of its path. -/
theorem pieces_eq {α : Type} (f : Edge → Point α) (p : List Edge × Bool) :
    pieces ⟨p.1.map f, p.2⟩ = (steps p).map (Prod.map f f) := by
  obtain ⟨path, _ | _⟩ := p
  · change (path.map f).zip (path.map f).tail = (path.zip path.tail).map (Prod.map f f)
    rw [← List.map_tail, List.zip_map]
  · exact cyclicPairs_map f path

variable {t : Triangulation} {s : Samples Rat} {level : Rat} {c : Triangle} {e : Edge}

/-! ## Crossings -/

/-- A crossed edge is crossed a share of the way between its ends, where linear interpolation of their heights has the level. -/
theorem crossing_share (he : cuts s level e = true) : ∃ x y : ℝ, 0 ≤ x ∧ 0 ≤ y ∧ x + y = 1 ∧
    (crossing s level e).real = x • (s.point e.low).real + y • (s.point e.high).real ∧
    x * (s.height e.low : Rat) + y * (s.height e.high : Rat) = level := by
  let share : Rat := (level - s.height e.low) / (s.height e.high - s.height e.low)
  obtain ⟨hne, h0, h1⟩ : s.height e.high - s.height e.low ≠ 0 ∧ 0 ≤ share ∧ share ≤ 1 := by
    rw [cuts, bne_iff_ne, ne_eq, Bool.eq_iff_iff, reaches, reaches, decide_eq_true_eq, decide_eq_true_eq] at he
    by_cases hlow : level ≤ s.height e.low
    · -- The edge goes down.
      have hhigh : s.height e.high < level := not_le.1 fun h => he (iff_of_true hlow h)
      have hneg : s.height e.high - s.height e.low < 0 := by linarith
      exact ⟨hneg.ne, div_nonneg_of_nonpos (by linarith) hneg.le, (div_le_one_of_neg hneg).2 (by linarith)⟩
    · -- The edge goes up.
      have hhigh : level ≤ s.height e.high := not_lt.1 fun h => he (iff_of_false hlow (not_le.2 h))
      have hpos : 0 < s.height e.high - s.height e.low := by linarith [not_le.1 hlow]
      exact ⟨hpos.ne', div_nonneg (by linarith [not_le.1 hlow]) hpos.le, (div_le_one hpos).2 (by linarith)⟩
  have hpoint : crossing s level e = ⟨(s.point e.low).x + share * ((s.point e.high).x - (s.point e.low).x),
      (s.point e.low).y + share * ((s.point e.high).y - (s.point e.low).y)⟩ := rfl
  have hlevel : (1 - share) * s.height e.low + share * s.height e.high = level := by
    linear_combination div_mul_cancel₀ (level - s.height e.low) hne
  refine ⟨1 - (share : ℝ), share, sub_nonneg.2 (by exact_mod_cast h1), by exact_mod_cast h0, by ring, ?_, by exact_mod_cast hlevel⟩
  rw [hpoint]
  ext <;> simp only [Point.real, Prod.fst_add, Prod.snd_add, Prod.smul_fst, Prod.smul_snd, smul_eq_mul] <;> push_cast <;> ring

/-- The points of a closed triangle where its plane has the height of a level. -/
def levelSet (c : Triangle) (s : Samples Rat) (level : Rat) : Set (ℝ × ℝ) := {q | q ∈ c.region s ∧ c.plane s q = level}

theorem convex_levelSet (c : Triangle) (s : Samples Rat) (level : Rat) : Convex ℝ (levelSet c s level) := by
  intro q hq r hr x y hx hy hxy
  refine ⟨convex_convexHull ℝ _ hq.1 hr.1 hx hy hxy, ?_⟩
  rw [Triangle.plane_combine hxy, hq.2, hr.2, ← add_mul, hxy, one_mul]

theorem exists_ends (he : e ∈ c.edges) : ∃ j k, e.low = c.get j ∧ e.high = c.get k := by
  obtain ⟨k, -, rfl⟩ := List.mem_map.1 he
  rw [Triangle.edge, Edge.between]
  split
  · exact ⟨_, _, rfl, rfl⟩
  · exact ⟨_, _, rfl, rfl⟩

/-- Where the level crosses an edge of a triangle, the plane of the triangle has the level. -/
theorem crossing_mem_levelSet (hc : cross (s.point c.fst) (s.point c.snd) (s.point c.trd) ≠ 0) (he : e ∈ c.edges)
    (hcut : cuts s level e = true) : (crossing s level e).real ∈ levelSet c s level := by
  obtain ⟨x, y, hx, hy, hxy, hpoint, hlevel⟩ := crossing_share hcut
  obtain ⟨j, k, hlow, hhigh⟩ := exists_ends he
  rw [hpoint, hlow, hhigh]
  refine ⟨convex_convexHull ℝ _ (Triangle.corner_mem c s j) (Triangle.corner_mem c s k) hx hy hxy, ?_⟩
  rw [Triangle.plane_combine hxy, Triangle.plane_corner hc, Triangle.plane_corner hc, ← hlow, ← hhigh, hlevel]

/-! ## Lines -/

theorem Contoured.steps_ne_nil {paths : List (List Edge × Bool)} (h : Contoured t s level paths) {p : List Edge × Bool}
    (hp : p ∈ paths) : steps p ≠ [] := by
  obtain ⟨path, _ | _⟩ := p
  · obtain ⟨a, mid, b, rfl, -⟩ := h.opened path hp
    cases mid <;> simp [steps]
  · obtain ⟨hlength, -⟩ := h.closed path hp
    refine List.ne_nil_of_length_pos ?_
    rw [steps, Triangulation.length_cyclicPairs]
    omega

/-- A piece of a line that goes through one closed triangle, where its plane has the height of the level. -/
def OnSurface (t : Triangulation) (s : Samples Rat) (level : Rat) (piece : Point Rat × Point Rat) : Prop :=
  ∃ c ∈ t.triangles.toList, segment ℝ piece.1.real piece.2.real ⊆ c.region s ∧
    ∀ p : Point Rat, p.real ∈ segment ℝ piece.1.real piece.2.real → c.planarHeight s p = level

/-- A step between two crossed edges of a triangle makes a piece on its plane. -/
theorem onSurface_of_step {u : Edge × Edge} (hmem : c ∈ t.triangles.toList)
    (hc : cross (s.point c.fst) (s.point c.snd) (s.point c.trd) ≠ 0) (h1 : u.1 ∈ c.edges) (h2 : u.2 ∈ c.edges)
    (hcut1 : cuts s level u.1 = true) (hcut2 : cuts s level u.2 = true) :
    OnSurface t s level (Prod.map (crossing s level) (crossing s level) u) := by
  have hsub : segment ℝ (crossing s level u.1).real (crossing s level u.2).real ⊆ levelSet c s level :=
    (convex_levelSet c s level).segment_subset (crossing_mem_levelSet hc h1 hcut1) (crossing_mem_levelSet hc h2 hcut2)
  refine ⟨c, hmem, fun q hq => (hsub hq).1, fun p hp => ?_⟩
  have hheight := (hsub hp).2
  rw [← Triangle.planarHeight_real hc] at hheight
  exact_mod_cast hheight

/-- The isolines of every build that succeeds, over samples with exact heights at exact places where no triangle is flat, lie
on the surface piece by piece, and each has a piece. -/
theorem onSurface_of_build {α : Type} [Scalar α] {settings : BuildSettings α} {built : Samples α} {t : Triangulation}
    (h : Triangulation.build settings built = .ok t) {s : Samples Rat}
    (hflat : ∀ c ∈ t.triangles.toList, cross (s.point c.fst) (s.point c.snd) (s.point c.trd) ≠ 0) (level : Rat) :
    ∀ l ∈ atLevel t s level, l.pieces ≠ [] ∧ ∀ piece ∈ l.pieces, OnSurface t s level piece := by
  intro l hl
  have hcontoured : Contoured t s level (paths (segments t s level)) := contoured (Triangulation.edgeToEdge_of_build h)
  obtain ⟨p, hp, rfl⟩ := List.mem_map.1 hl
  rw [pieces_eq]
  refine ⟨mt List.map_eq_nil_iff.1 (hcontoured.steps_ne_nil hp), fun piece hpiece => ?_⟩
  obtain ⟨u, hu, rfl⟩ := List.mem_map.1 hpiece
  obtain ⟨-, hcut1, hcut2, c, hc, h1, h2⟩ := hcontoured.step p hp u hu
  exact onSurface_of_step hc (hflat c hc) h1 h2 hcut1 hcut2

/-- At the height of a corner of the hull the line around the hill begins and ends there. -/
theorem onSurface_of_build_kite : ∃ t, Triangulation.build ⟨100, ⟨0⟩⟩ Triangulation.kite = .ok t ∧
    (∀ c ∈ t.triangles.toList, cross (hill.point c.fst) (hill.point c.snd) (hill.point c.trd) ≠ 0) ∧
    atLevel t hill 3 = [⟨[⟨5, 5⟩, ⟨7 / 2, 3 / 4⟩, ⟨2 / 3, 1⟩, ⟨2 / 7, 27 / 7⟩, ⟨5, 5⟩], false⟩] ∧
    ∀ l ∈ atLevel t hill 3, l.pieces ≠ [] ∧ ∀ piece ∈ l.pieces, OnSurface t hill 3 piece := by
  have hkite : (Triangulation.build ⟨100, ⟨0⟩⟩ Triangulation.kite).toOption.any (fun t =>
      (∀ c ∈ t.triangles.toList, cross (hill.point c.fst) (hill.point c.snd) (hill.point c.trd) ≠ 0) ∧
      atLevel t hill 3 = [⟨[⟨5, 5⟩, ⟨7 / 2, 3 / 4⟩, ⟨2 / 3, 1⟩, ⟨2 / 7, 27 / 7⟩, ⟨5, 5⟩], false⟩]) = true := by cbv
  obtain ⟨t, ht, hkite⟩ := Triangulation.exists_of_any hkite
  obtain ⟨hflat, hline⟩ := of_decide_eq_true hkite
  exact ⟨t, ht, hflat, hline, onSurface_of_build ht hflat 3⟩

end Isoline

end DelaunaySurface
