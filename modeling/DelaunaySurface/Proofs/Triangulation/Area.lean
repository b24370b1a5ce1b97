import DelaunaySurface.Proofs.Plane.Hinge
import DelaunaySurface.Proofs.Triangulation.Convexity
/-!
# Areas

The areas of the triangles add up to the area within the hull, whatever places the samples have: each
triangle is three areas seen from one point, one for each of its sides, and the two directions of an inner
edge cancel (`sum_innerSides`). What is left are the sides of the hull.
-/

namespace DelaunaySurface

/-- The plain sum: negative zero is zero. -/
theorem Scalar.sum_rat (xs : List Rat) : Scalar.sum xs = xs.sum := by
  have hfold : ∀ a : Rat, xs.foldl (· + ·) a = a + xs.sum := by
    induction xs with
    | nil => simp
    | cons x xs ih => intro a; rw [List.foldl_cons, ih, List.sum_cons, add_assoc]
  rw [Scalar.sum, hfold]
  exact (congrArg (· + xs.sum) neg_zero).trans (zero_add _)

namespace Mesh.ClosedSurface

variable {m : Mesh} {sites : List Nat}

/-- The sides of triangles that are not on the hull come in pairs of one edge. -/
theorem swap_perm (h : m.ClosedSurface sites) :
    ((m.innerSides.filter (· ∉ m.outerSides)).map Prod.swap).Perm (m.innerSides.filter (· ∉ m.outerSides)) := by
  have hn := h.innerSides_nodup.filter (· ∉ m.outerSides)
  refine (List.perm_ext_iff_of_nodup (hn.map Prod.swap_injective) hn).2 fun s => ?_
  have hmem : ∀ r, r ∈ m.innerSides.filter (· ∉ m.outerSides) ↔ r ∈ m.innerSides ∧ r.swap ∈ m.innerSides := fun r => by
    rw [List.mem_filter, decide_eq_true_eq]
    exact and_congr_right fun hr => (h.inner_swap_iff hr).symm
  rw [hmem, List.mem_map]
  constructor
  · rintro ⟨r, hr, rfl⟩
    exact ((hmem r).1 hr).symm
  · exact fun hs => ⟨s.swap, (hmem _).2 hs.symm, Prod.swap_swap s⟩

/-- What counts an edge and its reverse oppositely comes to the same over all sides of triangles and over
those of the hull. -/
theorem sum_innerSides {A : Type} [AddCommGroup A] [IsAddTorsionFree A] (h : m.ClosedSurface sites) (f : Nat × Nat → A)
    (hf : ∀ s, f s.swap = -f s) : (m.innerSides.map f).sum = (m.outerSides.map f).sum := by
  have hinner : ((m.innerSides.filter (· ∉ m.outerSides)).map f).sum = 0 := by
    refine neg_eq_self.1 ?_
    calc -((m.innerSides.filter (· ∉ m.outerSides)).map f).sum
        = ((m.innerSides.filter (· ∉ m.outerSides)).map (f ∘ Prod.swap)).sum := by
          rw [List.sum_neg, List.map_map]
          exact congrArg List.sum (List.map_congr_left fun s _ => (hf s).symm)
      _ = ((m.innerSides.filter (· ∉ m.outerSides)).map f).sum := by
          rw [← List.map_map]
          exact (h.swap_perm.map f).sum_eq
  have houter : (m.innerSides.filter (· ∈ m.outerSides)).Perm m.outerSides := by
    refine (List.perm_ext_iff_of_nodup (h.innerSides_nodup.filter _) (List.Nodup.of_map Prod.fst h.outerSides_nodup)).2 fun s => ?_
    rw [List.mem_filter, decide_eq_true_eq]
    exact and_iff_right_of_imp h.inner_of_outer
  have hsplit := List.filter_append_perm (fun s => decide (s ∈ m.outerSides)) m.innerSides
  rw [← (hsplit.map f).sum_eq, List.map_append, List.sum_append, (houter.map f).sum_eq]
  simpa using hinner

end Mesh.ClosedSurface

namespace Triangulation

/-! ## Sums around a list -/

theorem sum_zip_append {β A : Type} [AddCommMonoid A] (f : β × β → A) (a z : β) (l : List β) (hz : ∀ b, f (b, z) = 0) :
    (((a :: l).zip (l ++ [z])).map f).sum = (((a :: l).zip l).map f).sum := by
  induction l generalizing a with
  | nil => simp [hz]
  | cons b l ih =>
    simp only [List.cons_append, List.zip_cons_cons, List.map_cons, List.sum_cons] at ih ⊢
    rw [ih]

/-- Around a list, what vanishes at its first element is the sum over the others alone. -/
theorem sum_cyclicPairs {β A : Type} [AddCommMonoid A] {f : β × β → A} {a : β} (rest : List β) (hl : ∀ b, f (a, b) = 0)
    (hr : ∀ b, f (b, a) = 0) : ((cyclicPairs (a :: rest)).map f).sum = ((rest.zip rest.tail).map f).sum := by
  cases rest with
  | nil => simp [cyclicPairs, hl]
  | cons b rest =>
    rw [cyclicPairs, List.cons_append, List.zip_cons_cons, List.map_cons, List.sum_cons, hl, zero_add, sum_zip_append f b a rest hr,
      List.tail_cons]

/-! ## Areas -/

/-- Twice the area of a triangle, by the areas that its sides form with one point. -/
theorem cross_eq_sum_sides (o a b c : Point Rat) : cross o b c + (cross o c a + (cross o a b + 0)) = cross a b c := by
  simp only [cross_eq]; ring

theorem area_eq_sum (t : Triangulation) (r : Samples Rat) :
    t.area r = 0.5 * (t.triangles.toList.map fun c => cross (r.point c.fst) (r.point c.snd) (r.point c.trd)).sum := by
  rw [area, Scalar.sum_rat, ← List.sum_map_mul_left]
  rfl

theorem area_ofMesh {m : Mesh} {count : Nat} (r : Samples Rat) (o : Point Rat) :
    (ofMesh count m).area r = 0.5 * (m.innerSides.map fun s => cross o (r.point s.1) (r.point s.2)).sum := by
  rw [area_eq_sum, triangles_ofMesh, List.toList_toArray, List.map_map, Mesh.innerSides, List.map_flatMap, List.flatMap_def,
    List.sum_flatten, List.map_map]
  congr 2
  refine List.map_congr_left fun t _ => ?_
  simp only [Function.comp_apply, List.map_map]
  exact (cross_eq_sum_sides o _ _ _).symm

theorem hullArea_eq_sum {t : Triangulation} {r : Samples Rat} {first : Nat} {rest : List Nat} (h : t.hull = first :: rest) :
    t.hullArea r = 0.5 * (t.hullSides.map fun s => cross (r.point first) (r.point s.1) (r.point s.2)).sum := by
  rw [hullArea, h, hullSides, h]
  simp only [Scalar.sum_rat]
  rw [sum_cyclicPairs (f := fun s => cross (r.point first) (r.point s.1) (r.point s.2)) rest
    (fun b => by simp only [cross_eq]; ring) fun b => cross_self_left _ _]
  congr 3
  funext ⟨i, j⟩
  simp only [cross_eq]
  ring

/-- On a closed surface the areas of the triangles add up to the area within the hull. -/
theorem area_eq_hullArea_ofMesh {m : Mesh} {sites : List Nat} {count : Nat} (h : m.ClosedSurface sites)
    (hc : ∀ i ∈ sites, i < count) (r : Samples Rat) : (ofMesh count m).area r = (ofMesh count m).hullArea r := by
  have hperm : (ofMesh count m).hullSides.Perm m.outerSides := h.cyclicPairs_hull_perm hc
  cases hhull : (ofMesh count m).hull with
  | nil =>
    -- Without a hull every edge is an inner one.
    have hsides : m.outerSides = [] := by
      rw [hullSides, hhull] at hperm
      exact hperm.symm.eq_nil
    rw [area_ofMesh r ⟨0, 0⟩, h.sum_innerSides _ fun s => cross_swap_last _ _ _, hsides, hullArea, hhull]
    exact mul_zero _
  | cons first rest =>
    rw [area_ofMesh r (r.point first), h.sum_innerSides _ fun s => cross_swap_last _ _ _, hullArea_eq_sum hhull,
      (hperm.map _).sum_eq]

variable {α : Type} [Scalar α] {s : Samples α}

/-- However the geometry answers during a run of insertions, the areas of the triangles add up to the area
within the hull. -/
theorem area_eq_hullArea_of_run {tol : Tolerance α} {first : Triple Nat} {others : List Nat} {budget : Nat} {v : Nat → Verdicts}
    {m : Mesh} (hs : Schedule.seed tol s (Schedule.order s) = .ok (first, others))
    (hm : (Mesh.seed first).insertAll budget v others = .ok m) (r : Samples Rat) :
    (ofMesh s.size m).area r = (ofMesh s.size m).hullArea r :=
  area_eq_hullArea_ofMesh ((Schedule.closedSurface_seed hs).insertAll (Schedule.schedule_nodup hs) hm)
    (fun _ => Schedule.lt_of_mem_schedule hs) r

/-- The areas of the triangles of a build add up to the area within its hull, whatever numbers, tolerance and
budget it was made with, and for all exact places of the samples, such as those that rounded coordinates stand for. -/
theorem area_eq_hullArea_of_build {settings : BuildSettings α} {t : Triangulation} (h : build settings s = .ok t) (r : Samples Rat) :
    t.area r = t.hullArea r := by
  obtain ⟨m, hm, rfl⟩ := build_eq_ok.1 h
  obtain ⟨-, first, others, hs, hrun⟩ := mesh_eq_ok.1 hm
  exact area_eq_hullArea_of_run hs hrun r

/-- The samples of `dented` with exact coordinates. -/
def dentedExact : Samples Rat := .ofList [⟨0, 0, 0⟩, ⟨1000000000, 1000000000, 0⟩, ⟨0, 1000000000, 0⟩,
  ⟨100000000, 100000001, 0⟩]

theorem area_eq_hullArea_of_build_dented : build .standard dented = .ok dentedTables ∧
    dentedTables.area dentedExact = dentedTables.hullArea dentedExact ∧ dentedTables.area dentedExact = 499999999500000000 :=
  ⟨build_dented, area_eq_hullArea_of_build build_dented dentedExact, by decide +kernel⟩

end Triangulation

end DelaunaySurface
