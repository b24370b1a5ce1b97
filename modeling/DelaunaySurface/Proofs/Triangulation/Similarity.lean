import DelaunaySurface.Proofs.Mesh.Questions
import DelaunaySurface.Proofs.Plane.Similarity
import DelaunaySurface.Proofs.Triangulation.Engines
/-!
# Builds of moved samples

Over exact numbers a change of scale and a shift of all samples change nothing that a build compares: it
ends with the same tables or the same failure, and points moved along are located alike (`build_moved`).
-/

namespace DelaunaySurface

open Triple (next previous)

/-- The samples `s'` are the samples `s` moved by a similarity, in the same order and at any heights. -/
structure Samples.Moved (s s' : Samples Rat) (f : Similarity) : Prop where
  size : s'.size = s.size
  point : ∀ i < s.size, s'.point i = f.map (s.point i)

variable {s s' : Samples Rat} {f : Similarity}

theorem Samples.points_eq (s : Samples Rat) : s.points = (List.range s.size).map s.point := by
  apply List.ext_getElem
  · simp [points]
  · intro i h1 h2
    have hi : i < s.size := by simpa using h2
    have hy : i < s.ys.size := s.ys_size ▸ hi
    simp [points, toList, get, Sample.point, point, hy, show i < s.xs.size from hi]
    rfl

theorem mergeSort_congr {α : Type} {r r' : α → α → Bool} {l : List α} (h : ∀ a ∈ l, ∀ b ∈ l, r a b = r' a b) :
    l.mergeSort r = l.mergeSort r' := by
  simpa using List.map_mergeSort (f := id) h

theorem span_congr {α : Type} {p q : α → Bool} {l : List α} (h : ∀ a ∈ l, p a = q a) : l.span p = l.span q := by
  rw [List.span_eq_takeWhile_dropWhile, List.span_eq_takeWhile_dropWhile]
  induction l with
  | nil => rfl
  | cons a l ih =>
    have hrest := ih fun b hb => h b (List.mem_cons_of_mem a hb)
    rw [Prod.mk.injEq] at hrest
    rw [List.takeWhile_cons, List.takeWhile_cons, List.dropWhile_cons, List.dropWhile_cons, h a List.mem_cons_self, hrest.1, hrest.2]

namespace Schedule

variable {tol : Tolerance Rat} {l : List Nat} {a b : Nat}

/-! ## Validation -/

theorem notFinite?_rat (s : Samples Rat) : notFinite? s = none :=
  List.find?_eq_none.2 fun _ _ => Bool.false_ne_true

theorem order_map (f : Similarity) (x y d : Rat) : Scalar.order (f.scale * x + d) (f.scale * y + d) = Scalar.order x y := by
  have heq : ∀ x y : Rat, Scalar.order x y = if x < y then .lt else if y < x then .gt else .eq := fun _ _ => rfl
  simp only [heq, add_lt_add_iff_right, mul_lt_mul_iff_right₀ f.pos]

theorem same_map (f : Similarity) (p q : Point Rat) : (f.map p).same (f.map q) = p.same q := by
  have heq : ∀ p q : Point Rat, p.same q = (decide (p.x = q.x) && decide (p.y = q.y)) := fun _ _ => rfl
  simp only [heq, Similarity.map, add_left_inj, mul_right_inj' f.pos.ne']

section Moved

variable (hs : s.Moved s' f)

include hs

theorem placeOrder_moved {i j : Nat} (hi : i < s.size) (hj : j < s.size) : placeOrder s' i j = placeOrder s i j := by
  simp only [placeOrder, hs.point i hi, hs.point j hj, Similarity.map, order_map]

theorem firstTwins?_moved (hl : ∀ i ∈ l, i < s.size) : firstTwins? s' l = firstTwins? s l := by
  induction l with
  | nil => rfl
  | cons i l ih =>
    cases l with
    | nil => rfl
    | cons j rest =>
      rw [firstTwins?, firstTwins?, hs.point i (hl i (by simp)), hs.point j (hl j (by simp)), same_map,
        ih fun k hk => hl k (List.mem_cons_of_mem i hk)]

theorem twins?_moved : twins? s' = twins? s := by
  have hsort : ((List.range s.size).mergeSort fun i j => placeOrder s' i j != .gt) =
      (List.range s.size).mergeSort fun i j => placeOrder s i j != .gt :=
    mergeSort_congr fun i hi j hj => by rw [placeOrder_moved hs (List.mem_range.1 hi) (List.mem_range.1 hj)]
  rw [twins?, twins?, hs.size, hsort]
  exact firstTwins?_moved hs fun i hi => List.mem_range.1 (List.mem_mergeSort.1 hi)

theorem validate_moved : validate s' = validate s := by
  rw [validate, validate, notFinite?_rat, notFinite?_rat, hs.size, twins?_moved hs]

/-! ## Order -/

omit hs in
theorem bucket_map (f : Similarity) (count : Nat) (value low extent d : Rat) :
    bucket count (f.scale * value + d) (f.scale * low + d) (f.scale * extent) = bucket count value low extent := by
  have hsub : f.scale * value + d - (f.scale * low + d) = f.scale * (value - low) := by ring
  simp only [bucket, mul_pos_iff_of_pos_left f.pos, hsub, mul_div_mul_left _ _ f.pos.ne']

theorem key_moved (around : Rectangle Rat) {i : Nat} (hi : i < s.size) : key s' (f.mapRectangle around) i = key s around i := by
  simp only [key, hs.size, hs.point i hi, f.width_map, f.height_map]
  simp only [Similarity.map, Similarity.mapRectangle, bucket_map]

theorem order_moved : order s' = order s := by
  have haround : Rectangle.around? s'.points = (Rectangle.around? s.points).map f.mapRectangle := by
    rw [← f.around?_map, s.points_eq, s'.points_eq, hs.size, List.map_map]
    exact congrArg _ (List.map_congr_left fun i hi => hs.point i (List.mem_range.1 hi))
  rw [order, order, Samples.bounds, Samples.bounds, haround]
  cases Rectangle.around? s.points with
  | none => exact congrArg List.range hs.size
  | some around =>
    change (((List.range s'.size).map (key s' (f.mapRectangle around))).mergeSort Key.le).map (·.index) = _
    rw [hs.size, List.map_congr_left fun i hi => key_moved hs around (List.mem_range.1 hi)]

/-! ## Seed -/

theorem firstTriangle?_moved (ha : a < s.size) (hb : b < s.size) (hl : ∀ c ∈ l, c < s.size) :
    firstTriangle? tol s' a b l = firstTriangle? tol s a b l := by
  have hturn : ∀ c ∈ l, turn tol (s'.point a) (s'.point b) (s'.point c) = turn tol (s.point a) (s.point b) (s.point c) :=
    fun c hc => by rw [hs.point a ha, hs.point b hb, hs.point c (hl c hc), f.turn_map]
  have hspan : l.span (fun c => decide (turn tol (s'.point a) (s'.point b) (s'.point c) = .straight)) =
      l.span fun c => decide (turn tol (s.point a) (s.point b) (s.point c) = .straight) :=
    span_congr fun c hc => by rw [hturn c hc]
  simp only [firstTriangle?, hspan]
  rw [List.span_eq_takeWhile_dropWhile]
  cases htail : l.dropWhile fun c => decide (turn tol (s.point a) (s.point b) (s.point c) = .straight) with
  | nil => rfl
  | cons c rest =>
    have hc : c ∈ l := (List.dropWhile_sublist _).mem (htail ▸ List.mem_cons_self)
    simp only [hturn c hc]

theorem seed_moved (hl : ∀ c ∈ l, c < s.size) : seed tol s' l = seed tol s l := by
  unfold seed
  split
  · rw [firstTriangle?_moved hs (hl _ (by simp)) (hl _ (by simp)) fun c hc => hl c (by simp [hc])]
  · rfl

end Moved

end Schedule

namespace Triangulation

/-! ## Building -/

variable {settings : BuildSettings Rat} {t : Triangulation}

theorem verdicts_moved (hs : s.Moved s' f) {sites : List Nat} (hlt : ∀ i ∈ sites, i < s.size) {tol : Tolerance Rat} {i : Nat}
    (hi : i < s.size) : Verdicts.Agree sites (verdicts tol s' i) (verdicts tol s i) := by
  rw [verdicts, verdicts, hs.point i hi, ← f.ofPoint_map tol (s.point i) s.point]
  exact .ofPoint fun j hj => hs.point j (hlt j hj)

/-- A build of moved samples is the build of the samples. -/
theorem build_eq_of_moved (hs : s.Moved s' f) : build settings s' = build settings s := by
  have hmesh : mesh settings s' = mesh settings s := by
    have hlt : ∀ c ∈ Schedule.order s, c < s.size := fun c hc => List.mem_range.1 ((Schedule.order_perm s).mem_iff.1 hc)
    rw [mesh, mesh, Schedule.validate_moved hs, Schedule.order_moved hs, Schedule.seed_moved hs hlt]
    refine bind_congr_ok fun _ _ => bind_congr_ok fun found hseed => ?_
    obtain ⟨first, others⟩ := found
    have hlt := fun i => Schedule.lt_of_mem_schedule hseed (i := i)
    exact (Schedule.closedSurface_seed hseed).insertAll_congr (Schedule.schedule_nodup hseed) fun i hi =>
      verdicts_moved hs hlt (hlt i (List.mem_append_right _ hi))
  rw [build, build, hmesh, hs.size]

theorem between_lt {a b n : Nat} (ha : a < n) (hb : b < n) : (Edge.between a b).low < n ∧ (Edge.between a b).high < n := by
  rw [Edge.between]
  split
  · exact ⟨ha, hb⟩
  · exact ⟨hb, ha⟩

/-- A triangulation that names samples below `n` only. -/
structure Names (t : Triangulation) (n : Nat) : Prop where
  corner : ∀ i k, (t.triangle i).get k < n
  hullSide : ∀ e ∈ t.hullSides, e.1 < n ∧ e.2 < n
  hullEdge : ∀ e ∈ t.hullEdges, e.low < n ∧ e.high < n

theorem names_of_build {α : Type} [Scalar α] {settings : BuildSettings α} {s : Samples α} (h : build settings s = .ok t) :
    t.Names s.size := by
  have hcorner : ∀ i < t.size, ∀ k, (t.triangle i).get k < s.size := by
    obtain ⟨m, hm, rfl⟩ := build_eq_ok.1 h
    obtain ⟨sites, hsurface, hperm⟩ := closedSurface_of_mesh hm
    intro i hi k
    rw [size_ofMesh] at hi
    obtain ⟨hlive, hb⟩ := Mesh.slotOf_mem hi
    rw [triangle_ofMesh hi]
    exact List.mem_range.1 (hperm.mem_iff.1 (hsurface.among _ k _ hlive (Mesh.corner_eq_site hb k)))
  have hside : ∀ e ∈ t.hullSides, e.1 < s.size ∧ e.2 < s.size := by
    intro e he
    obtain ⟨i, hi, k, rfl⟩ : ∃ i < t.size, ∃ k, (t.triangle i).side k = e := by
      obtain ⟨m, hm, rfl⟩ := build_eq_ok.1 h
      exact (coherent_of_mesh hm).hull_side e he
    exact ⟨hcorner i hi _, hcorner i hi _⟩
  refine ⟨fun i k => ?_, hside, fun e he => ?_⟩
  · by_cases hi : i < t.size
    · exact hcorner i hi k
    · -- What stands for a triangle that is not there names the first sample.
      have hnone : t.triangle i = ⟨0, 0, 0⟩ := by
        rw [triangle, Array.getD_eq_getD_getElem?, Array.getElem?_eq_none (Nat.le_of_not_lt hi)]
        rfl
      have hzero : (t.triangle i).get k = 0 := by
        rw [hnone]
        rcases Triple.eq_zero_or k with rfl | rfl | rfl <;> rfl
      rw [hzero]
      exact Nat.zero_lt_of_lt (hcorner 0 (size_pos_of_build h) 0)
  rw [hullEdges_of_build h, List.mem_map] at he
  obtain ⟨⟨a, b⟩, he, rfl⟩ := he
  obtain ⟨ha, hb⟩ := hside _ he
  exact between_lt ha hb

end Triangulation

namespace Locator

/-! ## Locating -/

/-- What a scan has found, with all depths multiplied. -/
def Scan.times (k : Rat) : Scan Rat → Scan Rat
  | .holds i => .holds i
  | .best found => .best (found.map fun b => (b.1, k * b.2))

section Moved

variable {t : Triangulation} (hs : s.Moved s' f) (hn : t.Names s.size) (p : Point Rat)

include hs hn

theorem exit?_moved (i : Nat) : exit? t s' (f.map p) i = exit? t s p i := by
  unfold exit?
  refine List.find?_congr fun k _ => decide_eq_decide.2 ?_
  rw [Triangle.points, Triangle.points, Triple.get_map, Triple.get_map, Triple.get_map, Triple.get_map,
    hs.point _ (hn.corner i (next k)), hs.point _ (hn.corner i (previous k))]
  exact f.cross_neg_iff _ _ p

theorem walkFrom_moved (steps i : Nat) : walkFrom t s' (f.map p) steps i = walkFrom t s p steps i := by
  induction steps generalizing i with
  | zero => rfl
  | succ steps ih => simp only [walkFrom, exit?_moved hs hn p, ih]

theorem depth_moved (i : Nat) : depth t s' (f.map p) i = f.scale ^ 2 * depth t s p i := by
  simp only [depth, Scalar.lesser_rat, Triangle.points, Triple.map, mul_min_of_nonneg _ _ f.sq_pos.le, ← f.cross_map]
  have h0 := hs.point _ (hn.corner i 0)
  have h1 := hs.point _ (hn.corner i 1)
  have h2 := hs.point _ (hn.corner i 2)
  simp only [Triple.get] at h0 h1 h2
  rw [h0, h1, h2]

theorem scanFrom_moved (best : Option (Nat × Rat)) (l : List Nat) :
    scanFrom t s' (f.map p) (best.map fun b => (b.1, f.scale ^ 2 * b.2)) l = (scanFrom t s p best l).times (f.scale ^ 2) := by
  induction l generalizing best with
  | nil => rfl
  | cons i l ih =>
    have hbetter : (best.map fun b => (b.1, f.scale ^ 2 * b.2)).all (fun b => b.2 < f.scale ^ 2 * depth t s p i) =
        best.all fun b => b.2 < depth t s p i := by
      cases best with
      | none => rfl
      | some b => exact decide_eq_decide.2 (mul_lt_mul_iff_right₀ f.sq_pos)
    rw [scanFrom_cons, scanFrom_cons, depth_moved hs hn p, hbetter]
    simp only [mul_nonneg_iff_of_pos_left f.sq_pos]
    split
    · rfl
    · rw [← ih]
      split <;> rfl

theorem beyondHull_moved : beyondHull t s' (f.map p) = beyondHull t s p := by
  rw [Bool.eq_iff_iff, beyondHull, beyondHull, List.any_eq_true, List.any_eq_true]
  refine exists_congr fun e => and_congr_right fun he => ?_
  obtain ⟨h1, h2⟩ := hn.hullSide e he
  simp only [hs.point _ h1, hs.point _ h2, f.cross_neg_iff]

/-- The search for the nearest of some hull edges. -/
theorem foldl_nearest_moved (l : List Edge) (hl : ∀ e ∈ l, e ∈ t.hullEdges) (best : Edge × Rat) :
    l.foldl (fun (best : Edge × Rat) e =>
        let d := segmentDistanceSq (f.map p) (s'.point e.low) (s'.point e.high)
        if d < best.2 then (e, d) else best) (best.1, f.scale ^ 2 * best.2) =
      let found := l.foldl (fun (best : Edge × Rat) e =>
        let d := segmentDistanceSq p (s.point e.low) (s.point e.high)
        if d < best.2 then (e, d) else best) best
      (found.1, f.scale ^ 2 * found.2) := by
  induction l generalizing best with
  | nil => rfl
  | cons e l ih =>
    obtain ⟨h1, h2⟩ := hn.hullEdge e (hl e List.mem_cons_self)
    simp only [List.foldl_cons]
    rw [← ih fun d hd => hl d (List.mem_cons_of_mem e hd)]
    congr 1
    rw [hs.point _ h1, hs.point _ h2, f.segmentDistanceSq_map]
    simp only [mul_lt_mul_iff_right₀ f.sq_pos]
    split <;> rfl

theorem outside?_moved : outside? t s' (f.map p) = outside? t s p := by
  have hnearest : nearestEdge? t s' (f.map p) = nearestEdge? t s p := by
    rw [nearestEdge?, nearestEdge?]
    split
    · rfl
    · rename_i e rest hedges
      obtain ⟨h1, h2⟩ := hn.hullEdge e (hedges ▸ List.mem_cons_self)
      have hfold := foldl_nearest_moved hs hn p rest (fun d hd => hedges ▸ List.mem_cons_of_mem e hd)
        (e, segmentDistanceSq p (s.point e.low) (s.point e.high))
      simp only [hs.point _ h1, hs.point _ h2, f.segmentDistanceSq_map]
      exact congrArg (fun found => some found.1) hfold
  rw [outside?, outside?, hnearest]

theorem scan?_moved : scan? t s' (f.map p) = scan? t s p := by
  have hscan := scanFrom_moved hs hn p none (List.range t.size)
  rw [Option.map_none] at hscan
  rw [scan?, scan?, hscan, beyondHull_moved hs hn p, outside?_moved hs hn p]
  cases scanFrom t s p none (List.range t.size) with
  | holds i => rfl
  | best found => cases found <;> rfl

/-- Locating a point among moved samples, moved along with them, answers and remembers the same. -/
theorem locate?_moved (l : Locator) : l.locate? t s' (f.map p) = l.locate? t s p := by
  have hwalk : l.walk? t s' (f.map p) = l.walk? t s p := by
    rw [walk?, walk?, walkFrom_moved hs hn p, outside?_moved hs hn p, scan?_moved hs hn p]
  rw [locate?, locate?, hwalk, scan?_moved hs hn p]

end Moved

end Locator

namespace Triangulation

/-- Over exact numbers, whatever the tolerance and the budget, samples moved by a similarity have the same build: the
same failure, or the same tables. In these a point that moves along has the same location for each strategy
and each hint, and the locator remembers and counts the same. -/
theorem build_moved (hs : s.Moved s' f) (settings : BuildSettings Rat) :
    build settings s' = build settings s ∧
      ∀ t, build settings s = .ok t → ∀ (l : Locator) (p : Point Rat), l.locate? t s' (f.map p) = l.locate? t s p :=
  ⟨build_eq_of_moved hs, fun _ ht l p => Locator.locate?_moved hs (names_of_build ht) p l⟩

/-- The kite at three times its size, shifted, at other heights. -/
def movedKite : Samples Rat := .ofList [⟨1, -2, 7⟩, ⟨13, -2, 1⟩, ⟨1, 10, -3⟩, ⟨16, 13, 0⟩, ⟨7, 7, 2⟩]

theorem build_moved_kite : ∃ t, build .standard kite = .ok t ∧ build .standard movedKite = .ok t ∧
    ∀ (l : Locator) (p : Point Rat), l.locate? t movedKite ⟨3 * p.x + 1, 3 * p.y + -2⟩ = l.locate? t kite p := by
  have hmoved : kite.Moved movedKite ⟨3, 1, -2, by norm_num⟩ := ⟨rfl, by decide +kernel⟩
  obtain ⟨t, ht⟩ : ∃ t, build .standard kite = .ok t := exists_of_isOk (by cbv)
  obtain ⟨hbuild, hlocate⟩ := build_moved hmoved .standard
  exact ⟨t, ht, hbuild.trans ht, hlocate t ht⟩

end Triangulation

end DelaunaySurface
