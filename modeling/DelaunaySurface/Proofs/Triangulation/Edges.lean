import DelaunaySurface.Proofs.Triangulation.Hull
/-!
# Edges

Edges are counted by sorting them and joining equal neighbours. On a closed surface an edge belongs to
two triangles, or to one when an unbounded cell lies behind it.
-/

namespace DelaunaySurface

open Triple (next previous)

namespace Edge

theorem le_trans (a b c : Edge) (hab : a.le b = true) (hbc : b.le c = true) : a.le c = true := by
  simp only [le, Bool.or_eq_true, Bool.and_eq_true, decide_eq_true_eq] at *
  omega

theorem le_total (a b : Edge) : (a.le b || b.le a) = true := by
  simp only [le, Bool.or_eq_true, Bool.and_eq_true, decide_eq_true_eq]
  omega

theorem le_antisymm {a b : Edge} (hab : a.le b = true) (hba : b.le a = true) : a = b := by
  simp only [le, Bool.or_eq_true, Bool.and_eq_true, decide_eq_true_eq] at *
  cases a; cases b
  simp only [mk.injEq] at *
  omega

/-- An edge tells its ends, not their order. -/
theorem between_eq_iff {a b c d : Nat} : between a b = between c d ↔ (a = c ∧ b = d) ∨ (a = d ∧ b = c) := by
  unfold between
  split <;> split <;> simp only [mk.injEq] <;> omega

end Edge

/-! ## Counting runs -/

namespace Triangulation

theorem countRuns_cons (e : Edge) (l : List Edge) : countRuns (e :: l) = match countRuns l with
    | (f, n) :: rest => if e = f then (f, n + 1) :: rest else (e, 1) :: (f, n) :: rest
    | [] => [(e, 1)] := by
  simp only [countRuns, List.foldr_cons]
  split <;> rename_i h <;> simp [h]

/-- What is counted is what there is. -/
theorem mem_countRuns_keys {l : List Edge} {e : Edge} : e ∈ (countRuns l).map Prod.fst ↔ e ∈ l := by
  induction l with
  | nil => simp [countRuns]
  | cons f l ih =>
    rw [countRuns_cons, List.mem_cons, ← ih]
    split
    · rename_i heq
      split
      · rename_i hf
        simp only [heq, hf, List.map_cons, List.mem_cons, or_self_left]
      · simp only [heq, List.map_cons, List.mem_cons]
    · rename_i heq
      simp [heq]

theorem sum_countRuns (l : List Edge) : ((countRuns l).map Prod.snd).sum = l.length := by
  induction l with
  | nil => rfl
  | cons e l ih =>
    rw [countRuns_cons, List.length_cons, ← ih]
    split
    · rename_i heq
      split <;> simp [heq] <;> omega
    · rename_i heq
      simp [heq]

/-- The first run is of the first element. -/
theorem countRuns_head {l : List Edge} {e f : Edge} {n : Nat} {rest : List (Edge × Nat)}
    (h : countRuns (e :: l) = (f, n) :: rest) : f = e := by
  rw [countRuns_cons] at h
  split at h
  · split at h <;> simp_all
  · simp_all

/-- An element below all of a sorted list that differs from the first comes nowhere in it. -/
theorem notMem_of_head_ne {e f : Edge} {n : Nat} {l : List Edge} {rest : List (Edge × Nat)} (hle : ∀ g ∈ l, e.le g = true)
    (h : l.Pairwise fun a b => a.le b = true) (hl : countRuns l = (f, n) :: rest) (hef : e ≠ f) : e ∉ l := by
  intro he
  cases l with
  | nil => cases he
  | cons g l =>
    have := countRuns_head hl
    subst this
    refine hef (Edge.le_antisymm (hle f (by simp)) ?_)
    rcases List.mem_cons.1 he with rfl | he
    · exact hle e (by simp)
    · exact (List.pairwise_cons.1 h).1 e he

/-- On a sorted list every element has one run, which counts it. -/
theorem countRuns_sorted {l : List Edge} (h : l.Pairwise fun a b => a.le b = true) :
    ((countRuns l).map Prod.fst).Nodup ∧ ∀ e n, (e, n) ∈ countRuns l → n = l.count e := by
  induction l with
  | nil => simp [countRuns]
  | cons e l ih =>
    obtain ⟨hle, h⟩ := List.pairwise_cons.1 h
    obtain ⟨hn, hcount⟩ := ih h
    have hkeys := fun f => mem_countRuns_keys (l := l) (e := f)
    rw [countRuns_cons]
    cases hl : countRuns l with
    | nil =>
      have : l = [] := by
        rw [List.eq_nil_iff_forall_not_mem]
        intro f hf
        simpa [hl] using (hkeys f).2 hf
      subst this
      simp
    | cons run rest =>
      obtain ⟨f, n⟩ := run
      rw [hl] at hn hcount
      simp only [List.map_cons, List.nodup_cons] at hn
      by_cases hef : e = f
      · subst hef
        simp only [if_pos, List.map_cons, List.nodup_cons]
        refine ⟨hn, fun g k hg => ?_⟩
        rcases List.mem_cons.1 hg with hg | hg
        · cases hg
          rw [List.count_cons_self, ← hcount e n (by simp)]
        · have hne : e ≠ g := by rintro rfl; exact hn.1 (List.mem_map.2 ⟨_, hg, rfl⟩)
          rw [List.count_cons_of_ne hne]
          exact hcount g k (by simp [hg])
      · have hnot := notMem_of_head_ne hle h hl hef
        simp only [if_neg hef, List.map_cons, List.nodup_cons]
        refine ⟨⟨?_, hn⟩, fun g k hg => ?_⟩
        · have := (hkeys e).not.2 hnot
          simpa [hl] using this
        · rcases List.mem_cons.1 hg with hg | hg
          · cases hg
            rw [List.count_cons_self, List.count_eq_zero.2 hnot]
          · have hgl : g ∈ l := (hkeys g).1 (by rw [hl]; exact List.mem_map.2 ⟨_, hg, rfl⟩)
            rw [List.count_cons_of_ne (by rintro rfl; exact hnot hgl)]
            exact hcount g k hg

theorem mem_countRuns {l : List Edge} (h : l.Pairwise fun a b => a.le b = true) {e : Edge} {n : Nat} :
    (e, n) ∈ countRuns l ↔ e ∈ l ∧ n = l.count e := by
  have hcount := (countRuns_sorted h).2
  constructor
  · intro hmem
    exact ⟨mem_countRuns_keys.1 (List.mem_map.2 ⟨_, hmem, rfl⟩), hcount e n hmem⟩
  · rintro ⟨he, rfl⟩
    obtain ⟨⟨f, n⟩, hmem, rfl⟩ := List.mem_map.1 (mem_countRuns_keys.2 he)
    rwa [← hcount f n hmem]

/-- Runs of one and of two, by the number of those of one. -/
theorem two_mul_length_of_runs {l : List (Edge × Nat)} (h : ∀ r ∈ l, r.2 = 1 ∨ r.2 = 2) :
    2 * l.length = (l.map Prod.snd).sum + (l.filter (·.2 = 1)).length := by
  induction l with
  | nil => rfl
  | cons r l ih =>
    have := ih fun q hq => h q (by simp [hq])
    rcases h r (by simp) with hr | hr <;> simp [hr] <;> omega

/-- An edge is counted once for each of its two directions. -/
theorem count_between {l : List (Nat × Nat)} {a b : Nat} (hab : a ≠ b) :
    (l.map fun s => Edge.between s.1 s.2).count (Edge.between a b) = l.count (a, b) + l.count (b, a) := by
  induction l with
  | nil => rfl
  | cons s l ih =>
    obtain ⟨c, d⟩ := s
    rw [List.map_cons, List.count_cons, ih, List.count_cons, List.count_cons]
    simp only [beq_iff_eq, Edge.between_eq_iff, Prod.mk.injEq]
    by_cases h1 : c = a ∧ d = b
    · simp only [h1, hab, and_self, false_and, true_or, if_true, if_false]
      omega
    · simp only [h1, false_or, if_false]
      omega

end Triangulation

/-! ## Inner and outer sides -/

namespace Mesh

variable {m : Mesh} {sites : List Nat} {t : Nat} {s : Nat × Nat}

/-- The directed edges of the triangles in use. -/
def innerSides (m : Mesh) : List (Nat × Nat) :=
  m.triangleSlots.flatMap fun t => Triple.indices.map (m.triangleAt t).side

theorem mem_innerSides : s ∈ m.innerSides ↔ ∃ t k, m.Live t ∧ m.side t k = ⟨.site s.1, .site s.2⟩ ∧
    (m.cell t).bounded = true := by
  simp only [innerSides, List.mem_flatMap, List.mem_map, Triple.mem_indices, true_and, mem_triangleSlots]
  constructor
  · rintro ⟨t, ⟨ht, hb⟩, k, rfl⟩
    exact ⟨t, k, ht, side_eq_site hb k, hb⟩
  · rintro ⟨t, k, ht, hs, hb⟩
    refine ⟨t, ⟨ht, hb⟩, k, ?_⟩
    rw [side_eq_site hb, Side.mk.injEq, Corner.site.injEq, Corner.site.injEq] at hs
    exact Prod.ext hs.1 hs.2

theorem mem_innerSides_slotOf : s ∈ m.innerSides ↔
    ∃ p < m.triangleSlots.length, ∃ k, (m.triangleAt (m.slotOf p)).side k = s := by
  simp only [innerSides, List.mem_flatMap, List.mem_map, Triple.mem_indices, true_and, mem_triangleSlots]
  constructor
  · rintro ⟨t, ⟨ht, hb⟩, k, e⟩
    obtain ⟨p, hp, rfl⟩ := exists_slotOf ht hb
    exact ⟨p, hp, k, e⟩
  · rintro ⟨p, hp, k, e⟩
    exact ⟨_, slotOf_mem hp, k, e⟩

theorem length_innerSides (m : Mesh) : m.innerSides.length = 3 * m.triangleSlots.length := by
  simp [innerSides, List.length_flatMap, Triple.indices, mul_comm]

namespace ClosedSurface

theorem innerSides_nodup (h : m.ClosedSurface sites) : m.innerSides.Nodup := by
  rw [innerSides, List.nodup_flatMap]
  refine ⟨fun t ht => ?_, ?_⟩
  · obtain ⟨ht, hb⟩ := mem_triangleSlots.1 ht
    refine List.Nodup.map (fun j k e => ?_) (by decide)
    refine (Cell.side_eq_iff (h.proper t ht) j k).1 ?_
    have hj := side_eq_site hb j
    rw [e, ← side_eq_site hb k] at hj
    exact hj
  · refine m.triangleSlots_nodup.pairwise_of_forall_ne fun t ht u hu hne => ?_
    obtain ⟨ht, htb⟩ := mem_triangleSlots.1 ht
    obtain ⟨hu, hub⟩ := mem_triangleSlots.1 hu
    rw [Function.onFun, List.disjoint_left]
    intro s hst hsu
    obtain ⟨j, -, rfl⟩ := List.mem_map.1 hst
    obtain ⟨k, -, e⟩ := List.mem_map.1 hsu
    refine hne (h.side_unique t u j k ht hu ?_)
    rw [side_eq_site htb, side_eq_site hub, e]

theorem inner_ne (h : m.ClosedSurface sites) (hs : s ∈ m.innerSides) : s.1 ≠ s.2 := by
  obtain ⟨t, k, ht, e, -⟩ := mem_innerSides.1 hs
  intro h12
  exact Cell.tail_ne_head (h.proper t ht) k (by simp only [show (m.cell t).side k = _ from e, h12])

/-- Before a hull side lies a triangle. -/
theorem inner_of_outer (h : m.ClosedSurface sites) (hs : s ∈ m.outerSides) : s ∈ m.innerSides := by
  obtain ⟨t, ht, hts⟩ := mem_outerSides.1 hs
  obtain ⟨k, -, e⟩ := Cell.hullSide?_eq_some_iff.1 hts
  have hb := (h.finite_side t k _ _ ht e).resolve_left (by rw [unbounded_of_hullSide hts]; nofun)
  refine mem_innerSides.2 ⟨_, (m.twin (t, k)).2, h.live_behind ht k, ?_, hb⟩
  exact (h.side_twin ht k).trans (congrArg Side.reverse e)

/-- An edge of a triangle is one of another in the other direction unless it is a hull side. -/
theorem inner_swap_iff (h : m.ClosedSurface sites) (hs : s ∈ m.innerSides) : s.swap ∈ m.innerSides ↔ s ∉ m.outerSides := by
  obtain ⟨t, k, ht, e, -⟩ := mem_innerSides.1 hs
  constructor
  · intro hswap hout
    obtain ⟨u, j, hu, e', hub⟩ := mem_innerSides.1 hswap
    obtain ⟨w, hw, hws⟩ := mem_outerSides.1 hout
    obtain ⟨i, -, e''⟩ := Cell.hullSide?_eq_some_iff.1 hws
    have := h.side_unique u w j i hu hw (e'.trans e''.symm)
    rw [this, unbounded_of_hullSide hws] at hub
    cases hub
  · intro hout
    have hside : m.side (m.behind t k) (m.twin (t, k)).2 = ⟨.site s.2, .site s.1⟩ :=
      (h.side_twin ht k).trans (congrArg Side.reverse e)
    cases hb : (m.cell (m.behind t k)).bounded with
    | true => exact mem_innerSides.2 ⟨_, _, h.live_behind ht k, hside, hb⟩
    | false =>
      obtain ⟨j, hj⟩ := (Cell.bounded_eq_false_iff _).1 hb
      have hjk : j = (m.twin (t, k)).2 := by
        rcases Triple.eq_or_next_or_previous j (m.twin (t, k)).2 with rfl | rfl | rfl
        · rfl
        · exact absurd (hj.symm.trans (congrArg Side.tail hside)) nofun
        · exact absurd (hj.symm.trans (congrArg Side.head hside)) nofun
      exact absurd (mem_outerSides.2 ⟨_, h.live_behind ht k, Cell.hullSide?_eq_some_iff.2 ⟨j, hj, hjk ▸ hside⟩⟩) hout

/-- An edge is counted twice, or once on the hull. -/
theorem count_inner (h : m.ClosedSurface sites) (hs : s ∈ m.innerSides) :
    (m.innerSides.map fun s => Edge.between s.1 s.2).count (Edge.between s.1 s.2) = if s ∈ m.outerSides then 1 else 2 := by
  rw [Triangulation.count_between (h.inner_ne hs), List.count_eq_one_of_mem h.innerSides_nodup hs]
  change 1 + m.innerSides.count s.swap = _
  split
  · rename_i hout
    rw [List.count_eq_zero.2 fun hswap => (h.inner_swap_iff hs).1 hswap hout]
  · rename_i hout
    rw [List.count_eq_one_of_mem h.innerSides_nodup ((h.inner_swap_iff hs).2 hout)]

theorem outer_eq_of_between (h : m.ClosedSurface sites) {r : Nat × Nat} (hr : r ∈ m.outerSides) (hs : s ∈ m.outerSides)
    (e : Edge.between r.1 r.2 = Edge.between s.1 s.2) : r = s := by
  rcases Edge.between_eq_iff.1 e with ⟨h1, h2⟩ | ⟨h1, h2⟩
  · exact Prod.ext h1 h2
  · have hswap : s.swap ∈ m.innerSides := by
      have := h.inner_of_outer hr
      rwa [show r = s.swap from Prod.ext h1 h2] at this
    exact absurd hs ((h.inner_swap_iff (h.inner_of_outer hs)).1 hswap)

end ClosedSurface

end Mesh

end DelaunaySurface
