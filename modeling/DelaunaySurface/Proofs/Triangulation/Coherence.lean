import DelaunaySurface.Proofs.Triangulation.Edges
import DelaunaySurface.Proofs.Triangulation.Schedule
/-!
# The tables agree

The tables of a triangulation are made from one mesh in different ways. `Coherent` says how they fit
together; the tables of any closed surface do (`coherent_ofMesh`), so those of every build do.
-/

namespace DelaunaySurface

/-- The tables of a triangulation agree with each other. -/
structure Triangulation.Coherent (t : Triangulation) : Prop where
  /-- Across an edge lies the other triangle with that edge in the other direction. -/
  neighbour_iff : ∀ i k j, i < t.size →
    (t.neighbour? i k = some j ↔ j < t.size ∧ j ≠ i ∧ ∃ l, (t.triangle j).side l = ((t.triangle i).side k).swap)
  /-- A neighbour leads back across the same edge. -/
  neighbour_back : ∀ i k j l, i < t.size → t.neighbour? i k = some j →
    (t.triangle j).side l = ((t.triangle i).side k).swap → t.neighbour? j l = some i
  neighbour_none_iff : ∀ i k, i < t.size → (t.neighbour? i k = none ↔ (t.triangle i).edge k ∈ t.hullEdges)
  incidence : ∀ e n, (e, n) ∈ t.edgeIncidence → n = 1 ∨ n = 2
  hullEdges_nodup : t.hullEdges.Nodup
  mem_hullEdges : ∀ e, e ∈ t.hullEdges ↔ (e, 1) ∈ t.edgeIncidence
  hull_nodup : t.hull.Nodup
  /-- The hull begins at its lowest index. -/
  hull_least : ∀ a b, t.hull.head? = some a → b ∈ t.hull → a ≤ b
  /-- Two samples that follow one another on the hull do so on a triangle. -/
  hull_side : ∀ s ∈ t.hullSides, ∃ i < t.size, ∃ k, (t.triangle i).side k = s
  isOnHull_iff : ∀ v, t.isOnHull v = true ↔ v ∈ t.hull
  /-- The triangle known at a sample is the first one with it. -/
  incident_eq : ∀ v, t.incidentTriangle? v = (List.range t.size).find? fun i => (t.triangle i).hasCorner v
  edge_count : 2 * t.edges.length = 3 * t.size + t.hull.length

/-! ## First triangles -/

theorem getD_foldl_known {l : List Nat} {a : Array (Option Nat)} {n v : Nat} (hv : v < a.size) :
    (l.foldl (fun a w => a.modify w fun known => known <|> some n) a).getD v none =
      if v ∈ l then a.getD v none <|> some n else a.getD v none := by
  induction l generalizing a with
  | nil => rfl
  | cons w l ih =>
    rw [List.foldl_cons, ih (by simpa using hv), getD_modify]
    by_cases hw : w = v
    · subst hw
      cases a.getD w none <;> simp [hv]
    · simp [hw, Ne.symm hw]

theorem getD_foldl_incidence {l : List (Triangle × Nat)} {a : Array (Option Nat)} {v : Nat} (hv : v < a.size) :
    (l.foldl (fun table (t, n) => t.toList.foldl (fun table w => table.modify w fun known => known <|> some n) table) a).getD
      v none = (a.getD v none <|> (l.find? fun p => p.1.hasCorner v).map Prod.snd) := by
  induction l generalizing a with
  | nil => cases h : a.getD v none <;> simp [h]
  | cons p l ih =>
    rw [List.foldl_cons, ih, getD_foldl_known hv, List.find?_cons]
    · by_cases hp : v ∈ p.1.toList
      · have : p.1.hasCorner v = true := decide_eq_true hp
        rw [if_pos hp, this]
        cases a.getD v none <;> rfl
      · have : p.1.hasCorner v = false := decide_eq_false hp
        rw [if_neg hp, this]
    · exact (size_foldl_modify id (fun _ known => known <|> some p.2) p.1.toList a).symm ▸ hv

theorem size_incidenceOf (count : Nat) (triangles : List Triangle) : (incidenceOf count triangles).size = count := by
  have hfold : ∀ (l : List (Triangle × Nat)) (a : Array (Option Nat)), (l.foldl (fun table (t, n) =>
      t.toList.foldl (fun table w => table.modify w fun known => known <|> some n) table) a).size = a.size := by
    intro l
    induction l with
    | nil => exact fun _ => rfl
    | cons p l ih => exact fun a => (ih _).trans (size_foldl_modify id (fun _ known => known <|> some p.2) p.1.toList a)
  rw [incidenceOf, hfold, Array.size_replicate]

/-- The table of first triangles, by a search for each sample. -/
theorem incidenceOf_eq {count : Nat} {triangles : List Triangle} (h : ∀ t ∈ triangles, ∀ v ∈ t, v < count) (v : Nat) :
    (incidenceOf count triangles).getD v none =
      (List.range triangles.length).find? fun n => (triangles.getD n ⟨0, 0, 0⟩).hasCorner v := by
  by_cases hv : v < count
  · rw [incidenceOf, getD_foldl_incidence (by simpa using hv), zip_range triangles ⟨0, 0, 0⟩, List.find?_map]
    simp [Function.comp_def, hv]
  · have hnone : (incidenceOf count triangles).getD v none = none := by
      rw [Array.getD_eq_getD_getElem?, Array.getElem?_eq_none (by rw [size_incidenceOf]; omega)]
      rfl
    rw [hnone, eq_comm, List.find?_eq_none]
    intro n hn hc
    rw [List.mem_range] at hn
    rw [List.getD_eq_getElem?_getD, List.getElem?_eq_getElem hn, Option.getD_some] at hc
    exact hv (h _ (List.getElem_mem hn) v (of_decide_eq_true hc))

namespace Triangulation

variable {m : Mesh} {sites : List Nat} {count p : Nat} {k : Fin 3} {v : Nat}

/-! ## The tables of a mesh -/

theorem triangles_ofMesh : (ofMesh count m).triangles = (m.triangleSlots.map m.triangleAt).toArray :=
  congrArg List.toArray (Mesh.filterMap_triangle? m)

theorem size_ofMesh : (ofMesh count m).size = m.triangleSlots.length := by
  rw [Triangulation.size, triangles_ofMesh, List.size_toArray, List.length_map]

theorem triangle_ofMesh (hp : p < m.triangleSlots.length) : (ofMesh count m).triangle p = m.triangleAt (m.slotOf p) := by
  rw [triangle, triangles_ofMesh, Mesh.slotOf_eq hp]
  simp [hp]

theorem neighbour?_ofMesh (hp : p < m.triangleSlots.length) :
    (ofMesh count m).neighbour? p k = m.numbering.getD (m.behind (m.slotOf p) k) none := by
  rw [neighbour?, ofMesh, Mesh.slotOf_eq hp]
  simp only [Array.getD_eq_getD_getElem?, List.getElem?_toArray, List.getElem?_map, List.getElem?_eq_getElem hp, Option.map_some,
    Option.getD_some, Triple.get_map]

theorem edgeIncidence_ofMesh : (ofMesh count m).edgeIncidence =
    countRuns ((m.innerSides.map fun s => Edge.between s.1 s.2).mergeSort Edge.le) := by
  have hedges : (m.triangleSlots.map m.triangleAt).flatMap Triangle.edges =
      m.innerSides.map fun s => Edge.between s.1 s.2 := by
    rw [Mesh.innerSides, List.map_flatMap, List.flatMap_map]
    rfl
  rw [edgeIncidence, triangles_ofMesh, List.toList_toArray, hedges]

theorem hull_ofMesh : (ofMesh count m).hull = hullOf (m.successors count) := rfl

theorem hullEdges_ofMesh : (ofMesh count m).hullEdges =
    (cyclicPairs (hullOf (m.successors count))).map fun s => Edge.between s.1 s.2 := rfl

section Closed
variable (h : m.ClosedSurface sites) (hc : ∀ i ∈ sites, i < count)

include h

theorem mem_edgeIncidence_ofMesh {e : Edge} {n : Nat} : (e, n) ∈ (ofMesh count m).edgeIncidence ↔
    ∃ s ∈ m.innerSides, Edge.between s.1 s.2 = e ∧ n = if s ∈ m.outerSides then 1 else 2 := by
  rw [edgeIncidence_ofMesh, mem_countRuns (List.pairwise_mergeSort Edge.le_trans Edge.le_total _), List.mem_mergeSort,
    (List.mergeSort_perm _ _).count_eq, List.mem_map]
  constructor
  · rintro ⟨⟨s, hs, rfl⟩, rfl⟩
    exact ⟨s, hs, rfl, h.count_inner hs⟩
  · rintro ⟨s, hs, rfl, rfl⟩
    exact ⟨⟨s, hs, rfl⟩, (h.count_inner hs).symm⟩

theorem neighbour?_ofMesh_iff {q : Nat} (hp : p < m.triangleSlots.length) : (ofMesh count m).neighbour? p k = some q ↔
    q < m.triangleSlots.length ∧ ∃ l, (m.triangleAt (m.slotOf q)).side l = ((m.triangleAt (m.slotOf p)).side k).swap := by
  obtain ⟨hlive, hb⟩ := Mesh.slotOf_mem hp
  rw [neighbour?_ofMesh hp, Mesh.numbering_eq_some_iff]
  refine and_congr_right fun hq => ?_
  obtain ⟨hlive', hb'⟩ := Mesh.slotOf_mem hq
  constructor
  · intro e
    refine ⟨(m.twin (m.slotOf p, k)).2, (Mesh.side_eq_reverse_iff hb' hb).1 ?_⟩
    rw [e]
    exact h.side_twin hlive k
  · rintro ⟨l, e⟩
    exact (h.behind_eq hlive hlive' ((Mesh.side_eq_reverse_iff hb' hb).2 e)).1.symm

/-- There is no triangle across an edge just when it is a hull side. -/
theorem neighbour?_ofMesh_none (hp : p < m.triangleSlots.length) :
    (ofMesh count m).neighbour? p k = none ↔ (m.triangleAt (m.slotOf p)).side k ∈ m.outerSides := by
  rw [← not_iff_not, ← h.inner_swap_iff (Mesh.mem_innerSides_slotOf.2 ⟨p, hp, k, rfl⟩), Mesh.mem_innerSides_slotOf,
    ← ne_eq, Option.ne_none_iff_exists']
  simp only [neighbour?_ofMesh_iff h hp]

include hc

theorem mem_hullEdges_ofMesh {e : Edge} :
    e ∈ (ofMesh count m).hullEdges ↔ ∃ s ∈ m.outerSides, Edge.between s.1 s.2 = e := by
  rw [hullEdges_ofMesh, List.mem_map]
  simp only [h.mem_cyclicPairs_hull hc]

theorem hullEdges_ofMesh_nodup : (ofMesh count m).hullEdges.Nodup := by
  rw [hullEdges_ofMesh]
  refine List.Nodup.map_on (fun r hr s hs e => ?_) (cyclicPairs_nodup (h.hull_nodup hc))
  exact h.outer_eq_of_between ((h.mem_cyclicPairs_hull hc).1 hr) ((h.mem_cyclicPairs_hull hc).1 hs) e

theorem mem_hullEdges_ofMesh_iff {e : Edge} : e ∈ (ofMesh count m).hullEdges ↔ (e, 1) ∈ (ofMesh count m).edgeIncidence := by
  rw [mem_hullEdges_ofMesh h hc, mem_edgeIncidence_ofMesh h]
  constructor
  · rintro ⟨s, hs, e⟩
    exact ⟨s, h.inner_of_outer hs, e, by rw [if_pos hs]⟩
  · rintro ⟨s, -, e, h1⟩
    split at h1
    · exact ⟨s, ‹_›, e⟩
    · cases h1

theorem edge_count_ofMesh :
    2 * (ofMesh count m).edges.length = 3 * m.triangleSlots.length + (hullOf (m.successors count)).length := by
  have hruns : ∀ r ∈ (ofMesh count m).edgeIncidence, r.2 = 1 ∨ r.2 = 2 := by
    rintro ⟨e, n⟩ hr
    obtain ⟨s, -, -, rfl⟩ := (mem_edgeIncidence_ofMesh h).1 hr
    split <;> simp
  have hsum : ((ofMesh count m).edgeIncidence.map Prod.snd).sum = 3 * m.triangleSlots.length := by
    rw [edgeIncidence_ofMesh, sum_countRuns, List.length_mergeSort, List.length_map, Mesh.length_innerSides]
  have hkeys : ((ofMesh count m).edgeIncidence.map Prod.fst).Nodup := by
    rw [edgeIncidence_ofMesh]
    exact (countRuns_sorted (List.pairwise_mergeSort Edge.le_trans Edge.le_total _)).1
  -- The runs of one are the hull edges.
  have hone : (((ofMesh count m).edgeIncidence.filter (·.2 = 1)).map Prod.fst).Perm (ofMesh count m).hullEdges := by
    refine (List.perm_ext_iff_of_nodup (hkeys.sublist (List.filter_sublist.map _)) (hullEdges_ofMesh_nodup h hc)).2 fun e => ?_
    rw [mem_hullEdges_ofMesh_iff h hc, List.mem_map]
    constructor
    · rintro ⟨⟨f, n⟩, hr, rfl⟩
      obtain ⟨hr, hn⟩ := List.mem_filter.1 hr
      rwa [← show n = 1 by simpa using hn]
    · exact fun he => ⟨_, List.mem_filter.2 ⟨he, by simp⟩, rfl⟩
  have hlen := hone.length_eq
  rw [List.length_map, hullEdges_ofMesh, List.length_map, length_cyclicPairs] at hlen
  rw [edges, List.length_map, two_mul_length_of_runs hruns, hsum, hlen]

theorem isOnHull_ofMesh : (ofMesh count m).isOnHull v = true ↔ v ∈ hullOf (m.successors count) := by
  have hlt : ∀ i ∈ hullOf (m.successors count), i < count := fun i hi => by
    obtain ⟨b, hb⟩ := (h.mem_hull hc).1 hi
    exact hc i (h.outer_among hb).1
  change ((hullOf (m.successors count)).foldl (fun table i => table.setIfInBounds i true)
    (Array.replicate count false)).getD v false = true ↔ _
  by_cases hv : v ∈ hullOf (m.successors count)
  · have := getD_fill_of_mem id (fun _ => true) (a := Array.replicate count false) (d := false)
      (by simpa using h.hull_nodup hc) hv (by simpa using hlt v hv)
    simpa [hv] using this
  · have := getD_fill_of_notMem id (fun _ => true) (a := Array.replicate count false) (d := false)
      (l := hullOf (m.successors count)) (j := v) (fun b hb e => hv (e ▸ hb))
    simp only [id] at this
    rw [this]
    simp only [hv, iff_false, Array.getD_eq_getD_getElem?, Array.getElem?_replicate]
    split <;> simp

theorem incident_ofMesh : (ofMesh count m).incidentTriangle? v =
    (List.range m.triangleSlots.length).find? fun i => ((ofMesh count m).triangle i).hasCorner v := by
  have hlt : ∀ t ∈ m.triangleSlots.map m.triangleAt, ∀ v ∈ t, v < count := by
    intro t ht v hv
    obtain ⟨u, hu, rfl⟩ := List.mem_map.1 ht
    obtain ⟨hlive, hb⟩ := Mesh.mem_triangleSlots.1 hu
    obtain ⟨k, rfl⟩ := (Triple.mem_iff _ _).1 hv
    exact hc _ (h.among u k _ hlive (Mesh.corner_eq_site hb k))
  change (incidenceOf count (m.triangleSlots.filterMap fun t => (m.cell t).triangle?)).getD v none = _
  rw [Mesh.filterMap_triangle?, incidenceOf_eq hlt, List.length_map]
  simp only [triangle, triangles_ofMesh, Array.getD_eq_getD_getElem?, List.getElem?_toArray, List.getD_eq_getElem?_getD]

/-- The tables of a closed surface agree with each other. -/
theorem coherent_ofMesh : (ofMesh count m).Coherent where
  neighbour_iff i k j hi := by
    rw [size_ofMesh] at hi ⊢
    rw [neighbour?_ofMesh_iff h hi, triangle_ofMesh hi]
    refine and_congr_right fun hj => ?_
    rw [triangle_ofMesh hj, iff_and_self]
    rintro ⟨l, e⟩ rfl
    -- No triangle has an edge in both directions.
    obtain ⟨hlive, hb⟩ := Mesh.slotOf_mem hi
    exact h.behind_ne hlive k (h.behind_eq hlive hlive ((Mesh.side_eq_reverse_iff hb hb).2 e)).1
  neighbour_back i k j l hi hn e := by
    rw [size_ofMesh] at hi
    obtain ⟨hj, -⟩ := (neighbour?_ofMesh_iff h hi).1 hn
    rw [triangle_ofMesh hi, triangle_ofMesh hj] at e
    exact (neighbour?_ofMesh_iff h hj).2 ⟨hi, k, by rw [e, Prod.swap_swap]⟩
  neighbour_none_iff i k hi := by
    rw [size_ofMesh] at hi
    rw [neighbour?_ofMesh_none h hi, mem_hullEdges_ofMesh h hc, triangle_ofMesh hi, Triangle.edge_eq]
    have hin : (m.triangleAt (m.slotOf i)).side k ∈ m.innerSides := Mesh.mem_innerSides_slotOf.2 ⟨i, hi, k, rfl⟩
    refine ⟨fun hs => ⟨_, hs, rfl⟩, ?_⟩
    rintro ⟨s, hs, e⟩
    rcases Edge.between_eq_iff.1 e with ⟨h1, h2⟩ | ⟨h1, h2⟩
    · rwa [← show s = _ from Prod.ext h1 h2]
    · have hswap : s.swap ∈ m.innerSides := by rwa [show s.swap = _ from Prod.ext h2 h1]
      exact absurd hs ((h.inner_swap_iff (h.inner_of_outer hs)).1 hswap)
  incidence e n hr := by
    obtain ⟨s, -, -, rfl⟩ := (mem_edgeIncidence_ofMesh h).1 hr
    split <;> simp
  hullEdges_nodup := hullEdges_ofMesh_nodup h hc
  mem_hullEdges e := mem_hullEdges_ofMesh_iff h hc
  hull_nodup := h.hull_nodup hc
  hull_least a b ha hb := h.head_hull_le hc ha hb
  hull_side s hs := by
    obtain ⟨p, hp, k, e⟩ := Mesh.mem_innerSides_slotOf.1 (h.inner_of_outer ((h.mem_cyclicPairs_hull hc).1 hs))
    exact ⟨p, size_ofMesh.symm ▸ hp, k, by rw [triangle_ofMesh hp, e]⟩
  isOnHull_iff v := isOnHull_ofMesh h hc
  incident_eq v := size_ofMesh.symm ▸ incident_ofMesh h hc
  edge_count := size_ofMesh.symm ▸ edge_count_ofMesh h hc

end Closed

/-! ## Every build -/

theorem coherent_of_mesh {α : Type} [Scalar α] {settings : BuildSettings α} {s : Samples α} (h : mesh settings s = .ok m) :
    (ofMesh s.size m).Coherent := by
  obtain ⟨sites, hsurface, hperm⟩ := closedSurface_of_mesh h
  exact coherent_ofMesh hsurface fun i hi => List.mem_range.1 (hperm.mem_iff.1 hi)

/-- The tables of every build that succeeds agree with each other, whatever the numbers, the tolerance and
the budget are. -/
theorem coherent_of_build {α : Type} [Scalar α] {settings : BuildSettings α} {s : Samples α} {t : Triangulation}
    (h : build settings s = .ok t) : t.Coherent := by
  obtain ⟨m, hm, rfl⟩ := build_eq_ok.1 h
  exact coherent_of_mesh hm

theorem coherent_of_build_kite : ∃ t, build ⟨100, ⟨0⟩⟩ kite = .ok t ∧ t.Coherent := by
  obtain ⟨t, ht⟩ := build_kite
  exact ⟨t, ht, coherent_of_build ht⟩

end Triangulation

end DelaunaySurface
