import DelaunaySurface.Proofs.Mesh.Gluing
import DelaunaySurface.Proofs.Triangulation.Coherence
/-!
# Edge to edge

The triangles of a build lie edge to edge: an edge belongs to one of them on the hull and to two elsewhere,
and no two of them have more than one edge in common (`edgeToEdge_of_build`).
-/

namespace DelaunaySurface

open Triple (next previous)

namespace Mesh

variable {m : Mesh} {sites : List Nat} {t u : Nat}

namespace ClosedSurface

variable (h : m.ClosedSurface sites)

include h

/-- The edges of a triangle differ. -/
theorem edges_nodup (ht : m.Live t) (hb : (m.cell t).bounded = true) : (m.triangleAt t).edges.Nodup := by
  refine List.Nodup.map (fun j k e => ?_) (by decide)
  rw [Triangle.edge_eq, Triangle.edge_eq, Edge.between_eq_iff] at e
  rcases e with ⟨h1, h2⟩ | ⟨h1, h2⟩
  · refine (Cell.side_eq_iff (h.proper t ht) j k).1 ((side_eq_site hb j).trans ?_)
    rw [h1, h2]
    exact (side_eq_site hb k).symm
  · -- No triangle has an edge in both directions.
    exact absurd (h.behind_eq ht ht ((side_eq_reverse_iff hb hb).2 (Prod.ext h1 h2))).1 (h.behind_ne ht k)

/-- Where cells are glued along single sides, two triangles have one edge in common at most. -/
theorem edge_unique (hm : m.GluedOnce) (ht : m.Live t) (hu : m.Live u) (htb : (m.cell t).bounded = true)
    (hub : (m.cell u).bounded = true) (hne : t ≠ u) {e f : Edge} (he : e ∈ (m.triangleAt t).edges)
    (he' : e ∈ (m.triangleAt u).edges) (hf : f ∈ (m.triangleAt t).edges) (hf' : f ∈ (m.triangleAt u).edges) : e = f := by
  have hbehind : ∀ {j k}, (m.triangleAt u).edge k = (m.triangleAt t).edge j → m.behind t j = u := by
    intro j k hedge
    rw [Triangle.edge_eq, Triangle.edge_eq, Edge.between_eq_iff] at hedge
    rcases hedge with ⟨h1, h2⟩ | ⟨h1, h2⟩
    · refine absurd (h.side_unique t u j k ht hu ?_) hne
      rw [side_eq_site htb, side_eq_site hub, h1, h2]
    · exact (h.behind_eq ht hu ((side_eq_reverse_iff hub htb).2 (Prod.ext h1 h2))).1
  obtain ⟨j, -, rfl⟩ := List.mem_map.1 he
  obtain ⟨k, -, rfl⟩ := List.mem_map.1 hf
  obtain ⟨j', -, hj⟩ := List.mem_map.1 he'
  obtain ⟨k', -, hk⟩ := List.mem_map.1 hf'
  rw [hm t ht ((hbehind hj).trans (hbehind hk).symm)]

end ClosedSurface

end Mesh

namespace Triangulation

variable {t : Triangulation} {m : Mesh} {sites : List Nat} {count n : Nat} {e : Edge}

theorem mem_edgeIncidence : (e, n) ∈ t.edgeIncidence ↔
    e ∈ t.triangles.toList.flatMap Triangle.edges ∧ n = (t.triangles.toList.flatMap Triangle.edges).count e := by
  rw [edgeIncidence, mem_countRuns (List.pairwise_mergeSort Edge.le_trans Edge.le_total _), List.mem_mergeSort,
    (List.mergeSort_perm _ _).count_eq]

theorem mem_edges : e ∈ t.edges ↔ e ∈ t.triangles.toList.flatMap Triangle.edges := by
  rw [edges, edgeIncidence, mem_countRuns_keys, List.mem_mergeSort]

/-- The number of triangles at an edge. -/
theorem Coherent.count_edge (h : t.Coherent) (he : e ∈ t.edges) :
    (t.triangles.toList.flatMap Triangle.edges).count e = if e ∈ t.hullEdges then 1 else 2 := by
  have hmem := mem_edgeIncidence.2 ⟨mem_edges.1 he, rfl⟩
  split
  · next hull => exact (mem_edgeIncidence.1 ((h.mem_hullEdges e).1 hull)).2.symm
  · next hull =>
    refine (h.incidence e _ hmem).resolve_left fun hone => hull ((h.mem_hullEdges e).2 ?_)
    rwa [hone] at hmem

/-- Triangles that lie edge to edge. -/
structure EdgeToEdge (t : Triangulation) : Prop where
  edges_nodup : ∀ c ∈ t.triangles.toList, c.edges.Nodup
  /-- Two triangles have one edge in common at most. -/
  edge_unique : t.triangles.toList.Pairwise fun c d => ∀ e ∈ c.edges, e ∈ d.edges → ∀ f ∈ c.edges, f ∈ d.edges → e = f
  /-- An edge on the hull belongs to one triangle, any other to two. -/
  count_edge : ∀ e ∈ t.edges, (t.triangles.toList.flatMap Triangle.edges).count e = if e ∈ t.hullEdges then 1 else 2

theorem EdgeToEdge.eq_of_mem (h : t.EdgeToEdge) {c d : Triangle} {f : Edge} (hc : c ∈ t.triangles.toList)
    (hd : d ∈ t.triangles.toList) (hne : c ≠ d) (he : e ∈ c.edges) (he' : e ∈ d.edges) (hf : f ∈ c.edges) (hf' : f ∈ d.edges) : e = f := by
  have : Std.Symm fun c d : Triangle => ∀ e ∈ c.edges, e ∈ d.edges → ∀ f ∈ c.edges, f ∈ d.edges → e = f :=
    ⟨fun c d h e he he' f hf hf' => h e he' he f hf' hf⟩
  exact h.edge_unique.forall hc hd hne e he he' f hf hf'

theorem edgeToEdge_ofMesh (h : m.ClosedSurface sites) (hm : m.GluedOnce) (hc : ∀ i ∈ sites, i < count) :
    (ofMesh count m).EdgeToEdge := by
  refine ⟨?_, ?_, fun e => (coherent_ofMesh h hc).count_edge⟩ <;> rw [triangles_ofMesh, List.toList_toArray]
  · refine List.forall_mem_map.2 fun t ht => ?_
    obtain ⟨hlive, hb⟩ := Mesh.mem_triangleSlots.1 ht
    exact h.edges_nodup hlive hb
  · refine List.pairwise_map.2 (m.triangleSlots_nodup.imp_of_mem fun ht hu hne e he he' f hf hf' => ?_)
    obtain ⟨ht, htb⟩ := Mesh.mem_triangleSlots.1 ht
    obtain ⟨hu, hub⟩ := Mesh.mem_triangleSlots.1 hu
    exact h.edge_unique hm ht hu htb hub hne he he' hf hf'

/-- The triangles of every build that succeeds lie edge to edge, whatever the numbers are. -/
theorem edgeToEdge_of_build {α : Type} [Scalar α] {settings : BuildSettings α} {s : Samples α}
    (h : build settings s = .ok t) : t.EdgeToEdge := by
  obtain ⟨m, hm, rfl⟩ := build_eq_ok.1 h
  obtain ⟨-, first, others, hs, hrun⟩ := mesh_eq_ok.1 hm
  have hseed := Schedule.closedSurface_seed hs
  have hnodup := Schedule.schedule_nodup hs
  have hglued := Mesh.gluedOnce_insertAll hseed (Mesh.gluedOnce_seed first) hnodup hrun
  exact edgeToEdge_ofMesh (hseed.insertAll hnodup hrun) hglued fun i hi => Schedule.lt_of_mem_schedule hs hi

end Triangulation

end DelaunaySurface
