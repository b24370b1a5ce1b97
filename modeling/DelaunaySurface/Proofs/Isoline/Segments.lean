import DelaunaySurface.Proofs.Isoline.Steps
import DelaunaySurface.Proofs.Triangulation.EdgeToEdge
/-!
# Segments

A level crosses none of the edges of a triangle or two of them. Where triangles lie edge to edge, each crossed
edge has one segment on the hull and two elsewhere, so the segments go along lines and loops (`strings_segments`).
-/

namespace DelaunaySurface

namespace Isoline

variable {α : Type} [Scalar α] {t : Triangulation} {s : Samples α} {level : α} {c : Triangle} {e f : Edge} {u : Edge × Edge}
  {l : List Triangle}

theorem cuts_between (p q : Nat) : cuts s level (.between p q) = (reaches s level p != reaches s level q) := by
  unfold Edge.between
  split
  · rfl
  · exact bne_comm

/-- A triangle has corners on both sides of the level or not. -/
theorem crossed_eq (s : Samples α) (level : α) (c : Triangle) :
    (c.edges.filter (cuts s level) = [] ∧ segment? s level c = none) ∨
      ∃ u, c.edges.filter (cuts s level) = [u.1, u.2] ∧ segment? s level c = some u := by
  have hparity : c.edges.filter (cuts s level) = [] ∨ ∃ e f, c.edges.filter (cuts s level) = [e, f] := by
    simp only [Triangle.edges, Triple.indices, Triangle.edge, Triple.next, Triple.previous, List.map_cons, List.map_nil,
      List.filter_cons, cuts_between]
    cases reaches s level (c.get 0) <;> cases reaches s level (c.get 1) <;> cases reaches s level (c.get 2) <;> simp
  rcases hparity with h | ⟨e, f, h⟩
  · exact .inl ⟨h, by rw [segment?, h]⟩
  · exact .inr ⟨(e, f), h, by rw [segment?, h]⟩

theorem segment?_eq_some (h : segment? s level c = some u) : c.edges.filter (cuts s level) = [u.1, u.2] := by
  rcases crossed_eq s level c with ⟨-, hnone⟩ | ⟨v, hv, hsome⟩
  · cases hnone.symm.trans h
  · cases hsome.symm.trans h
    exact hv

theorem isSome_segment? : (segment? s level c).isSome = c.edges.any (cuts s level) := by
  rw [Bool.eq_iff_iff, List.any_eq_true]
  simp only [← List.mem_filter]
  rcases crossed_eq s level c with ⟨hnil, hnone⟩ | ⟨u, hu, hsome⟩
  · simp [hnil, hnone]
  · simp [hu, hsome]

/-- The edges between which a triangle is crossed. -/
theorem mem_of_segment? (h : segment? s level c = some u) (he : e ∈ ends u) : e ∈ c.edges ∧ cuts s level e = true := by
  rw [← List.mem_filter, segment?_eq_some h]
  simpa [ends] using he

/-- The crossed edges of all triangles, in their order. -/
theorem flatMap_segments : (segments t s level).flatMap (fun u => [u.1, u.2]) =
    (t.triangles.toList.flatMap Triangle.edges).filter (cuts s level) := by
  rw [segments, List.filter_flatMap]
  induction t.triangles.toList with
  | nil => rfl
  | cons c l ih =>
    rw [List.flatMap_cons, ← ih]
    rcases crossed_eq s level c with ⟨hnil, hnone⟩ | ⟨u, hu, hsome⟩
    · rw [List.filterMap_cons_none hnone, hnil, List.nil_append]
    · rw [List.filterMap_cons_some hsome, hu, List.flatMap_cons]

/-- An edge has a link for each time it is crossed. -/
theorem length_linked_segments : (linked (linksOf (segments t s level)) e).length =
    if cuts s level e then (t.triangles.toList.flatMap Triangle.edges).count e else 0 := by
  have hpartners : ∀ u : Edge × Edge, (partners e u).length = [u.1, u.2].count e := fun u => by
    simp only [partners, List.count_cons, List.count_nil, beq_iff_eq]
    split <;> split <;> rfl
  have hcount : (linked (linksOf (segments t s level)) e).length =
      ((segments t s level).flatMap fun u => [u.1, u.2]).count e := by
    rw [linked_linksOf, List.length_flatMap, List.count_flatMap]
    exact congrArg List.sum (List.map_congr_left fun u _ => hpartners u)
  rw [hcount, flatMap_segments]
  split
  · next h => exact List.count_filter h
  · next h => exact List.count_eq_zero.2 fun he => h (List.mem_filter.1 he).2

section EdgeToEdge

variable (h : t.EdgeToEdge)

include h

/-- A crossed edge on the hull has one segment, any other two. -/
theorem length_linked_eq : (linked (linksOf (segments t s level)) e).length =
    if e ∈ t.edges ∧ cuts s level e = true then if e ∈ t.hullEdges then 1 else 2 else 0 := by
  rw [length_linked_segments]
  by_cases hc : cuts s level e = true <;> by_cases he : e ∈ t.edges
  · simp only [hc, he, and_self, if_true, h.count_edge e he]
  · simp [hc, he, List.count_eq_zero.2 fun hmem => he (Triangulation.mem_edges.2 hmem)]
  · simp [hc]
  · simp [hc]

theorem ne_of_segment? (hc : c ∈ t.triangles.toList) (hu : segment? s level c = some u) : u.1 ≠ u.2 := by
  have hnodup := (h.edges_nodup c hc).filter (cuts s level)
  rw [segment?_eq_some hu] at hnodup
  simpa using hnodup

/-- Different triangles have different segments. -/
theorem ends_segments_nodup : ((segments t s level).map ends).Nodup := by
  refine List.pairwise_map.2 (List.pairwise_filterMap.2 (h.edge_unique.imp_of_mem fun hc _ hcd u hu v hv e => ?_))
  have hd : ∀ f ∈ ends u, f ∈ _ := fun f hf => (mem_of_segment? hv (e ▸ hf)).1
  exact ne_of_segment? h hc hu (hcd u.1 (mem_of_segment? hu (Sym2.mem_mk_left ..)).1 (hd u.1 (Sym2.mem_mk_left ..)) u.2
    (mem_of_segment? hu (Sym2.mem_mk_right ..)).1 (hd u.2 (Sym2.mem_mk_right ..)))

theorem strings_segments : Strings (linksOf (segments t s level)) := by
  refine strings_linksOf (fun u hu => ?_) (ends_segments_nodup h) fun e => ?_
  · obtain ⟨c, hc, hu⟩ := List.mem_filterMap.1 hu
    exact ne_of_segment? h hc hu
  · rw [length_linked_eq h]
    split
    · split <;> omega
    · omega

end EdgeToEdge

end Isoline

end DelaunaySurface
