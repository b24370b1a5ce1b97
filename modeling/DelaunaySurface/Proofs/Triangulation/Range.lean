import DelaunaySurface.Proofs.Isoline.Contours
import DelaunaySurface.Proofs.Triangulation.Engines
import DelaunaySurface.Proofs.Triangulation.Similarity
/-!
# Nothing out of range

Cells and triangles name samples and one another by numbers, and a number that is looked up is one of those there are:
in the mesh at any time of a build (`inRange_of_run`), in the tables of every build (`inRange_of_build`) and along its
isolines (`inRange_of_path`). A hull is never empty, so every point is located (`exists_locate?`).
-/

namespace DelaunaySurface

/-! ## The mesh -/

namespace Mesh

variable {m : Mesh} {sites : List Nat} {n : Nat}

/-- A mesh that names samples below `n` and cells in use only. -/
structure InRange (m : Mesh) (n : Nat) : Prop where
  live_lt : ∀ t, m.Live t → t < m.cells.size
  free_lt : ∀ t ∈ m.free, t < m.cells.size
  mark_size : m.mark.size = m.cells.size
  hint : m.Live m.hint
  across : ∀ t, m.Live t → ∀ k, m.Live (m.behind t k)
  corner : ∀ t, m.Live t → ∀ k i, (m.cell t).corners.get k = .site i → i < n
  /-- One corner at infinity at most, so that the others are samples. -/
  infinity : ∀ t, m.Live t → ∀ j k, (m.cell t).corners.get j = .infinity → (m.cell t).corners.get k = .infinity → j = k
  /-- An insertion clears cells in use and joins the new ones to cells in use. -/
  cavity : ∀ budget v i c, m.cavity budget v i = .ok c →
    (∀ t ∈ c.members, m.Live t) ∧ ∀ s ∈ (m.opened v).rim c, m.Live s.outside

theorem ClosedSurface.inRange (h : m.ClosedSurface sites) (hlt : ∀ i ∈ sites, i < n) : m.InRange n where
  live_lt _ := lt_of_live
  free_lt t ht := ((h.mem_free t).1 ht).1
  mark_size := h.mark_size
  hint := h.hint_live
  across t ht k := h.live_behind ht k
  corner t ht k i hi := hlt i (h.among t k i ht hi)
  infinity t ht j k hj hk := h.proper t ht (hj.trans hk.symm)
  cavity budget v i c hc := by
    have hpatch := h.patch_of_cavity hc
    refine ⟨fun t ht => hpatch.live h t (Array.mem_def.1 ht), fun s hs => ?_⟩
    rw [h.rim_of_cavity hc] at hs
    obtain ⟨t, ht, k, -, rfl⟩ := mem_rimOf.1 hs
    exact h.live_behind (hpatch.live h t ht) k

end Mesh

namespace Triangulation

variable {α : Type} [Scalar α] {settings : BuildSettings α} {s : Samples α} {t : Triangulation} {n : Nat}

/-- At any time of a build the mesh is in range. -/
theorem inRange_of_run {first : Triple Nat} {done rest : List Nat} {m : Mesh}
    (hs : Schedule.seed settings.tolerance s (Schedule.order s) = .ok (first, done ++ rest))
    (hm : (Mesh.seed first).insertAll settings.budget (verdicts settings.tolerance s) done = .ok m) : m.InRange s.size := by
  have hn := Schedule.schedule_nodup hs
  rw [← List.append_assoc] at hn
  refine ((Schedule.closedSurface_seed hs).insertAll (List.nodup_append.1 hn).1 hm).inRange fun i hi => ?_
  refine Schedule.lt_of_mem_schedule hs ?_
  rw [← List.append_assoc]
  exact List.mem_append_left _ hi

/-! ## The tables -/

/-- Tables that name samples below `n` and triangles there are only. -/
structure InRange (t : Triangulation) (n : Nat) : Prop extends Names t n where
  size_pos : 0 < t.size
  neighbours_size : t.neighbours.size = t.size
  neighbour : ∀ i k j, i < t.size → t.neighbour? i k = some j → j < t.size
  /-- Where a triangle has no other one across an edge there is a hull. -/
  hullEdges : ∀ i k, i < t.size → t.neighbour? i k = none → t.hullEdges ≠ []
  hull : ∀ i ∈ t.hull, i < n
  onHull_size : t.onHull.size = n
  incident_size : t.incident.size = n

theorem hullEdges_ne_nil (h : build settings s = .ok t) (hsides : t.hullSides ≠ []) : t.hullEdges ≠ [] := by
  rw [hullEdges_of_build h]
  simpa using hsides

theorem inRange_of_build (h : build settings s = .ok t) : t.InRange s.size where
  toNames := names_of_build h
  size_pos := size_pos_of_build h
  neighbours_size := by
    obtain ⟨m, -, rfl⟩ := build_eq_ok.1 h
    rw [size_ofMesh]
    exact List.length_map ..
  neighbour _ _ _ := neighbour_lt_of_build h
  hullEdges i k hi hnone := hullEdges_ne_nil h (List.ne_nil_of_mem ((hullSide_of_build h hi).1 hnone))
  hull i hi := by
    rw [← map_fst_cyclicPairs t.hull] at hi
    obtain ⟨e, he, rfl⟩ := List.mem_map.1 hi
    exact ((names_of_build h).hullSide e he).1
  onHull_size := by
    obtain ⟨m, -, rfl⟩ := build_eq_ok.1 h
    change (List.foldl _ (Array.replicate s.size false) _).size = s.size
    simp only [setIfInBounds_eq_modify]
    exact (size_foldl_modify id (fun _ _ => true) _ _).trans Array.size_replicate
  incident_size := by
    obtain ⟨m, -, rfl⟩ := build_eq_ok.1 h
    exact size_incidenceOf _ _

end Triangulation

open Triangulation (between_lt hullEdges_ne_nil)

/-! ## Isolines -/

namespace Isoline

variable {α β : Type} [Scalar α] [Scalar β] {settings : BuildSettings α} {s : Samples α} {t : Triangulation}

/-- An isoline goes over edges that have links, between samples there are. -/
theorem inRange_of_path (h : Triangulation.build settings s = .ok t) (r : Samples β) (level : β) {e : Edge}
    (he : e ∈ (paths (segments t r level)).flatMap Prod.fst) :
    linked (linksOf (segments t r level)) e ≠ [] ∧ e.low < s.size ∧ e.high < s.size := by
  have hedge := Triangulation.edgeToEdge_of_build h
  have hlinks := ((threaded_paths (strings_segments hedge)).mem_iff e).1 he
  obtain ⟨c, hc, he⟩ := List.mem_flatMap.1 (Triangulation.mem_edges.1 ((linked_segments_ne_nil hedge).1 hlinks).1)
  obtain ⟨i, hi, rfl⟩ := List.mem_iff_getElem.1 hc
  obtain ⟨k, -, rfl⟩ := List.mem_map.1 he
  have hcorner : ∀ k, (t.triangles.toList[i]).get k < s.size := by
    have htriangle : t.triangle i = t.triangles.toList[i] := by
      rw [Triangulation.triangle, Array.getD_eq_getD_getElem?, ← Array.getElem?_toList, List.getElem?_eq_getElem hi]
      rfl
    exact htriangle ▸ (Triangulation.names_of_build h).corner i
  exact ⟨hlinks, between_lt (hcorner _) (hcorner _)⟩

end Isoline

/-! ## Locating -/

/-- A place that names a triangle or an edge of the hull that there is. -/
def Location.InRange (t : Triangulation) : Location → Prop
  | .inside i => i < t.size
  | .outside e => e ∈ t.hullEdges

namespace Locator

variable {α : Type} [Scalar α] {settings : BuildSettings α} {t : Triangulation} {s : Samples α} {p : Point α}

theorem exists_outside? (h : t.hullEdges ≠ []) : ∃ place, outside? t s p = some place ∧ place.InRange t := by
  rw [outside?, nearestEdge?]
  split
  · exact absurd ‹_› h
  · rename_i e rest hedges
    refine ⟨_, rfl, ?_⟩
    rw [Location.InRange, hedges]
    refine List.foldlRecOn rest _ (motive := fun best : Edge × α => best.1 ∈ e :: rest) List.mem_cons_self
      fun best hbest f hf => ?_
    dsimp only
    split
    · exact List.mem_cons_of_mem e hf
    · exact hbest

theorem exists_scan? (h : Triangulation.build settings s = .ok t) : ∃ place, scan? t s p = some place ∧ place.InRange t := by
  rw [scan?]
  split
  · exact ⟨_, rfl, List.mem_range.1 (scanFrom_holds ‹_›).1⟩
  · rename_i found hfound
    obtain ⟨-, hseen, hsome⟩ := scanFrom_best hfound
    split
    · rename_i hbeyond
      refine exists_outside? (hullEdges_ne_nil h ?_)
      rintro hsides
      rw [beyondHull, hsides] at hbeyond
      cases hbeyond
    · have hsize := Triangulation.size_pos_of_build h
      obtain ⟨b, rfl⟩ := Option.isSome_iff_exists.1 (hsome (.inr (by simp; omega)))
      exact ⟨_, rfl, List.mem_range.1 ((hseen b rfl).resolve_left (Option.not_mem_none b))⟩

/-- Every point is located, whatever is remembered. -/
theorem exists_locate? (h : Triangulation.build settings s = .ok t) (l : Locator) :
    ∃ place, (l.locate? t s p).1 = some place ∧ place.InRange t := by
  rw [locate?_fst, search?]
  cases l.strategy with
  | scan => exact exists_scan? h
  | walk =>
    dsimp only
    obtain ⟨i, hi, -, hwalk⟩ | ⟨i, hi, k, -, hnone, hwalk⟩ | hwalk :=
      walk?_cases (s := s) (p := p) (Triangulation.neighbour_lt_of_build h) (Triangulation.size_pos_of_build h) l
    all_goals rw [hwalk]
    · exact ⟨_, rfl, hi⟩
    · exact exists_outside? ((Triangulation.inRange_of_build h).hullEdges i k hi hnone)
    · exact exists_scan? h

end Locator

end DelaunaySurface
