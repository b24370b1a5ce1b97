import DelaunaySurface.Proofs.Isoline.Segments
/-!
# Contours

The lines at a level go over every crossed edge once and through every crossed triangle once, from hull to hull
or around (`contoured_of_build`).
-/

namespace DelaunaySurface

namespace Isoline

variable {α β : Type} [Scalar α] [Scalar β] {t : Triangulation} {s : Samples α} {level : α} {c : Triangle} {e : Edge}
  {u : Edge × Edge}

/-- Paths over the edges that a level crosses, each with whether it closes, that are all of its contours. -/
structure Contoured (t : Triangulation) (s : Samples α) (level : α) (paths : List (List Edge × Bool)) : Prop where
  /-- An edge that is crossed is on one path, once; no other edge is on any. -/
  count_eq : ∀ e, (paths.flatMap Prod.fst).count e = if e ∈ t.edges ∧ cuts s level e = true then 1 else 0
  /-- Each step goes between two crossed edges of one triangle. -/
  step : ∀ p ∈ paths, ∀ u ∈ steps p, u.1 ≠ u.2 ∧ cuts s level u.1 = true ∧ cuts s level u.2 = true ∧
    ∃ c ∈ t.triangles.toList, u.1 ∈ c.edges ∧ u.2 ∈ c.edges
  /-- An open path begins and ends on the hull and is not on it in between. -/
  opened : ∀ path, (path, false) ∈ paths → ∃ a mid b, path = a :: (mid ++ [b]) ∧ a ∈ t.hullEdges ∧ b ∈ t.hullEdges ∧
    ∀ e ∈ mid, e ∉ t.hullEdges
  /-- A closed path is nowhere on the hull. -/
  closed : ∀ path, (path, true) ∈ paths → 3 ≤ path.length ∧ ∀ e ∈ path, e ∉ t.hullEdges
  /-- There are as many steps as crossed triangles. -/
  length_steps : (paths.flatMap steps).length = t.triangles.toList.countP fun c => c.edges.any (cuts s level)
  /-- Each crossed triangle has one step in it. -/
  once : ∀ c ∈ t.triangles.toList, c.edges.any (cuts s level) = true →
    (paths.flatMap steps).countP (fun u => decide (u.1 ∈ c.edges ∧ u.2 ∈ c.edges)) = 1

section EdgeToEdge

variable (h : t.EdgeToEdge)

include h

theorem linked_segments_ne_nil : linked (linksOf (segments t s level)) e ≠ [] ↔ e ∈ t.edges ∧ cuts s level e = true := by
  rw [ne_eq, ← List.length_eq_zero_iff, length_linked_eq h]
  split
  · next hc =>
    simp only [hc, and_self, iff_true]
    split <;> omega
  · next hc => simp [hc]

theorem mem_hullEdges_of_one (hone : (linked (linksOf (segments t s level)) e).length = 1) : e ∈ t.hullEdges := by
  rw [length_linked_eq h] at hone
  grind

theorem notMem_hullEdges_of_two (htwo : (linked (linksOf (segments t s level)) e).length = 2) : e ∉ t.hullEdges := by
  rw [length_linked_eq h] at htwo
  grind

/-- A triangle has its own segment in it and no other. -/
theorem countP_segments (hc : c ∈ t.triangles.toList) (hu : segment? s level c = some u) :
    ((segments t s level).map ends).countP (fun z => decide (z ∈ c.edges.sym2)) = 1 := by
  have hmem : ends u ∈ (segments t s level).map ends := List.mem_map_of_mem (List.mem_filterMap.2 ⟨c, hc, hu⟩)
  rw [← List.count_eq_one_of_mem (ends_segments_nodup h) hmem]
  refine List.countP_congr fun z hz => ?_
  obtain ⟨v, hv, rfl⟩ := List.mem_map.1 hz
  obtain ⟨d, hd, hv⟩ := List.mem_filterMap.1 hv
  rw [decide_eq_true_iff, beq_iff_eq]
  constructor
  · intro hin
    obtain ⟨h1, h2⟩ := List.mk_mem_sym2_iff.1 hin
    have h1' := (mem_of_segment? hv (Sym2.mem_mk_left ..)).1
    have h2' := (mem_of_segment? hv (Sym2.mem_mk_right ..)).1
    by_cases hcd : c = d
    · subst hcd
      cases hu.symm.trans hv
      rfl
    · exact absurd (h.eq_of_mem hc hd hcd h1 h1' h2 h2') (ne_of_segment? h hd hv)
  · intro e
    rw [e]
    exact List.mk_mem_sym2_iff.2 ⟨(mem_of_segment? hu (Sym2.mem_mk_left ..)).1, (mem_of_segment? hu (Sym2.mem_mk_right ..)).1⟩

/-- Where edges are linked, a triangle is crossed between them. -/
theorem exists_crossed (hz : ends u ∈ (segments t s level).map ends) : u.1 ≠ u.2 ∧ cuts s level u.1 = true ∧
    cuts s level u.2 = true ∧ ∃ c ∈ t.triangles.toList, u.1 ∈ c.edges ∧ u.2 ∈ c.edges := by
  obtain ⟨v, hv, e⟩ := List.mem_map.1 hz
  obtain ⟨c, hc, hv⟩ := List.mem_filterMap.1 hv
  have h1 : u.1 ∈ c.edges ∧ _ := mem_of_segment? hv (e ▸ Sym2.mem_mk_left u.1 u.2)
  have h2 : u.2 ∈ c.edges ∧ _ := mem_of_segment? hv (e ▸ Sym2.mem_mk_right u.1 u.2)
  exact ⟨((strings_segments h).ne (mem_linked.2 hz)).symm, h1.2, h2.2, c, hc, h1.1, h2.1⟩

/-- Where triangles lie edge to edge, the paths over their segments are all contours. -/
theorem contoured : Contoured t s level (paths (segments t s level)) := by
  have hs : Strings (linksOf (segments t s level)) := strings_segments h
  have ht := threaded_paths hs
  have hperm := steps_perm hs (ends_segments_nodup h) ht
  exact
    { count_eq := fun e => by
        simp only [← linked_segments_ne_nil h, ← ht.mem_iff]
        exact ht.nodup.count
      step := fun p hp u hu =>
        exists_crossed h (hperm.mem_iff.1 (List.mem_map.2 ⟨u, List.mem_flatMap.2 ⟨p, hp, hu⟩, rfl⟩))
      opened := fun path hp => by
        obtain ⟨a, mid, b, hpath, ha, hb, hmid⟩ := (ht.line path hp).exists_mid hs
        exact ⟨a, mid, b, hpath, mem_hullEdges_of_one h ha, mem_hullEdges_of_one h hb, fun e he =>
          notMem_hullEdges_of_two h (hmid e he)⟩
      closed := fun path hp => by
        obtain ⟨-, ⟨i, hi, -⟩, htwo⟩ := ht.loop path hp
        exact ⟨by omega, fun e he => notMem_hullEdges_of_two h (htwo e he)⟩
      length_steps := by
        have hlength := hperm.length_eq
        rw [List.length_map, List.length_map] at hlength
        rw [hlength, segments, List.length_filterMap_eq_countP]
        simp only [isSome_segment?]
      once := fun c hc hcut => by
        obtain ⟨u, hu⟩ := Option.isSome_iff_exists.1 (isSome_segment?.trans hcut)
        rw [← countP_segments h hc hu, ← hperm.countP_eq, List.countP_map]
        refine List.countP_congr fun v _ => ?_
        rw [Function.comp_apply, decide_eq_true_iff, decide_eq_true_iff]
        exact List.mk_mem_sym2_iff.symm }

end EdgeToEdge

/-- The isolines of every build that succeeds, at any heights and any level, are all contours of that level. -/
theorem contoured_of_build {settings : BuildSettings α} {s : Samples α} {t : Triangulation}
    (h : Triangulation.build settings s = .ok t) (r : Samples β) (level : β) : ∃ paths : List (List Edge × Bool),
      atLevel t r level = paths.map (fun p => ⟨p.1.map (crossing r level), p.2⟩) ∧ Contoured t r level paths :=
  ⟨_, rfl, contoured (Triangulation.edgeToEdge_of_build h)⟩

/-- The kite with a hill in it. -/
def hill : Samples Rat := .ofList [⟨0, 0, 0⟩, ⟨4, 0, 1⟩, ⟨0, 4, 2⟩, ⟨5, 5, 3⟩, ⟨2, 3, 9⟩]

/-- Around the hill there is one line, over the four edges up to its top. -/
theorem contoured_of_build_kite : ∃ t, Triangulation.build ⟨100, ⟨0⟩⟩ Triangulation.kite = .ok t ∧
    (atLevel t hill 5).map (fun l => (l.points.length, l.closed)) = [(4, true)] ∧
    ∃ paths : List (List Edge × Bool),
      atLevel t hill 5 = paths.map (fun p => ⟨p.1.map (crossing hill 5), p.2⟩) ∧ Contoured t hill 5 paths := by
  have hline : (Triangulation.build ⟨100, ⟨0⟩⟩ Triangulation.kite).toOption.any (fun t =>
      (atLevel t hill 5).map (fun l => (l.points.length, l.closed)) = [(4, true)]) = true := by cbv
  obtain ⟨t, ht, hline⟩ := Triangulation.exists_of_any hline
  exact ⟨t, ht, of_decide_eq_true hline, contoured_of_build ht hill 5⟩

end Isoline

end DelaunaySurface
