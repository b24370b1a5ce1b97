import DelaunaySurface.Proofs.Isoline.Thread
import DelaunaySurface.Proofs.Triangulation.Hull
/-!
# Steps

A line goes from each of its nodes to the next, a loop also from its last to its first. The steps of all paths
are the segments they were traced on, each taken once in one direction (`steps_perm`).
-/

namespace DelaunaySurface

namespace Isoline

open Triangulation (cyclicPairs)

/-- The nodes that follow one another on a path, the first one after the last when it closes. -/
def steps : List Edge × Bool → List (Edge × Edge)
  | (path, true) => cyclicPairs path
  | (path, false) => path.zip path.tail

/-- The two ends of a step, in no order. -/
def ends (step : Edge × Edge) : Sym2 Edge := s(step.1, step.2)

variable {links : Links} {path : List Edge} {a b e f : Edge} {step : Edge × Edge}

/-! ## Along a list -/

theorem mem_zip_tail : step ∈ path.zip path.tail ↔ ∃ i : Nat, path[i]? = some step.1 ∧ path[i + 1]? = some step.2 := by
  rw [List.mem_iff_getElem?]
  simp only [List.getElem?_zip_eq_some, List.getElem?_tail]

theorem mem_of_mem_zip_tail (h : step ∈ path.zip path.tail) : step.1 ∈ path ∧ step.2 ∈ path :=
  ⟨(List.of_mem_zip h).1, List.mem_of_mem_tail (List.of_mem_zip h).2⟩

/-- Around a list is along it and back to its first element. -/
theorem cyclicPairs_eq {i : Nat} (hi : i + 1 = path.length) :
    cyclicPairs path = path.zip path.tail ++ [(path[i], path[0])] := by
  have hzip : ∀ (l : List Edge) (a d : Edge), (a :: l).zip (l ++ [d]) = (a :: l).zip l ++ [((a :: l)[l.length], d)] := by
    intro l
    induction l with
    | nil => simp
    | cons e l ih => simp [ih]
  match path, hi with
  | a :: l, hi =>
    obtain rfl : i = l.length := Nat.succ.inj hi
    exact hzip l a a

/-- A list without repetitions steps between different pairs. -/
theorem ends_zip_tail_nodup (h : path.Nodup) : ((path.zip path.tail).map ends).Nodup := by
  induction path with
  | nil => exact .nil
  | cons a path ih =>
    obtain ⟨ha, h⟩ := List.nodup_cons.1 h
    cases path with
    | nil => exact .nil
    | cons b path =>
      rw [List.tail_cons, List.zip_cons_cons, List.map_cons, List.nodup_cons]
      refine ⟨fun hmem => ?_, ih h⟩
      obtain ⟨s, hs, e⟩ := List.mem_map.1 hmem
      obtain ⟨h1, h2⟩ : s.1 ∈ b :: path ∧ s.2 ∈ b :: path := mem_of_mem_zip_tail hs
      rcases Sym2.eq_iff.1 e with ⟨rfl, -⟩ | ⟨-, rfl⟩
      · exact ha h1
      · exact ha h2

/-- Around three nodes or more there is no pair twice. -/
theorem ends_cyclicPairs_nodup {i : Nat} (h : path.Nodup) (hi : i + 3 = path.length) :
    ((cyclicPairs path).map ends).Nodup := by
  rw [cyclicPairs_eq hi, List.map_append, List.nodup_append]
  refine ⟨ends_zip_tail_nodup h, List.nodup_singleton _, ?_⟩
  rintro _ hs _ hlast rfl
  rw [List.map_singleton, List.mem_singleton] at hlast
  obtain ⟨s, hmem, rfl⟩ := List.mem_map.1 hs
  obtain ⟨j, h1, h2⟩ := mem_zip_tail.1 hmem
  obtain ⟨hj, h1⟩ := List.getElem?_eq_some_iff.1 h1
  obtain ⟨hj', h2⟩ := List.getElem?_eq_some_iff.1 h2
  rcases Sym2.eq_iff.1 hlast with ⟨-, e⟩ | ⟨e, e'⟩
  · have := h.getElem_inj_iff.1 (h2.trans e)
    omega
  · have := h.getElem_inj_iff.1 (h1.trans e)
    have := h.getElem_inj_iff.1 (h2.trans e')
    omega

/-! ## Along lines and loops -/

section Paths

variable (h : Strings links)

/-- The steps of a path over some nodes: all their links, each once. -/
structure Walked (links : Links) (path : List Edge) (steps : List (Edge × Edge)) : Prop where
  mem : ∀ s ∈ steps, s.1 ∈ path ∧ s.2 ∈ path
  link : ∀ s ∈ steps, s.2 ∈ linked links s.1
  nodup : (steps.map ends).Nodup
  complete : ∀ e ∈ path, ∀ f ∈ linked links e, s(e, f) ∈ steps.map ends

theorem Thread.step_link (p : Thread links path) (hs : step ∈ path.zip path.tail) : step.2 ∈ linked links step.1 := by
  obtain ⟨i, h1, h2⟩ := mem_zip_tail.1 hs
  obtain ⟨_, h1⟩ := List.getElem?_eq_some_iff.1 h1
  obtain ⟨hi, h2⟩ := List.getElem?_eq_some_iff.1 h2
  exact h1 ▸ h2 ▸ p.link hi

theorem ends_mem_zip_tail {i : Nat} (he : path[i]? = some e) (hf : path[i + 1]? = some f) :
    s(e, f) ∈ (path.zip path.tail).map ends :=
  List.mem_map.2 ⟨(e, f), mem_zip_tail.2 ⟨i, he, hf⟩, rfl⟩

include h

/-- Between its ends the links of a path are its steps. -/
theorem Thread.inner_step (p : Thread links path) {i : Nat} (he : path[i + 1]? = some e) (hi : i + 2 < path.length)
    (hf : f ∈ linked links e) : s(e, f) ∈ (path.zip path.tail).map ends := by
  obtain ⟨_, rfl⟩ := List.getElem?_eq_some_iff.1 he
  rcases p.inner h hi hf with rfl | rfl
  · rw [Sym2.eq_swap]
    exact ends_mem_zip_tail (List.getElem?_eq_getElem _) he
  · exact ends_mem_zip_tail he (List.getElem?_eq_getElem _)

theorem Line.walked (hp : Line links path) : Walked links path (steps (path, false)) where
  mem s hs := mem_of_mem_zip_tail hs
  link s hs := hp.1.step_link hs
  nodup := ends_zip_tail_nodup hp.1.nodup
  complete e he f hf := by
    obtain ⟨p, i, hi, ha, hb⟩ := hp
    obtain ⟨j, hj, rfl⟩ := List.mem_iff_getElem.1 he
    rcases j with _ | j
    · rw [eq_of_single ha hf (p.link (by omega))]
      exact ends_mem_zip_tail (List.getElem?_eq_getElem hj) (List.getElem?_eq_getElem _)
    · by_cases hend : j = i
      · subst hend
        rw [eq_of_single hb hf (h.symm (p.link hj)), Sym2.eq_swap]
        exact ends_mem_zip_tail (List.getElem?_eq_getElem _) (List.getElem?_eq_getElem hj)
      · exact p.inner_step h (List.getElem?_eq_getElem hj) (by omega) hf

theorem Loop.walked (hp : Loop links path) : Walked links path (steps (path, true)) := by
  obtain ⟨p, ⟨i, hi, hclose⟩, -⟩ := hp
  have hsteps : steps (path, true) = path.zip path.tail ++ [(path[i + 2], path[0])] := cyclicPairs_eq hi
  refine ⟨fun s hs => Triangulation.mem_of_mem_cyclicPairs hs, fun s hs => ?_, ends_cyclicPairs_nodup p.nodup hi,
    fun e he f hf => ?_⟩
  · rw [hsteps, List.mem_append, List.mem_singleton] at hs
    rcases hs with hs | rfl
    · exact p.step_link hs
    · exact hclose
  · rw [hsteps, List.map_append, List.mem_append, List.map_singleton, List.mem_singleton]
    obtain ⟨j, hj, rfl⟩ := List.mem_iff_getElem.1 he
    rcases j with _ | j
    · rcases h.eq_or_eq (p.link (i := 0) (by omega)) (h.symm hclose) (p.ne _ _ (by omega)) hf with rfl | rfl
      · exact .inl (ends_mem_zip_tail (List.getElem?_eq_getElem hj) (List.getElem?_eq_getElem _))
      · exact .inr Sym2.eq_swap
    · by_cases hend : j = i + 1
      · subst hend
        rcases h.eq_or_eq (h.symm (p.link hj)) hclose (p.ne _ _ (by omega)) hf with rfl | rfl
        · rw [Sym2.eq_swap]
          exact .inl (ends_mem_zip_tail (List.getElem?_eq_getElem _) (List.getElem?_eq_getElem hj))
        · exact .inr rfl
      · exact .inl (p.inner_step h (List.getElem?_eq_getElem hj) (by omega) hf)

end Paths

/-! ## All steps -/

variable {segments : List (Edge × Edge)}

theorem mem_partners : f ∈ partners e step ↔ ends step = s(e, f) := by
  rw [ends, Sym2.eq_iff, partners, List.mem_append]
  by_cases h1 : step.1 = e <;> by_cases h2 : step.2 = e <;> simp [h1, h2, eq_comm]

/-- The links go between the ends of segments. -/
theorem mem_linked : f ∈ linked (linksOf segments) e ↔ s(e, f) ∈ segments.map ends := by
  rw [linked_linksOf, List.mem_flatMap, List.mem_map]
  simp only [mem_partners]

/-- Different segments between different edges, at most two at each, go along lines and loops. -/
theorem strings_linksOf (hne : ∀ s ∈ segments, s.1 ≠ s.2) (hn : (segments.map ends).Nodup)
    (htwo : ∀ e, (linked (linksOf segments) e).length ≤ 2) : Strings (linksOf segments) where
  symm h := by
    rw [mem_linked] at h ⊢
    rwa [Sym2.eq_swap]
  ne h := by
    obtain ⟨s, hs, e⟩ := List.mem_map.1 (mem_linked.1 h)
    rintro rfl
    rcases Sym2.eq_iff.1 e with ⟨h1, h2⟩ | ⟨h1, h2⟩ <;> exact hne s hs (h1.trans h2.symm)
  nodup e := by
    rw [linked_linksOf, List.nodup_flatMap]
    refine ⟨fun s hs => ?_, (List.pairwise_map.1 hn).imp fun hst f hf hf' => ?_⟩
    · by_cases h1 : s.1 = e <;> by_cases h2 : s.2 = e
      · exact absurd (h1.trans h2.symm) (hne s hs)
      all_goals simp [partners, h1, h2]
    · exact hst ((mem_partners.1 hf).trans (mem_partners.1 hf').symm)
  le_two := htwo

/-- The steps of all paths are the segments, each once. -/
theorem steps_perm {paths : List (List Edge × Bool)} (h : Strings (linksOf segments)) (hn : (segments.map ends).Nodup)
    (ht : Threaded (linksOf segments) paths) : ((paths.flatMap steps).map ends).Perm (segments.map ends) := by
  have hwalked : ∀ p ∈ paths, Walked (linksOf segments) p.1 (steps p) := by
    rintro ⟨path, _ | _⟩ hp
    · exact (ht.line path hp).walked h
    · exact (ht.loop path hp).walked h
  rw [List.map_flatMap]
  refine (List.perm_ext_iff_of_nodup (List.nodup_flatMap.2 ⟨fun p hp => (hwalked p hp).nodup, ?_⟩) hn).2 fun s => ?_
  · -- Different paths have no node in common.
    refine (List.nodup_flatMap.1 ht.nodup).2.imp_of_mem fun hp hq hpq s hs hs' => ?_
    obtain ⟨u, hu, rfl⟩ := List.mem_map.1 hs
    obtain ⟨v, hv, e⟩ := List.mem_map.1 hs'
    have hpath := (hwalked _ hp).mem u hu
    have hpath' := (hwalked _ hq).mem v hv
    rcases Sym2.eq_iff.1 e with ⟨e, -⟩ | ⟨e, -⟩
    · exact hpq hpath.1 (e ▸ hpath'.1)
    · exact hpq hpath.2 (e ▸ hpath'.1)
  · rw [List.mem_flatMap]
    constructor
    · rintro ⟨p, hp, hs⟩
      obtain ⟨u, hu, rfl⟩ := List.mem_map.1 hs
      exact mem_linked.1 ((hwalked p hp).link u hu)
    · intro hs
      obtain ⟨u, hu, rfl⟩ := List.mem_map.1 hs
      have hlink := mem_linked.2 hs
      obtain ⟨p, hp, hup⟩ := List.mem_flatMap.1 ((ht.mem_iff u.1).2 (List.ne_nil_of_mem hlink))
      exact ⟨p, hp, (hwalked p hp).complete u.1 hup u.2 hlink⟩

end Isoline

end DelaunaySurface
