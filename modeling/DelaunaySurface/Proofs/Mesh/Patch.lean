import DelaunaySurface.Proofs.Mesh.Surface
/-!
# Patches

The members of a cavity are a patch: cells in use taken one after another, each across a side of an
earlier one. Both searches that make a cavity only ever extend a patch (`spread_cut`,
`clearView_cut`), so what a patch satisfies every cavity does.
-/

namespace DelaunaySurface

namespace Mesh

/-- Cells taken one after another, each across a side of an earlier one. -/
inductive Patch (m : Mesh) : List Nat → Prop
  | start {t : Nat} : m.Live t → Patch m [t]
  | extend {l : List Nat} {t : Nat} {k : Fin 3} : Patch m l → t ∈ l → m.behind t k ∉ l →
      Patch m (l ++ [m.behind t k])

namespace Patch

variable {m : Mesh} {sites l : List Nat}

theorem nodup (h : m.Patch l) : l.Nodup := by
  induction h with
  | start => simp
  | extend _ _ hn ih => exact List.nodup_append.2 ⟨ih, by simp, by rintro a ha b hb rfl; simp_all⟩

theorem ne_nil (h : m.Patch l) : l ≠ [] := by
  induction h with
  | start => exact List.cons_ne_nil _ _
  | extend => exact List.append_ne_nil_of_right_ne_nil _ (List.cons_ne_nil _ _)

theorem live (hm : m.ClosedSurface sites) (h : m.Patch l) : ∀ t ∈ l, m.Live t := by
  induction h with
  | start ht => simpa using ht
  | extend _ ht _ ih =>
    intro u hu
    rcases List.mem_append.1 hu with hu | hu
    · exact ih u hu
    · rw [List.mem_singleton.1 hu]
      exact hm.live_behind (ih _ ht) _

end Patch

/-! ## The rim of a set of cells -/

/-- The sides of the cells `l` with a cell outside `l` on their right. -/
def rimOf (m : Mesh) (l : List Nat) : List RimSide :=
  l.flatMap fun t => Triple.indices.filterMap fun k =>
    if m.behind t k ∈ l then none else some ⟨m.side t k, m.behind t k⟩

theorem mem_rimOf {m : Mesh} {l : List Nat} {s : RimSide} :
    s ∈ m.rimOf l ↔ ∃ t ∈ l, ∃ k, m.behind t k ∉ l ∧ s = ⟨m.side t k, m.behind t k⟩ := by
  simp only [rimOf, List.mem_flatMap, List.mem_filterMap, Triple.mem_indices, true_and]
  constructor
  · rintro ⟨t, ht, k, h⟩
    split at h
    · cases h
    · exact ⟨t, ht, k, ‹_›, (Option.some.inj h).symm⟩
  · rintro ⟨t, ht, k, hk, rfl⟩
    exact ⟨t, ht, k, by rw [if_neg hk]⟩

/-! ## Cavities -/

/-- A cavity whose marks tell its members, and whose members are a patch. -/
structure Cut (m : Mesh) (c : Cavity) : Prop where
  mark_size : c.mark.size = m.cells.size
  mark_le : ∀ t, c.mark.getD t 0 ≤ m.stamp
  absorbed_iff : ∀ t, m.absorbed c t = true ↔ t ∈ c.members.toList
  patch : m.Patch c.members.toList

theorem rim_eq {m : Mesh} {c : Cavity} (h : m.Cut c) : m.rim c = m.rimOf c.members.toList := by
  simp only [rim, rimOf, h.absorbed_iff]

theorem getD_setIfInBounds {α : Type} (a : Array α) (i j : Nat) (x d : α) (h : i < a.size) :
    (a.setIfInBounds i x).getD j d = if j = i then x else a.getD j d := by
  simp only [Array.getD_eq_getD_getElem?, Array.getElem?_setIfInBounds]
  by_cases hij : i = j
  · subst hij; simp [h]
  · simp [hij, Ne.symm hij]

theorem absorbed_absorb {m : Mesh} {c : Cavity} {u : Nat} (hs : c.mark.size = m.cells.size) (hu : m.Live u) (t : Nat) :
    m.absorbed (m.absorb c u) t = true ↔ t = u ∨ m.absorbed c t = true := by
  have hlt : u < c.mark.size := hs ▸ lt_of_live hu
  simp only [absorbed, absorb, getD_setIfInBounds _ _ _ _ _ hlt, decide_eq_true_eq]
  by_cases htu : t = u <;> simp [htu]

namespace Cut

variable {m : Mesh} {sites : List Nat} {c : Cavity}

theorem mark_absorb_le {u : Nat} (hs : c.mark.size = m.cells.size) (hle : ∀ t, c.mark.getD t 0 ≤ m.stamp)
    (hu : m.Live u) (t : Nat) : (m.absorb c u).mark.getD t 0 ≤ m.stamp := by
  have hlt : u < c.mark.size := hs ▸ lt_of_live hu
  simp only [absorb, getD_setIfInBounds _ _ _ _ _ hlt]
  split
  · exact Nat.le_refl _
  · exact hle t

/-- The first cell alone. -/
theorem first (hm : m.ClosedSurface sites) (hf : ∀ t, m.mark.getD t 0 < m.stamp) {t : Nat} (ht : m.Live t) :
    m.Cut (m.absorb m.unopened t) where
  mark_size := by simp [absorb, unopened, hm.mark_size]
  mark_le := mark_absorb_le hm.mark_size hm.mark_le ht
  absorbed_iff u := by
    have hu : m.absorbed m.unopened u = false := by
      simpa [absorbed, unopened] using (hf u).ne
    rw [absorbed_absorb (c := m.unopened) hm.mark_size ht, hu]
    simp [absorb, unopened]
  patch := by simpa [absorb, unopened] using Patch.start ht

/-- A cavity that takes a neighbour stays one. -/
theorem absorb (hm : m.ClosedSurface sites) (h : m.Cut c) {t : Nat} {k : Fin 3} (ht : t ∈ c.members.toList)
    (hn : m.behind t k ∉ c.members.toList) : m.Cut (m.absorb c (m.behind t k)) where
  mark_size := by simp [Mesh.absorb, h.mark_size]
  mark_le := mark_absorb_le h.mark_size h.mark_le (hm.live_behind (h.patch.live hm t ht) k)
  absorbed_iff u := by
    rw [absorbed_absorb h.mark_size (hm.live_behind (h.patch.live hm t ht) k), h.absorbed_iff]
    simp [Mesh.absorb, or_comm]
  patch := by simpa [Mesh.absorb] using h.patch.extend ht hn

/-- The count of repairs has no part in what a cavity is. -/
theorem repaired (h : m.Cut c) (n : Nat) : m.Cut { c with repairs := n } :=
  ⟨h.mark_size, h.mark_le, h.absorbed_iff, h.patch⟩

end Cut

/-! ## Both searches extend a patch -/

/-- What the search for conflicting cells does to a property that absorbing one keeps. -/
theorem spread_induction {m : Mesh} {v : Verdicts} {budget : Nat} {P : Cavity → Prop}
    (step : ∀ c t k, P c → t ∈ c.members.toList → m.absorbed c (m.behind t k) = false → m.conflicts v (m.behind t k) →
      P (m.absorb c (m.behind t k)))
    {c c' : Cavity} {todo : List Nat} (h : spread m v budget c todo = .ok c') (hc : P c)
    (htodo : ∀ u ∈ todo, ∃ t ∈ c.members.toList, ∃ k, m.behind t k = u) : P c' := by
  fun_induction spread m v budget c todo with
  | case1 c => cases h; exact hc
  | case2 c t todo hskip ih => exact ih h hc fun u hu => htodo u (by simp [hu])
  | case3 c t todo hskip hlt ih =>
    obtain ⟨u, hu, k, rfl⟩ := htodo t (by simp)
    simp only [Bool.or_eq_true, Bool.not_eq_true', not_or, Bool.not_eq_true, Bool.not_eq_false] at hskip
    refine ih h (step c u k hc hu hskip.1 hskip.2) fun w hw => ?_
    rcases List.mem_append.1 hw with hw | hw
    · obtain ⟨x, hx, j, e⟩ := htodo w (by simp [hw])
      exact ⟨x, by simp [absorb, hx], j, e⟩
    · obtain ⟨j, e⟩ := (Triple.mem_iff _ _).1 hw
      exact ⟨_, by simp [absorb], j, e⟩
  | case4 => cases h

theorem conflictRegion_induction {m : Mesh} {v : Verdicts} {budget start : Nat} {P : Cavity → Prop}
    (first : P (m.absorb m.unopened start))
    (step : ∀ c t k, P c → t ∈ c.members.toList → m.absorbed c (m.behind t k) = false → m.conflicts v (m.behind t k) →
      P (m.absorb c (m.behind t k)))
    {c : Cavity} (h : m.conflictRegion v budget start = .ok c) : P c := by
  rw [conflictRegion] at h
  split at h
  · refine spread_induction step h first fun u hu => ?_
    obtain ⟨j, e⟩ := (Triple.mem_iff _ _).1 hu
    exact ⟨start, by simp [absorb, unopened], j, e⟩
  · cases h

/-- A side of the rim belongs to a member, with its outside across it. -/
theorem mem_rim {m : Mesh} {c : Cavity} {s : RimSide} (h : s ∈ m.rim c) :
    ∃ t ∈ c.members.toList, ∃ k, m.absorbed c (m.behind t k) = false ∧ s = ⟨m.side t k, m.behind t k⟩ := by
  simp only [rim, List.mem_flatMap, List.mem_filterMap] at h
  obtain ⟨t, ht, k, -, h⟩ := h
  split at h
  · cases h
  · exact ⟨t, ht, k, Bool.eq_false_iff.2 ‹_›, (Option.some.inj h).symm⟩

/-- Opening the view keeps what absorbing a neighbour keeps, and leaves nothing hidden. -/
theorem clearView_induction {m : Mesh} {v : Verdicts} {budget : Nat} {P : Cavity → Prop}
    (step : ∀ c t k n, P c → t ∈ c.members.toList → m.absorbed c (m.behind t k) = false →
      P { m.absorb c (m.behind t k) with repairs := n })
    {c c' : Cavity} (h : m.clearView v budget c = .ok c') (hc : P c) :
    P c' ∧ ∀ s ∈ m.rim c', v.blocked s.side = false := by
  fun_induction clearView m v budget c with
  | case1 c hnone =>
    cases h
    exact ⟨hc, fun s hs => by simpa using List.find?_eq_none.1 hnone s hs⟩
  | case2 c s hsome hlt ih =>
    obtain ⟨t, ht, k, hk, rfl⟩ := mem_rim (List.mem_of_find?_eq_some hsome)
    exact ih h (step c t k _ hc ht hk)
  | case3 => cases h

theorem conflictRegion_cut {m : Mesh} {sites : List Nat} {v : Verdicts} {budget start : Nat} {c : Cavity}
    (hm : m.ClosedSurface sites) (hf : ∀ t, m.mark.getD t 0 < m.stamp) (hs : m.Live start)
    (h : m.conflictRegion v budget start = .ok c) : m.Cut c := by
  refine conflictRegion_induction (P := m.Cut) (Cut.first hm hf hs) ?_ h
  intro c t k hc ht hk _
  exact hc.absorb hm ht (by rw [← hc.absorbed_iff, hk]; simp)

theorem clearView_cut {m : Mesh} {sites : List Nat} {v : Verdicts} {budget : Nat} {c c' : Cavity}
    (hm : m.ClosedSurface sites) (hc : m.Cut c) (h : m.clearView v budget c = .ok c') :
    m.Cut c' ∧ ∀ s ∈ m.rim c', v.blocked s.side = false := by
  refine clearView_induction (P := m.Cut) ?_ h hc
  intro c t k n hc ht hk
  exact (hc.absorb hm ht (by rw [← hc.absorbed_iff, hk]; simp)).repaired n

/-! ## The search ends with all conflicting neighbours, or for want of budget -/

/-- Every conflicting neighbour of a member is a member or still to be looked at; at the end there is
nothing left to look at. -/
theorem spread_closed {m : Mesh} {sites : List Nat} {v : Verdicts} {budget : Nat} {c c' : Cavity} {todo : List Nat}
    (hm : m.ClosedSurface sites) (h : spread m v budget c todo = .ok c') (hc : m.Cut c)
    (htodo : ∀ u ∈ todo, ∃ t ∈ c.members.toList, ∃ k, m.behind t k = u)
    (hopen : ∀ t ∈ c.members.toList, ∀ k, m.conflicts v (m.behind t k) = true →
      m.behind t k ∈ c.members.toList ∨ m.behind t k ∈ todo) :
    ∀ t ∈ c'.members.toList, ∀ k, m.conflicts v (m.behind t k) = true → m.behind t k ∈ c'.members.toList := by
  fun_induction spread m v budget c todo with
  | case1 c =>
    cases h
    intro t ht k hk
    exact (hopen t ht k hk).resolve_right (by simp)
  | case2 c u todo hskip ih =>
    refine ih h hc (fun w hw => htodo w (by simp [hw])) fun t ht k hk => ?_
    rcases hopen t ht k hk with hin | hin
    · exact .inl hin
    · rcases List.mem_cons.1 hin with rfl | hin
      · rw [hk, Bool.not_true, Bool.or_false, hc.absorbed_iff] at hskip
        exact .inl hskip
      · exact .inr hin
  | case3 c u todo hskip hlt ih =>
    obtain ⟨w, hw, j, rfl⟩ := htodo u (by simp)
    simp only [Bool.or_eq_true, Bool.not_eq_true', not_or] at hskip
    have hnew : m.behind w j ∉ c.members.toList := by
      rw [← hc.absorbed_iff]
      exact hskip.1
    have hmem : ∀ x, x ∈ (m.absorb c (m.behind w j)).members.toList ↔ x ∈ c.members.toList ∨ x = m.behind w j := by
      intro x
      simp [absorb]
    refine ih h (hc.absorb hm hw hnew) ?_ ?_
    · intro x hx
      rcases List.mem_append.1 hx with hx | hx
      · obtain ⟨t, ht, k, e⟩ := htodo x (by simp [hx])
        exact ⟨t, (hmem t).2 (.inl ht), k, e⟩
      · obtain ⟨k, e⟩ := (Triple.mem_iff _ _).1 hx
        exact ⟨_, (hmem _).2 (.inr rfl), k, e⟩
    · intro t ht k hk
      rcases (hmem t).1 ht with ht | rfl
      · rcases hopen t ht k hk with hin | hin
        · exact .inl ((hmem _).2 (.inl hin))
        · rcases List.mem_cons.1 hin with e | hin
          · exact .inl ((hmem _).2 (.inr e))
          · exact .inr (List.mem_append_left _ hin)
      · exact .inr (List.mem_append_right _ ((Triple.mem_iff _ _).2 ⟨k, rfl⟩))
  | case4 => cases h

theorem conflictRegion_closed {m : Mesh} {sites : List Nat} {v : Verdicts} {budget start : Nat} {c : Cavity}
    (hm : m.ClosedSurface sites) (hf : ∀ t, m.mark.getD t 0 < m.stamp) (hs : m.Live start)
    (h : m.conflictRegion v budget start = .ok c) :
    ∀ t ∈ c.members.toList, ∀ k, m.conflicts v (m.behind t k) = true → m.behind t k ∈ c.members.toList := by
  rw [conflictRegion] at h
  split at h
  · have hmem : ∀ t, t ∈ (m.absorb m.unopened start).members.toList ↔ t = start := by simp [absorb, unopened]
    refine spread_closed hm h (Cut.first hm hf hs) ?_ ?_
    · intro u hu
      obtain ⟨j, e⟩ := (Triple.mem_iff _ _).1 hu
      exact ⟨start, (hmem _).2 rfl, j, e⟩
    · intro t ht k _
      rw [(hmem t).1 ht]
      exact .inr ((Triple.mem_iff _ _).2 ⟨k, rfl⟩)
  · cases h

theorem spread_error {m : Mesh} {v : Verdicts} {budget : Nat} {c : Cavity} {todo : List Nat} {e : Failure}
    (h : spread m v budget c todo = .error e) : e = .budgetExceeded budget := by
  fun_induction spread m v budget c todo with
  | case1 => cases h
  | case2 c t todo hskip ih => exact ih h
  | case3 c t todo hskip hlt ih => exact ih h
  | case4 => cases h; rfl

theorem conflictRegion_error {m : Mesh} {v : Verdicts} {budget start : Nat} {e : Failure}
    (h : m.conflictRegion v budget start = .error e) : e = .budgetExceeded budget := by
  rw [conflictRegion] at h
  split at h
  · exact spread_error h
  · cases h; rfl

theorem clearView_error {m : Mesh} {v : Verdicts} {budget : Nat} {c : Cavity} {e : Failure}
    (h : m.clearView v budget c = .error e) : e = .budgetExceeded budget := by
  fun_induction clearView m v budget c with
  | case1 => cases h
  | case2 c side hside hlt ih => exact ih h
  | case3 => cases h; rfl

theorem clearView_of_visible {m : Mesh} {v : Verdicts} {budget : Nat} {c : Cavity}
    (h : ∀ s ∈ m.rim c, v.blocked s.side = false) : m.clearView v budget c = .ok c := by
  have hnone : (m.rim c).find? (fun s => v.blocked s.side) = none := List.find?_eq_none.2 fun s hs => by simp [h s hs]
  unfold clearView
  rw [hnone]

end Mesh

end DelaunaySurface
