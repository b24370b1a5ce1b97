import DelaunaySurface.Proofs.Mesh.Population
/-!
# The budget

A cavity takes each cell in use at most once, so an insertion spends no more operations than there are
cells (`insert_within`), and a run of insertions stays within a budget that is square in the number of
points (`insertAll_within`). Nothing is asked of the verdicts.
-/

namespace DelaunaySurface

namespace Mesh

variable {m n : Mesh} {sites l points : List Nat} {v : Verdicts} {c c' : Cavity} {t i budget start : Nat} {k : Fin 3} {todo : List Nat}

theorem length_le_population (hn : l.Nodup) (hl : ∀ t ∈ l, m.Live t) : l.length ≤ m.population :=
  (List.subperm_of_subset hn fun t ht => mem_liveSlots.2 (hl t ht)).length_le

/-! ## What a cavity costs -/

/-- The cavity was charged one operation for each of its members. -/
def Paid (m : Mesh) (c : Cavity) : Prop := c.operations = m.tally.operations + c.members.size

theorem paid_absorb (h : m.Paid c) (t : Nat) : m.Paid (m.absorb c t) := by
  unfold Paid at h ⊢
  simp only [absorb, Array.size_push, h]
  omega

theorem paid_first (m : Mesh) (t : Nat) : m.Paid (m.absorb m.unopened t) :=
  paid_absorb (c := m.unopened) rfl t

namespace Cut

theorem size_le (hm : m.ClosedSurface sites) (h : m.Cut c) : c.members.size ≤ m.population := by
  rw [← Array.length_toList]
  exact length_le_population h.patch.nodup (h.patch.live hm)

theorem notMem (h : m.Cut c) (hn : m.absorbed c t = false) : t ∉ c.members.toList := by
  rw [← h.absorbed_iff, hn]
  nofun

/-- A budget for all cells has room for one more member. -/
theorem lt_budget (hm : m.ClosedSurface sites) (h : m.Cut c) (hpaid : m.Paid c) (hb : m.tally.operations + m.population ≤ budget)
    (ht : t ∈ c.members.toList) (hn : m.absorbed c (m.behind t k) = false) : c.operations < budget := by
  have hsize := (h.absorb hm ht (h.notMem hn)).size_le hm
  rw [Mesh.absorb, Array.size_push] at hsize
  rw [hpaid]
  omega

end Cut

theorem spread_within (hm : m.ClosedSurface sites) (hc : m.Cut c) (hpaid : m.Paid c) (hb : m.tally.operations + m.population ≤ budget)
    (htodo : ∀ u ∈ todo, ∃ t ∈ c.members.toList, ∃ k, m.behind t k = u) : ∃ c', spread m v budget c todo = .ok c' := by
  fun_induction spread m v budget c todo with
  | case1 c => exact ⟨c, rfl⟩
  | case2 c t todo hskip ih => exact ih hc hpaid fun u hu => htodo u (by simp [hu])
  | case3 c t todo hskip hlt ih =>
    obtain ⟨u, hu, k, rfl⟩ := htodo t (by simp)
    simp only [Bool.or_eq_true, Bool.not_eq_true', not_or, Bool.not_eq_true] at hskip
    refine ih (hc.absorb hm hu (hc.notMem hskip.1)) (paid_absorb hpaid _) fun w hw => ?_
    rcases List.mem_append.1 hw with hw | hw
    · obtain ⟨x, hx, j, e⟩ := htodo w (by simp [hw])
      exact ⟨x, by simp [absorb, hx], j, e⟩
    · obtain ⟨j, e⟩ := (Triple.mem_iff _ _).1 hw
      exact ⟨_, by simp [absorb], j, e⟩
  | case4 c t todo hskip hlt =>
    obtain ⟨u, hu, k, rfl⟩ := htodo t (by simp)
    simp only [Bool.or_eq_true, Bool.not_eq_true', not_or, Bool.not_eq_true] at hskip
    exact absurd (hc.lt_budget hm hpaid hb hu hskip.1) hlt

theorem conflictRegion_within (hm : m.ClosedSurface sites) (hf : ∀ t, m.mark.getD t 0 < m.stamp) (hs : m.Live start)
    (hb : m.tally.operations + m.population ≤ budget) :
    ∃ c, m.conflictRegion v budget start = .ok c ∧ m.Cut c ∧ m.Paid c := by
  have hcut := Cut.first hm hf hs
  have hpop : 0 < m.population := List.length_pos_of_mem (mem_liveSlots.2 hs)
  obtain ⟨c, hc⟩ : ∃ c, m.conflictRegion v budget start = .ok c := by
    rw [conflictRegion, if_pos (show m.unopened.operations < budget from (by omega : m.tally.operations < budget))]
    refine spread_within hm hcut (paid_first m start) hb fun u hu => ?_
    obtain ⟨j, e⟩ := (Triple.mem_iff _ _).1 hu
    exact ⟨start, by simp [absorb, unopened], j, e⟩
  exact ⟨c, hc, conflictRegion_cut hm hf hs hc, conflictRegion_induction (P := m.Paid) (paid_first m start)
    (fun c t k h _ _ _ => paid_absorb h _) hc⟩

theorem clearView_within (hm : m.ClosedSurface sites) (hc : m.Cut c) (hpaid : m.Paid c)
    (hb : m.tally.operations + m.population ≤ budget) :
    ∃ c', m.clearView v budget c = .ok c' ∧ m.Cut c' ∧ m.Paid c' := by
  fun_induction clearView m v budget c with
  | case1 c hnone => exact ⟨c, rfl, hc, hpaid⟩
  | case2 c s hsome hlt ih =>
    obtain ⟨t, ht, k, hk, rfl⟩ := mem_rim (List.mem_of_find?_eq_some hsome)
    exact ih ((hc.absorb hm ht (hc.notMem hk)).repaired _) (paid_absorb hpaid _)
  | case3 c s hsome hlt =>
    obtain ⟨t, ht, k, hk, rfl⟩ := mem_rim (List.mem_of_find?_eq_some hsome)
    exact absurd (hc.lt_budget hm hpaid hb ht hk) hlt

/-! ## What an insertion costs -/

theorem operations_opened (m : Mesh) (v : Verdicts) : (m.opened v).tally.operations = m.tally.operations := by
  unfold opened locate
  split <;> rfl

theorem population_opened (m : Mesh) (v : Verdicts) : (m.opened v).population = m.population := by
  unfold population liveSlots slots
  rw [opened_cells]
  refine congrArg List.length (List.filter_congr fun t _ => decide_eq_decide.2 ?_)
  rw [Live, Live, cell_opened]

namespace ClosedSurface

theorem cavity_within (h : m.ClosedSurface sites) (hb : m.tally.operations + m.population ≤ budget) :
    m.cavity budget v i = .error (.inconsistent i) ∨
      ∃ c, m.cavity budget v i = .ok c ∧ c.operations ≤ m.tally.operations + m.population := by
  unfold cavity
  split
  · exact .inl rfl
  · rename_i start hstart
    have hopen := h.opened v
    rw [← operations_opened m v, ← population_opened m v] at hb ⊢
    have hlive : (m.opened v).Live start := by rw [Live, cell_opened]; exact h.live_start hstart
    obtain ⟨c, hc, hcut, hpaid⟩ := conflictRegion_within (v := v) hopen (h.mark_opened v) hlive hb
    obtain ⟨c', hc', hcut', hpaid'⟩ := clearView_within (v := v) hopen hcut hpaid hb
    refine .inr ⟨c', ?_, ?_⟩
    · rw [hc]
      exact hc'
    · rw [hpaid']
      exact Nat.add_le_add_left (hcut'.size_le hopen) _

/-- An insertion within a budget for all cells does not run out of it. -/
theorem insert_within (h : m.ClosedSurface sites) (hi : i ∉ sites) (hb : m.tally.operations + m.population ≤ budget) :
    m.insert budget v i = .error (.inconsistent i) ∨ ∃ n, m.insert budget v i = .ok n ∧
      n.tally.operations ≤ m.tally.operations + m.population ∧ n.population ≤ m.population + 2 := by
  rcases h.cavity_within (v := v) (i := i) hb with herror | ⟨c, hc, hle⟩
  · refine .inl ?_
    rw [insert_eq, herror]
    rfl
  · cases hins : m.insert budget v i with
    | error e =>
      rw [insert_eq, hc] at hins
      simp only [bind, Except.bind] at hins
      split at hins
      · cases hins
      · exact .inl hins.symm
    | ok n =>
      refine .inr ⟨n, rfl, ?_, ?_⟩
      · rw [insert_eq, hc] at hins
        simp only [bind, Except.bind] at hins
        split at hins
        · cases hins
          rw [tally_fill]
          exact hle
        · cases hins
      · obtain ⟨c', blades, hc', hs, -⟩ := h.surgery hi hins
        have hpatch := h.patch_of_cavity hc'
        have hpop := hs.population hpatch.nodup
        have hrim := h.length_rim_le hpatch
        omega

/-- A run of insertions does not run out of a budget that is square in the number of points. -/
theorem insertAll_within (h : m.ClosedSurface sites) {v : Nat → Verdicts} (hn : (sites ++ points).Nodup)
    (hb : m.tally.operations + points.length * (m.population + points.length) ≤ budget) :
    (∃ i, m.insertAll budget v points = .error (.inconsistent i)) ∨ ∃ n, m.insertAll budget v points = .ok n := by
  induction points generalizing m sites with
  | nil => exact .inr ⟨m, rfl⟩
  | cons i rest ih =>
    have hi : i ∉ sites := fun hi => (List.nodup_append.1 hn).2.2 i hi i (by simp) rfl
    rw [List.length_cons] at hb
    have hfirst : m.tally.operations + m.population ≤ budget := by nlinarith
    rw [insertAll_cons]
    rw [List.append_cons] at hn
    rcases h.insert_within (v := v i) hi hfirst with herror | ⟨n, hok, hops, hpop⟩
    · rw [herror]
      exact .inl ⟨i, rfl⟩
    · rw [hok]
      refine ih (h.insert hi hok) hn ?_
      nlinarith

end ClosedSurface

end Mesh

end DelaunaySurface
