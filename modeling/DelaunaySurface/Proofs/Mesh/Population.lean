import DelaunaySurface.Proofs.Mesh.Boundary
import DelaunaySurface.Proofs.Mesh.Insertion
/-!
# The number of cells, and what becomes of old points

An insertion replaces the `k` cells of its cavity by as many as its rim has sides, at most `k + 2`. So a
mesh of `n` points has at most `2 * n - 2` cells in use, and exactly as many when every cavity was a disk
with all its corners on the rim (`population_insertAll_iff`); then no point is lost.
-/

namespace DelaunaySurface

namespace Mesh

variable {m n : Mesh} {sites l : List Nat} {i budget : Nat} {blades : List Blade} {c : Cavity}

/-- The slots in use. -/
def liveSlots (m : Mesh) : List Nat := m.slots.filter fun t => m.Live t

/-- The number of cells in use. -/
def population (m : Mesh) : Nat := m.liveSlots.length

theorem mem_liveSlots {t : Nat} : t ∈ m.liveSlots ↔ m.Live t := by
  rw [liveSlots, List.mem_filter, decide_eq_true_eq]
  exact and_iff_right_of_imp fun h => List.mem_range.2 (lt_of_live h)

theorem liveSlots_nodup (m : Mesh) : m.liveSlots.Nodup := List.nodup_range.filter _

theorem population_seed (t : Triple Nat) : (seed t).population = 4 := rfl

/-- Some cell in use has the point as a corner. -/
def Present (m : Mesh) (i : Nat) : Prop := ∃ t k, m.Live t ∧ (m.cell t).corners.get k = .site i

/-- The cavity is a disk that keeps its corners on its rim: no rim of as many cells is longer. -/
def Disk (m : Mesh) (c : Cavity) : Prop := (m.rim c).length = c.members.size + 2

namespace Surgery

theorem length_blades (h : Surgery m sites l i blades n) : blades.length = (m.rimOf l).length := by
  simpa using congrArg List.length h.filled.sides

theorem population (h : Surgery m sites l i blades n) (hl : l.Nodup) :
    n.population + l.length = m.population + (m.rimOf l).length := by
  have hm : m.liveSlots.Perm (m.liveSlots.filter (fun t => t ∉ l) ++ l) := by
    refine (List.perm_ext_iff_of_nodup m.liveSlots_nodup ?_).2 fun t => ?_
    · refine List.nodup_append.2 ⟨m.liveSlots_nodup.filter _, hl, ?_⟩
      rintro a ha b hb rfl
      exact of_decide_eq_true (List.mem_filter.1 ha).2 hb
    · simp only [List.mem_append, List.mem_filter, mem_liveSlots, decide_eq_true_eq]
      have := h.live t
      tauto
  have hn : n.liveSlots.Perm (m.liveSlots.filter (fun t => t ∉ l) ++ blades.map (·.slot)) := by
    refine (List.perm_ext_iff_of_nodup n.liveSlots_nodup ?_).2 fun t => ?_
    · refine List.nodup_append.2 ⟨m.liveSlots_nodup.filter _, h.filled.slots_nodup, ?_⟩
      rintro a ha b hb rfl
      obtain ⟨d, hd, rfl⟩ := List.mem_map.1 hb
      obtain ⟨ha, hal⟩ := List.mem_filter.1 ha
      exact h.filled.fresh d hd ⟨mem_liveSlots.1 ha, of_decide_eq_true hal⟩
    · simp only [List.mem_append, List.mem_filter, mem_liveSlots, decide_eq_true_eq, List.mem_map]
      exact h.filled.live_iff t
  have h1 := hm.length_eq
  have h2 := hn.length_eq
  rw [List.length_append] at h1 h2
  rw [List.length_map, h.length_blades] at h2
  simp only [Mesh.population]
  omega

theorem present_new (h : Surgery m sites l i blades n) : n.Present i := by
  obtain ⟨s, b, hb, -⟩ := h.filled.hint
  have hmem := (List.of_mem_zip hb).2
  exact ⟨b.slot, 2, h.live_blade hmem, by rw [h.corners_blade hmem]; rfl⟩

/-- A cavity that is a disk loses no point. -/
theorem present_kept (h : Surgery m sites l i blades n) (hl : m.Patch l) (hdisk : (m.rimOf l).length = l.length + 2)
    {j : Nat} (hj : m.Present j) : n.Present j := by
  obtain ⟨t, k, ht, e⟩ := hj
  by_cases htl : t ∈ l
  · obtain ⟨s, hs, es⟩ := h.surface.corner_on_rim hl hdisk htl k
    obtain ⟨u, hu, p, hp, rfl⟩ := mem_rimOf.1 hs
    obtain ⟨b, hb, eb⟩ := h.exists_blade hu hp
    refine ⟨b.slot, 0, h.live_blade hb, ?_⟩
    rw [h.corners_blade hb, eb]
    exact es.trans e
  · exact ⟨t, k, h.live_kept ht htl, by rw [h.filled.corners_kept t ht htl, e]⟩

end Surgery

/-! ## Runs -/

/-- Every cavity of the run is a disk. -/
def DisksOnly (m : Mesh) (budget : Nat) (v : Nat → Verdicts) (points : List Nat) : Prop :=
  ∀ done i rest n c, points = done ++ i :: rest → m.insertAll budget v done = .ok n →
    n.cavity budget (v i) i = .ok c → (n.opened (v i)).Disk c

theorem disksOnly_concat {v : Nat → Verdicts} {points : List Nat} : m.DisksOnly budget v (points ++ [i]) ↔
    m.DisksOnly budget v points ∧ ∀ n c, m.insertAll budget v points = .ok n →
      n.cavity budget (v i) i = .ok c → (n.opened (v i)).Disk c := by
  constructor
  · intro h
    refine ⟨fun done j rest n c e => h done j (rest ++ [i]) n c (by simp [e]), fun n c => h points i [] n c rfl⟩
  · rintro ⟨h, hlast⟩ done j rest n c e
    rcases List.eq_nil_or_concat rest with rfl | ⟨rest, last, rfl⟩
    · obtain ⟨hd, hj⟩ := List.append_inj' e rfl
      subst hd
      rw [List.cons.injEq] at hj
      obtain ⟨rfl, -⟩ := hj
      exact hlast n c
    · rw [List.concat_eq_append, ← List.cons_append, ← List.append_assoc] at e
      exact h done j rest n c (List.append_inj' e rfl).1

namespace ClosedSurface

/-- A run makes at most two cells more for each point, and exactly two when its cavities are disks. -/
theorem population_insertAll (h : m.ClosedSurface sites) {v : Nat → Verdicts} {points : List Nat}
    (hn : (sites ++ points).Nodup) (hok : m.insertAll budget v points = .ok n) :
    n.population ≤ m.population + 2 * points.length ∧
      (n.population = m.population + 2 * points.length ↔ m.DisksOnly budget v points) := by
  induction points using List.reverseRecOn generalizing n with
  | nil =>
    cases hok
    exact ⟨by simp, by simp [DisksOnly]⟩
  | append_singleton points i ih =>
    obtain ⟨m', hm', hn, hi, hsurface, hok⟩ := h.last_insertion hn hok
    obtain ⟨c, blades, hc, hs, -⟩ := hsurface.surgery hi hok
    have hpatch := hsurface.patch_of_cavity hc
    have hpop := hs.population hpatch.nodup
    have hrim := hsurface.length_rim_le hpatch
    obtain ⟨hle, hiff⟩ := ih hn hm'
    have hdisk : (∀ n c, m.insertAll budget v points = .ok n → n.cavity budget (v i) i = .ok c →
        (n.opened (v i)).Disk c) ↔ (m'.rimOf c.members.toList).length = c.members.toList.length + 2 := by
      constructor
      · intro hall
        have := hall m' c hm' hc
        rwa [Disk, hsurface.rim_of_cavity hc] at this
      · intro hrim n c' hn' hc'
        rw [hm'] at hn'
        cases hn'
        rw [hc] at hc'
        cases hc'
        rwa [Disk, hsurface.rim_of_cavity hc]
    rw [disksOnly_concat, hdisk, ← hiff, List.length_append, List.length_singleton]
    omega

/-- A run whose cavities are disks loses no point. -/
theorem present_insertAll (h : m.ClosedSurface sites) (hp : ∀ j ∈ sites, m.Present j) {v : Nat → Verdicts}
    {points : List Nat} (hn : (sites ++ points).Nodup) (hok : m.insertAll budget v points = .ok n)
    (hdisks : m.DisksOnly budget v points) : ∀ j ∈ sites ++ points, n.Present j := by
  induction points using List.reverseRecOn generalizing n with
  | nil => cases hok; simpa using hp
  | append_singleton points i ih =>
    obtain ⟨m', hm', hn, hi, hsurface, hok⟩ := h.last_insertion hn hok
    rw [← List.append_assoc]
    obtain ⟨c, blades, hc, hs, -⟩ := hsurface.surgery hi hok
    obtain ⟨hdisks, hlast⟩ := disksOnly_concat.1 hdisks
    have hdisk := hlast m' c hm' hc
    rw [Disk, hsurface.rim_of_cavity hc] at hdisk
    intro j hj
    rcases List.mem_append.1 hj with hj | hj
    · exact hs.present_kept (hsurface.patch_of_cavity hc) hdisk (ih hn hm' hdisks j hj)
    · rw [List.mem_singleton.1 hj]
      exact hs.present_new

end ClosedSurface

theorem present_seed (t : Triple Nat) : ∀ j ∈ t.toList, (seed t).Present j := by
  intro j hj
  obtain ⟨k, rfl⟩ := (Triple.mem_iff j t).1 hj
  refine ⟨0, k, rfl, ?_⟩
  match k with
  | 0 => rfl
  | 1 => rfl
  | 2 => rfl

end Mesh

end DelaunaySurface
