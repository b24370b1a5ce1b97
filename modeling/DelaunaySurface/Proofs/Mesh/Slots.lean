import DelaunaySurface.Proofs.Mesh.Surface
/-!
# Slots

What the steps of filling a cavity do to the slots: clearing its members, putting up a cell for each
side of its rim, and joining these. Each step is described by the cell in every slot afterwards.
-/

namespace DelaunaySurface

/-! ## Arrays changed at some places -/

theorem getD_modify {α : Type} (a : Array α) (i j : Nat) (f : α → α) (d : α) :
    (a.modify i f).getD j d = if i = j ∧ i < a.size then f (a.getD j d) else a.getD j d := by
  simp only [Array.getD_eq_getD_getElem?, Array.getElem?_modify]
  by_cases h : i = j
  · subst h
    by_cases hi : i < a.size <;> simp [hi]
  · simp [h]

section Fold
variable {α β : Type} (slot : β → Nat) (f : β → α → α)

theorem size_foldl_modify (l : List β) (a : Array α) :
    (l.foldl (fun a b => a.modify (slot b) (f b)) a).size = a.size := by
  induction l generalizing a with
  | nil => rfl
  | cons b l ih => rw [List.foldl_cons, ih, Array.size_modify]

theorem getD_foldl_modify_of_notMem (l : List β) (a : Array α) (d : α) {j : Nat} (h : ∀ b ∈ l, slot b ≠ j) :
    (l.foldl (fun a b => a.modify (slot b) (f b)) a).getD j d = a.getD j d := by
  induction l generalizing a with
  | nil => rfl
  | cons b l ih =>
    rw [List.foldl_cons, ih _ fun c hc => h c (by simp [hc]), getD_modify, if_neg fun e => h b (by simp) e.1]

theorem getD_foldl_modify_of_mem (l : List β) (a : Array α) (d : α) (hn : (l.map slot).Nodup) {b : β} (hb : b ∈ l)
    (hs : slot b < a.size) :
    (l.foldl (fun a b => a.modify (slot b) (f b)) a).getD (slot b) d = f b (a.getD (slot b) d) := by
  induction l generalizing a with
  | nil => cases hb
  | cons c l ih =>
    obtain ⟨hc, hn⟩ := List.nodup_cons.1 hn
    rw [List.foldl_cons]
    rcases List.mem_cons.1 hb with rfl | hb
    · rw [getD_foldl_modify_of_notMem, getD_modify, if_pos ⟨rfl, hs⟩]
      intro x hx e
      exact hc (e ▸ List.mem_map_of_mem hx)
    · rw [ih _ hn hb (by simpa using hs), getD_modify, if_neg]
      rintro ⟨e, -⟩
      exact hc (e ▸ List.mem_map_of_mem hb)

end Fold

/-! ## One cell told of a neighbour -/

/-- The cell with `n` across the given side, if it has that side. -/
def Cell.relink (c : Cell) (s : Side) (n : Nat) : Cell :=
  match c.opposite? s with
  | some k => { c with across := c.across.set k n }
  | none => c

namespace Cell

theorem relink_corners (c : Cell) (s : Side) (n : Nat) : (c.relink s n).corners = c.corners := by
  unfold relink; split <;> rfl

theorem relink_alive (c : Cell) (s : Side) (n : Nat) : (c.relink s n).alive = c.alive := by
  unfold relink; split <;> rfl

theorem relink_across {c : Cell} (h : c.Proper) (s : Side) (n : Nat) (k : Fin 3) :
    (c.relink s n).across.get k = if c.side k = s then n else c.across.get k := by
  unfold relink
  split
  · rename_i j hj
    have hs := side_of_opposite? hj
    simp only [Triple.get_set, ← hs, side_eq_iff h]
  · rename_i hnone
    rw [if_neg]
    rintro rfl
    rw [opposite?_side h] at hnone
    cases hnone

end Cell

namespace Mesh

variable {m : Mesh}

/-! ## Clearing a cavity -/

theorem cell_clear_of_mem {l : List Nat} (hn : l.Nodup) (hl : ∀ t ∈ l, m.Live t) {t : Nat} (ht : t ∈ l) :
    (m.clear l).cell t = { m.cell t with alive := false } :=
  getD_foldl_modify_of_mem id (fun _ (c : Cell) => { c with alive := false }) l m.cells _ (by simpa using hn) ht
    (lt_of_live (hl t ht))

theorem cell_clear_of_notMem {l : List Nat} {t : Nat} (ht : t ∉ l) : (m.clear l).cell t = m.cell t :=
  getD_foldl_modify_of_notMem id (fun _ (c : Cell) => { c with alive := false }) l m.cells _
    fun b hb (e : b = t) => ht (e ▸ hb)

theorem size_clear (l : List Nat) : (m.clear l).cells.size = m.cells.size :=
  size_foldl_modify id (fun _ (c : Cell) => { c with alive := false }) l m.cells

theorem live_clear {l : List Nat} (hn : l.Nodup) (hl : ∀ t ∈ l, m.Live t) (t : Nat) :
    (m.clear l).Live t ↔ m.Live t ∧ t ∉ l := by
  by_cases ht : t ∈ l
  · simp [Live, cell_clear_of_mem hn hl ht, ht]
  · simp [Live, cell_clear_of_notMem ht, ht]

theorem slots_clear (h : m.Slots) {l : List Nat} (hn : l.Nodup) (hl : ∀ t ∈ l, m.Live t) : (m.clear l).Slots where
  free_nodup := by
    refine List.nodup_append.2 ⟨List.nodup_reverse.2 hn, h.free_nodup, ?_⟩
    rintro a ha b hb rfl
    exact ((h.mem_free a).1 hb).2 (hl a (List.mem_reverse.1 ha))
  mem_free t := by
    rw [live_clear hn hl, size_clear]
    simp only [clear, List.mem_append, List.mem_reverse, h.mem_free]
    have := fun ht => lt_of_live (hl t ht)
    tauto
  mark_size := (size_clear l).symm ▸ h.mark_size

/-! ## Placing a cell -/

/-- The slot that the next new cell goes to. -/
def vacancy (m : Mesh) : Nat := m.free.headD m.cells.size

theorem place_snd (c : Cell) : (m.place c).2 = m.vacancy := by
  unfold place vacancy
  cases m.free <;> rfl

theorem not_live_vacancy (h : m.Slots) : ¬m.Live m.vacancy := by
  unfold vacancy
  cases hf : m.free with
  | nil => exact fun hl => Nat.lt_irrefl _ (lt_of_live hl)
  | cons t free => exact ((h.mem_free t).1 (by simp [hf])).2

theorem cell_place (h : m.Slots) (c : Cell) (t : Nat) :
    (m.place c).1.cell t = if t = m.vacancy then c else m.cell t := by
  unfold place vacancy
  cases hf : m.free with
  | nil =>
    simp only [cell, Array.getD_eq_getD_getElem?, Array.getElem?_push, List.headD_nil]
    split <;> rfl
  | cons u free =>
    have hu := ((h.mem_free u).1 (by simp [hf])).1
    simp only [cell, Array.getD_eq_getD_getElem?, Array.getElem?_setIfInBounds, List.headD_cons, eq_comm (a := u)]
    by_cases htu : t = u
    · subst htu; simp [hu]
    · simp [htu]

theorem live_place (h : m.Slots) {c : Cell} (hc : c.alive = true) (t : Nat) :
    (m.place c).1.Live t ↔ m.Live t ∨ t = m.vacancy := by
  unfold Live
  rw [cell_place h]
  by_cases ht : t = m.vacancy
  · simp [ht, hc]
  · simp [ht]

theorem slots_place (h : m.Slots) {c : Cell} (hc : c.alive = true) : (m.place c).1.Slots := by
  have hlive := live_place h hc
  revert hlive
  unfold place vacancy
  cases hf : m.free with
  | nil =>
    intro hlive
    refine ⟨by simp, fun t => ?_, by simp [h.mark_size]⟩
    rw [hlive]
    have := (h.mem_free t).not.1 (by simp [hf])
    simp only [List.headD_nil, Array.size_push, List.not_mem_nil, false_iff]
    by_cases ht : m.Live t
    · tauto
    · simp only [ht, not_false_eq_true, and_true] at this
      simp only [ht, false_or]
      omega
  | cons u free =>
    intro hlive
    have hn := List.nodup_cons.1 (hf ▸ h.free_nodup)
    refine ⟨hn.2, fun t => ?_, by simp [h.mark_size]⟩
    rw [hlive]
    have := h.mem_free t
    simp only [hf, List.mem_cons, List.headD_cons, Array.size_setIfInBounds] at this ⊢
    by_cases htu : t = u
    · subst htu; simp [hn.1]
    · simp only [htu, false_or] at this
      simp only [this, htu, or_false]

theorem mark_place (c : Cell) (t : Nat) : (m.place c).1.mark.getD t 0 = m.mark.getD t 0 := by
  unfold place
  split
  · rfl
  · simp only [Array.getD_eq_getD_getElem?, Array.getElem?_push]
    split
    · rename_i ht; simp [ht]
    · rfl

/-! ## Connecting a cell -/

theorem cell_connect {t : Nat} (ht : t < m.cells.size) (s : Side) (n u : Nat) :
    (m.connect t s n).cell u = if u = t then (m.cell u).relink s n else m.cell u := by
  simp only [connect, cell, getD_modify, ht, and_true, eq_comm (a := t)]
  rfl

theorem live_connect {t : Nat} (ht : t < m.cells.size) (s : Side) (n u : Nat) :
    (m.connect t s n).Live u ↔ m.Live u := by
  unfold Live
  rw [cell_connect ht]
  split
  · rw [Cell.relink_alive]
  · rfl

theorem slots_connect (h : m.Slots) {t : Nat} (ht : t < m.cells.size) (s : Side) (n : Nat) :
    (m.connect t s n).Slots where
  free_nodup := h.free_nodup
  mem_free u := by
    rw [live_connect ht]
    simpa [connect] using h.mem_free u
  mark_size := by simpa [connect] using h.mark_size

end Mesh

end DelaunaySurface
