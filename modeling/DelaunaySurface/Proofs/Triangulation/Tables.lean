import DelaunaySurface.Proofs.Mesh.Slots
import DelaunaySurface.Triangulation.Tables
/-!
# What the tables hold

Each table of a finished mesh is filled by a loop over the slots, the triangles or the hull. Here every
entry is described by the cells of the mesh, without the loop.
-/

namespace DelaunaySurface

/-! ## Loops that fill tables -/

theorem zip_range {α : Type} (l : List α) (d : α) :
    l.zip (List.range l.length) = (List.range l.length).map fun n => (l.getD n d, n) := by
  apply List.ext_getElem
  · simp
  · intro n h _
    simp only [List.length_zip, List.length_range, Nat.min_self] at h
    simp [h]

theorem setIfInBounds_eq_modify {α : Type} (a : Array α) (i : Nat) (x : α) :
    a.setIfInBounds i x = a.modify i fun _ => x := by
  apply Array.ext
  · simp
  · intro j h _
    rw [Array.getElem_modify, Array.getElem_setIfInBounds (by simpa using h)]

section Fill
variable {α β : Type} (slot : β → Nat) (value : β → α) {l : List β} {a : Array α} {d : α}

theorem getD_fill_of_notMem {j : Nat} (h : ∀ b ∈ l, slot b ≠ j) :
    (l.foldl (fun a b => a.setIfInBounds (slot b) (value b)) a).getD j d = a.getD j d := by
  simp only [setIfInBounds_eq_modify]
  exact getD_foldl_modify_of_notMem slot (fun b _ => value b) l a d h

theorem getD_fill_of_mem (hn : (l.map slot).Nodup) {b : β} (hb : b ∈ l) (hs : slot b < a.size) :
    (l.foldl (fun a b => a.setIfInBounds (slot b) (value b)) a).getD (slot b) d = value b := by
  simp only [setIfInBounds_eq_modify]
  exact getD_foldl_modify_of_mem slot (fun b _ => value b) l a d hn hb hs

/-- An entry of an empty table that was filled, in terms of what it was filled with. -/
theorem getD_fill_eq_some_iff {size : Nat} (hn : (l.map slot).Nodup) (hs : ∀ b ∈ l, slot b < size)
    {j : Nat} {x : α} : (l.foldl (fun a b => a.setIfInBounds (slot b) (some (value b)))
      (Array.replicate size none)).getD j none = some x ↔ ∃ b ∈ l, slot b = j ∧ value b = x := by
  by_cases hj : ∃ b ∈ l, slot b = j
  · obtain ⟨b, hb, rfl⟩ := hj
    rw [getD_fill_of_mem slot (fun b => some (value b)) hn hb (by simpa using hs b hb), Option.some.injEq]
    constructor
    · exact fun e => ⟨b, hb, rfl, e⟩
    · rintro ⟨c, hc, e, rfl⟩
      rw [List.inj_on_of_nodup_map hn hc hb e]
  · rw [getD_fill_of_notMem slot (fun b => some (value b)) fun b hb e => hj ⟨b, hb, e⟩]
    constructor
    · intro e
      simp only [Array.getD_eq_getD_getElem?, Array.getElem?_replicate] at e
      split at e <;> cases e
    · rintro ⟨b, hb, e, -⟩
      exact absurd ⟨b, hb, e⟩ hj

end Fill

/-! ## Triangles -/

/-- The directed edge opposite corner `k`, which has the triangle to its left. -/
def Triangle.side (t : Triangle) (k : Fin 3) : Nat × Nat :=
  (t.get (Triple.next k), t.get (Triple.previous k))

theorem Triangle.edge_eq (t : Triangle) (k : Fin 3) : t.edge k = Edge.between (t.side k).1 (t.side k).2 := rfl

namespace Mesh

variable {m : Mesh} {t u p q : Nat} {k : Fin 3}

/-- The triangle of the cell in a slot. -/
def triangleAt (m : Mesh) (t : Nat) : Triangle := (m.cell t).corners.map Corner.index

theorem corner_eq_site (h : (m.cell t).bounded = true) (k : Fin 3) :
    (m.cell t).corners.get k = .site ((m.triangleAt t).get k) := by
  rw [triangleAt, Triple.get_map, Corner.site_index ((Cell.bounded_iff _).1 h k)]

theorem corners_eq (h : (m.cell t).bounded = true) :
    (m.cell t).corners = ⟨.site (m.triangleAt t).fst, .site (m.triangleAt t).snd, .site (m.triangleAt t).trd⟩ :=
  (Triple.mk.injEq ..).mpr ⟨corner_eq_site h 0, corner_eq_site h 1, corner_eq_site h 2⟩

theorem side_eq_site (h : (m.cell t).bounded = true) (k : Fin 3) :
    m.side t k = ⟨.site ((m.triangleAt t).side k).1, .site ((m.triangleAt t).side k).2⟩ := by
  simp only [Mesh.side, Cell.side, corner_eq_site h, Triangle.side]

theorem side_eq_reverse_iff (hu : (m.cell u).bounded = true) (ht : (m.cell t).bounded = true) {j : Fin 3} :
    m.side u j = (m.side t k).reverse ↔ (m.triangleAt u).side j = ((m.triangleAt t).side k).swap := by
  rw [side_eq_site hu, side_eq_site ht, Side.reverse, Side.mk.injEq, Corner.site.injEq, Corner.site.injEq, Prod.ext_iff]
  rfl

theorem triangle?_eq (h : (m.cell t).bounded = true) : (m.cell t).triangle? = some (m.triangleAt t) := by
  rw [Cell.triangle?, corners_eq h]

theorem mem_slots_of_live (h : m.Live t) : t ∈ m.slots := List.mem_range.2 (lt_of_live h)

theorem mem_triangleSlots : t ∈ m.triangleSlots ↔ m.Live t ∧ (m.cell t).bounded = true := by
  simp only [triangleSlots, List.mem_filter, Bool.and_eq_true]
  exact ⟨fun h => h.2, fun h => ⟨mem_slots_of_live h.1, h⟩⟩

theorem triangleSlots_nodup (m : Mesh) : m.triangleSlots.Nodup := List.nodup_range.filter _

theorem filterMap_triangle? (m : Mesh) :
    (m.triangleSlots.filterMap fun t => (m.cell t).triangle?) = m.triangleSlots.map m.triangleAt := by
  rw [← List.filterMap_eq_map]
  apply List.filterMap_congr
  intro t ht
  exact triangle?_eq (mem_triangleSlots.1 ht).2

/-- The slot of a triangle, by its number. -/
def slotOf (m : Mesh) (p : Nat) : Nat := m.triangleSlots.getD p 0

theorem slotOf_eq (hp : p < m.triangleSlots.length) : m.slotOf p = m.triangleSlots[p] := by
  simp [slotOf, hp]

theorem slotOf_mem (hp : p < m.triangleSlots.length) : m.Live (m.slotOf p) ∧ (m.cell (m.slotOf p)).bounded = true := by
  rw [slotOf_eq hp]
  exact mem_triangleSlots.1 (List.getElem_mem hp)

theorem exists_slotOf (ht : m.Live t) (hb : (m.cell t).bounded = true) : ∃ p < m.triangleSlots.length, m.slotOf p = t := by
  obtain ⟨p, hp, e⟩ := List.mem_iff_getElem.1 (mem_triangleSlots.2 ⟨ht, hb⟩)
  exact ⟨p, hp, (slotOf_eq hp).trans e⟩

theorem map_slotOf (m : Mesh) : (List.range m.triangleSlots.length).map m.slotOf = m.triangleSlots := by
  apply List.ext_getElem
  · simp
  · intro p _ hp
    simp [slotOf_eq hp]

/-- A slot has the number of its triangle. -/
theorem numbering_eq_some_iff : m.numbering.getD u none = some p ↔ p < m.triangleSlots.length ∧ m.slotOf p = u := by
  rw [numbering]
  simp only [zip_range m.triangleSlots 0, List.foldl_map]
  refine (getD_fill_eq_some_iff m.slotOf id ?_ ?_).trans ?_
  · rw [map_slotOf]; exact m.triangleSlots_nodup
  · intro q hq
    exact lt_of_live (slotOf_mem (List.mem_range.1 hq)).1
  · simp only [List.mem_range, id]
    exact ⟨fun ⟨q, hq, e, h⟩ => h ▸ ⟨hq, e⟩, fun ⟨hp, e⟩ => ⟨p, hp, e, rfl⟩⟩

end Mesh

end DelaunaySurface
