import Mathlib
import DelaunaySurface.Mesh.Fan
/-!
# Closed surfaces

What a working mesh is at any time, whatever the verdicts said: its cells in use are glued side to
side, without border, and the unbounded ones go once around infinity. `ClosedSurface` is that
invariant; `twin` is the gluing, an involution on the sides of the cells in use.
-/

namespace DelaunaySurface

/-! ## Corners and sides -/

namespace Triple

theorem mem_indices (k : Fin 3) : k ∈ indices := by
  revert k; decide

theorem eq_zero_or (k : Fin 3) : k = 0 ∨ k = 1 ∨ k = 2 := by
  revert k; decide

theorem next_injective : Function.Injective next := by
  intro j k; revert j k; decide

theorem previous_injective : Function.Injective previous := by
  intro j k; revert j k; decide

@[simp] theorem next_next (k : Fin 3) : next (next k) = previous k := by
  revert k; decide

@[simp] theorem previous_next (k : Fin 3) : previous (next k) = k := by
  revert k; decide

@[simp] theorem next_previous (k : Fin 3) : next (previous k) = k := by
  revert k; decide

@[simp] theorem previous_previous (k : Fin 3) : previous (previous k) = next k := by
  revert k; decide

theorem next_ne (k : Fin 3) : next k ≠ k := by
  revert k; decide

theorem previous_ne (k : Fin 3) : previous k ≠ k := by
  revert k; decide

theorem next_ne_previous (k : Fin 3) : next k ≠ previous k := by
  revert k; decide

/-- Every corner is one of `k` and its two neighbours. -/
theorem eq_or_next_or_previous (j k : Fin 3) : j = k ∨ j = next k ∨ j = previous k := by
  revert j k; decide

end Triple

open Triple (next previous)

/-- The index of a corner; 0 at infinity. -/
def Corner.index : Corner → Nat
  | .site i => i
  | .infinity => 0

theorem Corner.site_index {c : Corner} (h : c ≠ .infinity) : Corner.site c.index = c := by
  cases c with
  | site i => rfl
  | infinity => exact absurd rfl h

@[simp] theorem Side.reverse_reverse (s : Side) : s.reverse.reverse = s := rfl

@[simp] theorem Side.reverse_tail (s : Side) : s.reverse.tail = s.head := rfl

@[simp] theorem Side.reverse_head (s : Side) : s.reverse.head = s.tail := rfl

theorem Side.eq_reverse {s t : Side} (ht : s.tail = t.head) (hh : s.head = t.tail) : s = t.reverse := by
  cases s; cases ht; cases hh; rfl

theorem Side.reverse_eq_iff {s t : Side} : s.reverse = t ↔ s = t.reverse :=
  ⟨fun h => h ▸ rfl, fun h => h ▸ rfl⟩

namespace Cell

/-- The corners differ, so at most one of them is at infinity. -/
def Proper (c : Cell) : Prop := Function.Injective c.corners.get

theorem side_eq_iff {c : Cell} (h : c.Proper) (j k : Fin 3) : c.side j = c.side k ↔ j = k := by
  constructor
  · intro e
    exact Triple.next_injective (h (congrArg Side.tail e))
  · rintro rfl; rfl

theorem tail_ne_head {c : Cell} (h : c.Proper) (k : Fin 3) : (c.side k).tail ≠ (c.side k).head := by
  intro e
  exact Triple.next_ne_previous k (h e)

theorem opposite?_side {c : Cell} (h : c.Proper) (k : Fin 3) : c.opposite? (c.side k) = some k := by
  cases e : c.opposite? (c.side k) with
  | none =>
    rw [opposite?, List.find?_eq_none] at e
    exact absurd (e k (Triple.mem_indices k)) (by simp)
  | some j =>
    have hj := List.find?_some e
    rw [(side_eq_iff h j k).1 (by simpa using hj)]

theorem side_of_opposite? {c : Cell} {s : Side} {k : Fin 3} (h : c.opposite? s = some k) : c.side k = s := by
  simpa using List.find?_some h

theorem bounded_eq_false_iff (c : Cell) : c.bounded = false ↔ ∃ k, c.corners.get k = .infinity := by
  simp [bounded, Triple.mem_iff]

theorem bounded_iff (c : Cell) : c.bounded = true ↔ ∀ k, c.corners.get k ≠ .infinity := by
  simp [bounded, Triple.mem_iff]

theorem bounded_of_corners {cell : Cell} {a b c : Nat} (h : cell.corners = ⟨.site a, .site b, .site c⟩) : cell.bounded = true := by
  rw [bounded, h]
  rfl

end Cell

namespace Mesh

/-! ## Cells in use -/

/-- Slot `t` is in use. -/
def Live (m : Mesh) (t : Nat) : Prop := (m.cell t).alive = true

instance (m : Mesh) (t : Nat) : Decidable (m.Live t) := inferInstanceAs (Decidable (_ = _))

/-- Side `k` of the cell in slot `t`. -/
abbrev side (m : Mesh) (t : Nat) (k : Fin 3) : Side := (m.cell t).side k

/-- The slot across that side. -/
abbrev behind (m : Mesh) (t : Nat) (k : Fin 3) : Nat := (m.cell t).across.get k

theorem lt_of_live {m : Mesh} {t : Nat} (h : m.Live t) : t < m.cells.size := by
  by_contra hlt
  have : m.cell t = Cell.vacant := by
    simp only [cell, Array.getD_eq_getD_getElem?]
    rw [Array.getElem?_eq_none (by omega)]
    rfl
  rw [Live, this] at h
  cases h

/-- Cell `u` lies across the side of cell `t` that comes in from infinity. -/
def Beside (m : Mesh) (t u : Nat) : Prop := ∃ k, (m.side t k).tail = .infinity ∧ m.behind t k = u

/-- The free list holds the slots out of use, each once, and every slot has a mark. -/
structure Slots (m : Mesh) : Prop where
  free_nodup : m.free.Nodup
  mem_free : ∀ t, t ∈ m.free ↔ t < m.cells.size ∧ ¬m.Live t
  mark_size : m.mark.size = m.cells.size

/-- The cells in use form a closed oriented surface over `sites`. -/
structure ClosedSurface (m : Mesh) (sites : List Nat) : Prop extends Slots m where
  /-- No mark is of a later insertion. -/
  mark_le : ∀ t, m.mark.getD t 0 ≤ m.stamp
  proper : ∀ t, m.Live t → (m.cell t).Proper
  among : ∀ t k i, m.Live t → (m.cell t).corners.get k = .site i → i ∈ sites
  side_unique : ∀ t u j k, m.Live t → m.Live u → m.side t j = m.side u k → t = u
  /-- Across a side lies a cell in use with the same side reversed, which in turn leads back. -/
  across : ∀ t k, m.Live t → m.Live (m.behind t k) ∧
    ∃ j, m.side (m.behind t k) j = (m.side t k).reverse ∧ m.behind (m.behind t k) j = t
  /-- No two unbounded cells meet along a side between samples. -/
  finite_side : ∀ t k a b, m.Live t → m.side t k = ⟨.site a, .site b⟩ →
    (m.cell t).bounded = true ∨ (m.cell (m.behind t k)).bounded = true
  /-- The unbounded cells, if there are any, form one cycle around infinity. -/
  ring : ∃ ring : Cycle Nat, ring.Nodup ∧ (∀ t, t ∈ ring ↔ m.Live t ∧ (m.cell t).bounded = false) ∧
    ring.Chain m.Beside
  hint_live : m.Live m.hint
  hint_bounded : (m.cell m.hint).bounded = true

/-! ## Gluing -/

/-- A side of a cell, by slot and number, and the same side of the cell across it. -/
def twin (m : Mesh) (e : Nat × Fin 3) : Nat × Fin 3 :=
  (m.behind e.1 e.2, ((m.cell (m.behind e.1 e.2)).opposite? (m.side e.1 e.2).reverse).getD e.2)

namespace ClosedSurface

variable {m : Mesh} {sites : List Nat} {t u : Nat} {j k : Fin 3}

/-- A directed side belongs to one cell, at one corner. -/
theorem side_inj (h : m.ClosedSurface sites) (ht : m.Live t) (hu : m.Live u) (e : m.side t j = m.side u k) :
    t = u ∧ j = k := by
  have htu := h.side_unique t u j k ht hu e
  subst htu
  exact ⟨rfl, (Cell.side_eq_iff (h.proper t ht) j k).1 e⟩

theorem live_behind (h : m.ClosedSurface sites) (ht : m.Live t) (k : Fin 3) : m.Live (m.behind t k) :=
  (h.across t k ht).1

theorem twin_eq (h : m.ClosedSurface sites) (ht : m.Live t) (hj : m.side (m.behind t k) j = (m.side t k).reverse) :
    m.twin (t, k) = (m.behind t k, j) := by
  simp only [twin, ← hj, Cell.opposite?_side (h.proper _ (h.live_behind ht k)) j, Option.getD_some]

theorem side_twin (h : m.ClosedSurface sites) (ht : m.Live t) (k : Fin 3) :
    m.side (m.twin (t, k)).1 (m.twin (t, k)).2 = (m.side t k).reverse := by
  obtain ⟨-, j, hj, -⟩ := h.across t k ht
  rw [h.twin_eq ht hj, hj]

theorem behind_twin (h : m.ClosedSurface sites) (ht : m.Live t) (k : Fin 3) :
    m.behind (m.twin (t, k)).1 (m.twin (t, k)).2 = t := by
  obtain ⟨-, j, hj, hb⟩ := h.across t k ht
  rw [h.twin_eq ht hj, hb]

theorem twin_twin (h : m.ClosedSurface sites) (ht : m.Live t) (k : Fin 3) : m.twin (m.twin (t, k)) = (t, k) := by
  obtain ⟨hl, j, hj, hb⟩ := h.across t k ht
  have hs : m.side (m.behind (m.behind t k) j) k = (m.side (m.behind t k) j).reverse := by rw [hb, hj]; rfl
  rw [h.twin_eq ht hj, h.twin_eq hl hs, hb]

/-- A cell with a side reversed is the one across it. -/
theorem behind_eq (h : m.ClosedSurface sites) (ht : m.Live t) (hu : m.Live u) (e : m.side u j = (m.side t k).reverse) :
    m.behind t k = u ∧ m.behind u j = t := by
  obtain ⟨hl, i, hi, hb⟩ := h.across t k ht
  obtain ⟨rfl, rfl⟩ := h.side_inj hu hl (e.trans hi.symm)
  exact ⟨rfl, hb⟩

/-- The side opposite infinity lies between sites. -/
theorem exists_side_of_infinity (h : m.ClosedSurface sites) (ht : m.Live t) (hk : (m.cell t).corners.get k = .infinity) :
    ∃ a b, m.side t k = ⟨.site a, .site b⟩ := by
  -- Only one corner is at infinity.
  have hne : ∀ j, j ≠ k → (m.cell t).corners.get j ≠ .infinity := fun j hj e => hj (h.proper t ht (e.trans hk.symm))
  exact ⟨((m.cell t).corners.get (next k)).index, ((m.cell t).corners.get (previous k)).index, by
    rw [Corner.site_index (hne _ (Triple.next_ne k)), Corner.site_index (hne _ (Triple.previous_ne k))]
    rfl⟩

theorem behind_ne (h : m.ClosedSurface sites) (ht : m.Live t) (k : Fin 3) : m.behind t k ≠ t := by
  intro e
  obtain ⟨-, j, hj, -⟩ := h.across t k ht
  rw [e] at hj
  -- Two sides of one cell never run against each other: its three corners would be two.
  have htail : (m.cell t).corners.get (next j) = (m.cell t).corners.get (previous k) := congrArg Side.tail hj
  have hhead : (m.cell t).corners.get (previous j) = (m.cell t).corners.get (next k) := congrArg Side.head hj
  have key : ∀ j k : Fin 3, next j = previous k → previous j ≠ next k := by decide
  exact key j k (h.proper t ht htail) (h.proper t ht hhead)

end ClosedSurface

/-! ## The seed -/

theorem live_seed (t : Triple Nat) (s : Nat) : (seed t).Live s ↔ s < 4 := by
  constructor
  · intro h; exact lt_of_live h
  · intro h
    match s, h with
    | 0, _ => rfl
    | 1, _ => rfl
    | 2, _ => rfl
    | 3, _ => rfl

/-- What holds of all four cells of a seed holds of all its cells in use. -/
theorem forall_live_seed {t : Triple Nat} {P : Nat → Prop} (h0 : P 0) (h1 : P 1) (h2 : P 2) (h3 : P 3) :
    ∀ s, (seed t).Live s → P s := by
  intro s hs
  match s, (live_seed t s).1 hs with
  | 0, _ => exact h0
  | 1, _ => exact h1
  | 2, _ => exact h2
  | 3, _ => exact h3

theorem forall_corner {P : Fin 3 → Prop} (h0 : P 0) (h1 : P 1) (h2 : P 2) : ∀ k, P k := by
  intro k
  match k with
  | 0 => exact h0
  | 1 => exact h1
  | 2 => exact h2

theorem proper_mk {a b c : Corner} {n : Triple Nat} {l : Bool} (hab : a ≠ b) (hbc : b ≠ c) (hac : a ≠ c) :
    Cell.Proper ⟨⟨a, b, c⟩, n, l⟩ := by
  intro j k
  revert j k
  refine forall_corner (forall_corner ?_ ?_ ?_) (forall_corner ?_ ?_ ?_) (forall_corner ?_ ?_ ?_) <;>
    simp [Triple.get, *, Ne.symm]

theorem closedSurface_seed {a b c : Nat} (hab : a ≠ b) (hbc : b ≠ c) (hac : a ≠ c) :
    (seed ⟨a, b, c⟩).ClosedSurface [a, b, c] where
  free_nodup := by simp [seed]
  mem_free s := by
    have : (seed ⟨a, b, c⟩).cells.size = 4 := rfl
    rw [live_seed, this]
    simp [seed]
  mark_size := rfl
  mark_le s := by
    rcases s with _ | _ | _ | _ | s <;> exact Nat.le_refl _
  proper := by
    apply forall_live_seed
    · exact proper_mk (by simpa) (by simpa) (by simpa)
    · exact proper_mk (by simpa using hbc.symm) (by simp) (by simp)
    · exact proper_mk (by simpa) (by simp) (by simp)
    · exact proper_mk (by simpa using hab.symm) (by simp) (by simp)
  among s k i hs := by
    revert k
    revert s
    apply forall_live_seed <;> apply forall_corner <;> intro h <;> cases h <;> simp
  side_unique s u j k hs hu := by
    revert j k
    revert u
    revert s
    apply forall_live_seed <;> apply forall_live_seed <;> apply forall_corner <;> apply forall_corner <;>
      first
      | exact fun _ => rfl
      | (intro h
         simp only [side, seed, cell, Cell.side, Side.mk.injEq, Triple.get, Triple.next, Triple.previous] at h
         simp_all)
  across s k hs := by
    revert k
    revert s
    apply forall_live_seed
    · exact forall_corner ⟨rfl, 2, rfl, rfl⟩ ⟨rfl, 2, rfl, rfl⟩ ⟨rfl, 2, rfl, rfl⟩
    · exact forall_corner ⟨rfl, 1, rfl, rfl⟩ ⟨rfl, 0, rfl, rfl⟩ ⟨rfl, 0, rfl, rfl⟩
    · exact forall_corner ⟨rfl, 1, rfl, rfl⟩ ⟨rfl, 0, rfl, rfl⟩ ⟨rfl, 1, rfl, rfl⟩
    · exact forall_corner ⟨rfl, 1, rfl, rfl⟩ ⟨rfl, 0, rfl, rfl⟩ ⟨rfl, 2, rfl, rfl⟩
  finite_side s k x y hs := by
    revert k
    revert s
    apply forall_live_seed
    · exact forall_corner (fun _ => .inl rfl) (fun _ => .inl rfl) (fun _ => .inl rfl)
    all_goals exact forall_corner (fun h => by cases h) (fun h => by cases h) (fun _ => .inr rfl)
  ring := by
    refine ⟨([1, 2, 3] : List Nat), by decide, ?_, ?_⟩
    · intro s
      rw [live_seed, Cycle.mem_coe_iff]
      constructor
      · simp only [List.mem_cons, List.not_mem_nil, or_false]
        rintro (rfl | rfl | rfl) <;> exact ⟨by decide, rfl⟩
      · rintro ⟨h, hb⟩
        interval_cases s
        · cases hb
        · decide
        · decide
        · decide
    · rw [Cycle.chain_coe_cons]
      simp only [List.cons_append, List.nil_append, List.isChain_cons_cons, List.isChain_singleton, and_true]
      exact ⟨⟨1, rfl, rfl⟩, ⟨1, rfl, rfl⟩, ⟨1, rfl, rfl⟩⟩
  hint_live := rfl
  hint_bounded := rfl

end Mesh

end DelaunaySurface
