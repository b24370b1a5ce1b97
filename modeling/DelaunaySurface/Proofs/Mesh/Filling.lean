import DelaunaySurface.Proofs.Mesh.Patch
import DelaunaySurface.Proofs.Mesh.Slots
/-!
# Filling a cavity

`fill` clears the members of a cavity, puts up one cell for each side of the rim and joins these.
`fill_filled` says what comes out: the cells outside the cavity with the new ones across the rim, and
the new ones, each between the point and its side.
-/

namespace DelaunaySurface

open Triple (next previous)

namespace Mesh

variable {m : Mesh} {i : Nat}

/-! ## Putting up the cells -/

/-- The cell between the point `i` and a side of the rim, not yet joined with others. -/
def bladeCell (i : Nat) (s : RimSide) : Cell :=
  ⟨⟨s.side.tail, s.side.head, .site i⟩, ⟨0, 0, s.outside⟩, true⟩

/-- The mesh with the cell for one side of the rim put up. -/
def raiseSide (m : Mesh) (i : Nat) (s : RimSide) : Mesh :=
  (m.place (bladeCell i s)).1.connect s.outside s.side.reverse m.vacancy

theorem raise_cons (s : RimSide) (rim : List RimSide) : raise i m (s :: rim) =
    ((raise i (m.raiseSide i s) rim).1, ⟨m.vacancy, s.side⟩ :: (raise i (m.raiseSide i s) rim).2) := by
  rw [raiseSide, ← place_snd (bladeCell i s)]
  rfl

theorem cell_raiseSide (h : m.Slots) {s : RimSide} (ho : m.Live s.outside) (t : Nat) :
    (m.raiseSide i s).cell t =
      if t = m.vacancy then bladeCell i s
      else if t = s.outside then (m.cell t).relink s.side.reverse m.vacancy else m.cell t := by
  have hlive : (m.place (bladeCell i s)).1.Live s.outside := (live_place h rfl _).2 (.inl ho)
  rw [raiseSide, cell_connect (lt_of_live hlive), cell_place h]
  by_cases ht : t = m.vacancy
  · have : t ≠ s.outside := by rintro rfl; exact not_live_vacancy h (ht ▸ ho)
    simp [ht, ht ▸ this]
  · simp [ht]

theorem live_raiseSide (h : m.Slots) {s : RimSide} (ho : m.Live s.outside) (t : Nat) :
    (m.raiseSide i s).Live t ↔ m.Live t ∨ t = m.vacancy := by
  have hlive : (m.place (bladeCell i s)).1.Live s.outside := (live_place h rfl _).2 (.inl ho)
  rw [raiseSide, live_connect (lt_of_live hlive), live_place h rfl]

theorem slots_raiseSide (h : m.Slots) {s : RimSide} (ho : m.Live s.outside) : (m.raiseSide i s).Slots :=
  slots_connect (slots_place h rfl) (lt_of_live ((live_place h rfl _).2 (.inl ho))) _ _

theorem cell_raiseSide_of_ne (h : m.Slots) {s : RimSide} (ho : m.Live s.outside) {t : Nat} (ht : m.Live t)
    (hne : t ≠ s.outside) : (m.raiseSide i s).cell t = m.cell t := by
  rw [cell_raiseSide h ho, if_neg (by rintro rfl; exact not_live_vacancy h ht), if_neg hne]

theorem corners_raiseSide (h : m.Slots) {s : RimSide} (ho : m.Live s.outside) {t : Nat} (ht : m.Live t) :
    ((m.raiseSide i s).cell t).corners = (m.cell t).corners := by
  rw [cell_raiseSide h ho, if_neg (by rintro rfl; exact not_live_vacancy h ht)]
  split
  · rw [Cell.relink_corners]
  · rfl

theorem behind_raiseSide (h : m.Slots) {s : RimSide} (ho : m.Live s.outside) {t : Nat} (ht : m.Live t)
    (hp : (m.cell t).Proper) (k : Fin 3) : (m.raiseSide i s).behind t k =
      if t = s.outside ∧ m.side t k = s.side.reverse then m.vacancy else m.behind t k := by
  simp only [behind, cell_raiseSide h ho, if_neg (show t ≠ m.vacancy by rintro rfl; exact not_live_vacancy h ht)]
  by_cases hto : t = s.outside
  · rw [if_pos hto, Cell.relink_across hp]
    simp only [side, hto, true_and]
  · simp [hto]

section Raise

/-- What putting up cells needs: room, and a cell in use across each side. -/
def LiveOutside (m : Mesh) (rim : List RimSide) : Prop := ∀ s ∈ rim, m.Live s.outside

theorem LiveOutside.tail (h : m.Slots) {s : RimSide} {rim : List RimSide} (ho : m.LiveOutside (s :: rim)) :
    (m.raiseSide i s).LiveOutside rim := fun r hr =>
  (live_raiseSide h (ho s (by simp)) _).2 (.inl (ho r (by simp [hr])))

theorem slots_raise {rim : List RimSide} (h : m.Slots) (ho : m.LiveOutside rim) : (raise i m rim).1.Slots := by
  induction rim generalizing m with
  | nil => exact h
  | cons s rim ih =>
    rw [raise_cons]
    exact ih (slots_raiseSide h (ho s (by simp))) (ho.tail h)

theorem sides_raise (rim : List RimSide) : (raise i m rim).2.map (·.side) = rim.map (·.side) := by
  induction rim generalizing m with
  | nil => rfl
  | cons s rim ih => rw [raise_cons, List.map_cons, List.map_cons, ih]

theorem live_raise {rim : List RimSide} (h : m.Slots) (ho : m.LiveOutside rim) (t : Nat) :
    (raise i m rim).1.Live t ↔ m.Live t ∨ ∃ b ∈ (raise i m rim).2, b.slot = t := by
  induction rim generalizing m with
  | nil => simp [raise]
  | cons s rim ih =>
    rw [raise_cons, ih (slots_raiseSide h (ho s (by simp))) (ho.tail h), live_raiseSide h (ho s (by simp))]
    simp only [List.mem_cons, exists_eq_or_imp, eq_comm (a := t), or_assoc]

theorem not_live_of_mem_raise {rim : List RimSide} (h : m.Slots) (ho : m.LiveOutside rim) :
    ∀ b ∈ (raise i m rim).2, ¬m.Live b.slot := by
  induction rim generalizing m with
  | nil => simp [raise]
  | cons s rim ih =>
    rw [raise_cons]
    intro b hb
    rcases List.mem_cons.1 hb with rfl | hb
    · exact not_live_vacancy h
    · have := ih (slots_raiseSide h (ho s (by simp))) (ho.tail h) b hb
      rw [live_raiseSide h (ho s (by simp))] at this
      tauto

theorem nodup_raise {rim : List RimSide} (h : m.Slots) (ho : m.LiveOutside rim) :
    ((raise i m rim).2.map (·.slot)).Nodup := by
  induction rim generalizing m with
  | nil => simp [raise]
  | cons s rim ih =>
    rw [raise_cons, List.map_cons, List.nodup_cons]
    have hs := slots_raiseSide (i := i) h (ho s (by simp))
    refine ⟨fun hmem => ?_, ih hs (ho.tail h)⟩
    obtain ⟨b, hb, e⟩ := List.mem_map.1 hmem
    exact not_live_of_mem_raise hs (ho.tail h) b hb
      ((live_raiseSide h (ho s (by simp)) _).2 (.inr e))

/-- A cell that lies across no side of the rim stays as it is. -/
theorem cell_raise_of_ne {rim : List RimSide} (h : m.Slots) (ho : m.LiveOutside rim) {t : Nat} (ht : m.Live t)
    (hne : ∀ s ∈ rim, s.outside ≠ t) : (raise i m rim).1.cell t = m.cell t := by
  induction rim generalizing m with
  | nil => rfl
  | cons s rim ih =>
    have hos := ho s (by simp)
    rw [raise_cons, ih (slots_raiseSide h hos) (ho.tail h) ((live_raiseSide h hos t).2 (.inl ht))
      fun r hr => hne r (by simp [hr]), cell_raiseSide_of_ne h hos ht (hne s (by simp)).symm]

theorem corners_raise {rim : List RimSide} (h : m.Slots) (ho : m.LiveOutside rim) {t : Nat} (ht : m.Live t) :
    ((raise i m rim).1.cell t).corners = (m.cell t).corners := by
  induction rim generalizing m with
  | nil => rfl
  | cons s rim ih =>
    have hos := ho s (by simp)
    rw [raise_cons, ih (slots_raiseSide h hos) (ho.tail h) ((live_raiseSide h hos t).2 (.inl ht)),
      corners_raiseSide h hos ht]

/-- A side that is no side of the rim keeps what lies across it. -/
theorem behind_raise_of_ne {rim : List RimSide} (h : m.Slots) (ho : m.LiveOutside rim) {t : Nat} (ht : m.Live t)
    (hp : (m.cell t).Proper) {k : Fin 3} (hne : ∀ s ∈ rim, s.outside = t → s.side.reverse ≠ m.side t k) :
    (raise i m rim).1.behind t k = m.behind t k := by
  induction rim generalizing m with
  | nil => rfl
  | cons s rim ih =>
    have hos := ho s (by simp)
    have hc := corners_raiseSide (i := i) h hos ht
    have hside : ∀ j, (m.raiseSide i s).side t j = m.side t j := fun j => by simp only [side, Cell.side, hc]
    rw [raise_cons, ih (slots_raiseSide h hos) (ho.tail h) ((live_raiseSide h hos t).2 (.inl ht))
      (by simpa only [Cell.Proper, hc] using hp) (fun r hr => by rw [hside]; exact hne r (by simp [hr])),
      behind_raiseSide h hos ht hp, if_neg]
    rintro ⟨rfl, e⟩
    exact hne s (by simp) rfl e.symm

/-- Across a side of the rim now lies the new cell on that side. -/
theorem behind_raise_of_eq {rim : List RimSide} (h : m.Slots) (ho : m.LiveOutside rim)
    (hn : (rim.map (·.side)).Nodup) {t : Nat} (ht : m.Live t) (hp : (m.cell t).Proper) {k : Fin 3}
    {s : RimSide} {b : Blade} (hb : (s, b) ∈ rim.zip (raise i m rim).2) (hst : s.outside = t)
    (hs : s.side.reverse = m.side t k) : (raise i m rim).1.behind t k = b.slot := by
  induction rim generalizing m with
  | nil => simp [raise] at hb
  | cons r rim ih =>
    obtain ⟨hr, hn⟩ := List.nodup_cons.1 hn
    have hor := ho r (by simp)
    have hc := corners_raiseSide (i := i) h hor ht
    have hside : ∀ j, (m.raiseSide i r).side t j = m.side t j := fun j => by simp only [side, Cell.side, hc]
    have hp' : ((m.raiseSide i r).cell t).Proper := by simpa only [Cell.Proper, hc] using hp
    have ht' := (live_raiseSide (i := i) h hor t).2 (.inl ht)
    rw [raise_cons] at hb ⊢
    rw [List.zip_cons_cons, List.mem_cons, Prod.mk.injEq] at hb
    rcases hb with ⟨rfl, rfl⟩ | hb
    · -- The cell was put up first; no later side of the rim is this one again.
      rw [behind_raise_of_ne (slots_raiseSide h hor) (ho.tail h) ht' hp', behind_raiseSide h hor ht hp,
        if_pos ⟨hst.symm, hs.symm⟩]
      intro q hq _ e
      rw [hside, ← hs, Side.reverse_eq_iff, Side.reverse_reverse] at e
      exact hr (List.mem_map.2 ⟨q, hq, e⟩)
    · exact ih (slots_raiseSide h hor) (ho.tail h) hn ht' hp' hb (by rw [hside, hs])

/-- The new cells as they are put up. -/
theorem cell_raise_blade {rim : List RimSide} (h : m.Slots) (ho : m.LiveOutside rim) {s : RimSide} {b : Blade}
    (hb : (s, b) ∈ rim.zip (raise i m rim).2) : (raise i m rim).1.cell b.slot = bladeCell i s := by
  induction rim generalizing m with
  | nil => simp [raise] at hb
  | cons r rim ih =>
    have hor := ho r (by simp)
    rw [raise_cons] at hb ⊢
    rw [List.zip_cons_cons, List.mem_cons, Prod.mk.injEq] at hb
    rcases hb with ⟨rfl, rfl⟩ | hb
    · have hlive := (live_raiseSide (i := i) h hor m.vacancy).2 (.inr rfl)
      rw [cell_raise_of_ne (slots_raiseSide h hor) (ho.tail h) hlive, cell_raiseSide h hor, if_pos rfl]
      rintro q hq e
      exact not_live_vacancy h (e ▸ ho q (by simp [hq]))
    · exact ih (slots_raiseSide h hor) (ho.tail h) hb

theorem mark_raise {rim : List RimSide} (t : Nat) : (raise i m rim).1.mark.getD t 0 = m.mark.getD t 0 := by
  induction rim generalizing m with
  | nil => rfl
  | cons s rim ih =>
    rw [raise_cons, ih]
    exact mark_place _ t

theorem stamp_raise {rim : List RimSide} : (raise i m rim).1.stamp = m.stamp := by
  induction rim generalizing m with
  | nil => rfl
  | cons s rim ih =>
    rw [raise_cons, ih]
    unfold raiseSide place connect
    cases m.free <;> rfl

theorem tally_raise {rim : List RimSide} : (raise i m rim).1.tally = m.tally := by
  induction rim generalizing m with
  | nil => rfl
  | cons s rim ih =>
    rw [raise_cons, ih]
    unfold raiseSide place connect
    cases m.free <;> rfl

end Raise

/-! ## Joining the cells -/

theorem cell_join_of_mem {blades : List Blade} (hn : (blades.map (·.slot)).Nodup) {b : Blade} (hb : b ∈ blades)
    (hl : m.Live b.slot) : (m.join blades).cell b.slot =
      { m.cell b.slot with across := ⟨after blades b, before blades b, (m.cell b.slot).across.trd⟩ } :=
  getD_foldl_modify_of_mem Blade.slot
    (fun b (c : Cell) => { c with across := ⟨after blades b, before blades b, c.across.trd⟩ }) blades m.cells _ hn hb
    (lt_of_live hl)

theorem cell_join_of_notMem {blades : List Blade} {t : Nat} (ht : ∀ b ∈ blades, b.slot ≠ t) :
    (m.join blades).cell t = m.cell t :=
  getD_foldl_modify_of_notMem Blade.slot
    (fun b (c : Cell) => { c with across := ⟨after blades b, before blades b, c.across.trd⟩ }) blades m.cells _ ht

theorem live_join {blades : List Blade} (hn : (blades.map (·.slot)).Nodup) (hl : ∀ b ∈ blades, m.Live b.slot) (t : Nat) :
    (m.join blades).Live t ↔ m.Live t := by
  by_cases ht : ∃ b ∈ blades, b.slot = t
  · obtain ⟨b, hb, rfl⟩ := ht
    simp only [Live, cell_join_of_mem hn hb (hl b hb)]
  · rw [Live, cell_join_of_notMem fun b hb e => ht ⟨b, hb, e⟩, Live]

theorem slots_join {blades : List Blade} (h : m.Slots) (hn : (blades.map (·.slot)).Nodup)
    (hl : ∀ b ∈ blades, m.Live b.slot) : (m.join blades).Slots where
  free_nodup := h.free_nodup
  mem_free t := by
    have hsize : (m.join blades).cells.size = m.cells.size := size_foldl_modify Blade.slot
      (fun b (c : Cell) => { c with across := ⟨after blades b, before blades b, c.across.trd⟩ }) blades m.cells
    rw [live_join hn hl, hsize]
    exact h.mem_free t
  mark_size := h.mark_size.trans (size_foldl_modify Blade.slot
    (fun b (c : Cell) => { c with across := ⟨after blades b, before blades b, c.across.trd⟩ }) blades m.cells).symm

/-! ## The filled mesh -/

/-- Mesh `n` is mesh `m` with the cells `l` replaced by a fan `blades` from the point `i` to the sides `rim`. -/
structure Filled (m : Mesh) (l : List Nat) (rim : List RimSide) (i : Nat) (blades : List Blade) (n : Mesh) : Prop where
  slots : n.Slots
  sides : blades.map (·.side) = rim.map (·.side)
  slots_nodup : (blades.map (·.slot)).Nodup
  live_iff : ∀ t, n.Live t ↔ (m.Live t ∧ t ∉ l) ∨ ∃ b ∈ blades, b.slot = t
  /-- A new cell takes no slot of a cell that stays. -/
  fresh : ∀ b ∈ blades, ¬(m.Live b.slot ∧ b.slot ∉ l)
  corners_kept : ∀ t, m.Live t → t ∉ l → (n.cell t).corners = (m.cell t).corners
  behind_kept : ∀ t k, m.Live t → t ∉ l → (∀ s ∈ rim, s.outside = t → s.side.reverse ≠ m.side t k) → n.behind t k = m.behind t k
  behind_rim : ∀ s b, (s, b) ∈ rim.zip blades → ∀ k, s.side.reverse = m.side s.outside k → n.behind s.outside k = b.slot
  blade : ∀ s b, (s, b) ∈ rim.zip blades → n.cell b.slot =
    ⟨⟨b.side.tail, b.side.head, .site i⟩, ⟨after blades b, before blades b, s.outside⟩, true⟩
  /-- Walks start at a new triangle. -/
  hint : ∃ s b, (s, b) ∈ rim.zip blades ∧ finite s = true ∧ n.hint = b.slot

theorem zip_side {rim : List RimSide} {blades : List Blade} (h : blades.map (·.side) = rim.map (·.side)) {s : RimSide}
    {b : Blade} (hb : (s, b) ∈ rim.zip blades) : b.side = s.side := by
  induction rim generalizing blades with
  | nil => simp at hb
  | cons r rim ih =>
    cases blades with
    | nil => simp at hb
    | cons c blades =>
      simp only [List.map_cons, List.cons.injEq] at h
      rw [List.zip_cons_cons, List.mem_cons, Prod.mk.injEq] at hb
      rcases hb with ⟨rfl, rfl⟩ | hb
      · exact h.1
      · exact ih h.2 hb

theorem exists_zip_of_mem {rim : List RimSide} {blades : List Blade} (h : blades.map (·.side) = rim.map (·.side)) {b : Blade}
    (hb : b ∈ blades) : ∃ s, (s, b) ∈ rim.zip blades := by
  induction rim generalizing blades with
  | nil => rw [List.map_nil, List.map_eq_nil_iff] at h; simp [h] at hb
  | cons r rim ih =>
    cases blades with
    | nil => cases hb
    | cons c blades =>
      simp only [List.map_cons, List.cons.injEq] at h
      rcases List.mem_cons.1 hb with rfl | hb
      · exact ⟨r, by simp⟩
      · obtain ⟨s, hs⟩ := ih h.2 hb
        exact ⟨s, by simp [hs]⟩

theorem exists_zip_of_mem_rim {rim : List RimSide} {blades : List Blade} (h : blades.map (·.side) = rim.map (·.side))
    {s : RimSide} (hs : s ∈ rim) : ∃ b, (s, b) ∈ rim.zip blades := by
  have hlen : rim.length = blades.length := by simpa using (congrArg List.length h).symm
  obtain ⟨j, hj, rfl⟩ := List.mem_iff_getElem.1 hs
  exact ⟨blades[j], List.mem_iff_getElem.2 ⟨j, by simp [hlen ▸ hj, hj], by simp⟩⟩

theorem mark_fill (l : List Nat) (rim : List RimSide) (t : Nat) :
    (m.fill i l rim).mark.getD t 0 = m.mark.getD t 0 := mark_raise (m := m.clear l) t

theorem stamp_fill (l : List Nat) (rim : List RimSide) : (m.fill i l rim).stamp = m.stamp :=
  stamp_raise (m := m.clear l)

theorem tally_fill (l : List Nat) (rim : List RimSide) : (m.fill i l rim).tally = m.tally :=
  tally_raise (m := m.clear l)

/-- What filling the cells `l` behind a rim gives. -/
theorem fill_filled (h : m.Slots) (hp : ∀ t, m.Live t → (m.cell t).Proper) {l : List Nat} (hl : l.Nodup)
    (hlive : ∀ t ∈ l, m.Live t) {rim : List RimSide} (hrim : (rim.map (·.side)).Nodup)
    (ho : ∀ s ∈ rim, m.Live s.outside ∧ s.outside ∉ l) (hf : rim.any finite = true) :
    ∃ blades, m.Filled l rim i blades (m.fill i l rim) := by
  have hc := slots_clear h hl hlive
  have hoc : (m.clear l).LiveOutside rim := fun s hs => (live_clear hl hlive _).2 (ho s hs)
  have hpc : ∀ t, (m.clear l).Live t → ((m.clear l).cell t).Proper := fun t ht => by
    obtain ⟨ht, hnl⟩ := (live_clear hl hlive t).1 ht
    rw [cell_clear_of_notMem hnl]
    exact hp t ht
  have hn := nodup_raise (i := i) hc hoc
  have hsides := sides_raise (i := i) (m := m.clear l) rim
  have hblive : ∀ b ∈ (raise i (m.clear l) rim).2, (raise i (m.clear l) rim).1.Live b.slot := fun b hb =>
    (live_raise hc hoc _).2 (.inr ⟨b, hb, rfl⟩)
  have hfresh : ∀ b ∈ (raise i (m.clear l) rim).2, ¬(m.Live b.slot ∧ b.slot ∉ l) := fun b hb hn =>
    not_live_of_mem_raise hc hoc b hb ((live_clear hl hlive _).2 hn)
  -- A cell that stays is touched by neither `join` nor `clear`.
  have hstay : ∀ t, m.Live t → t ∉ l →
      ((raise i (m.clear l) rim).1.join (raise i (m.clear l) rim).2).cell t = (raise i (m.clear l) rim).1.cell t :=
    fun t ht hnl => cell_join_of_notMem fun b hb e => hfresh b hb (e ▸ ⟨ht, hnl⟩)
  have hclear : ∀ t, m.Live t → t ∉ l → (m.clear l).Live t := fun t ht hnl => (live_clear hl hlive t).2 ⟨ht, hnl⟩
  refine ⟨(raise i (m.clear l) rim).2, ?_⟩
  exact {
    slots :=
      have hs := slots_join (slots_raise hc hoc) hn hblive
      ⟨hs.free_nodup, hs.mem_free, hs.mark_size⟩
    sides := hsides
    slots_nodup := hn
    live_iff := fun t => (live_join hn hblive t).trans ((live_raise hc hoc t).trans (by rw [live_clear hl hlive]))
    fresh := hfresh
    corners_kept := fun t ht hnl => by
      refine (congrArg Cell.corners (hstay t ht hnl)).trans ?_
      rw [corners_raise hc hoc (hclear t ht hnl), cell_clear_of_notMem hnl]
    behind_kept := fun t k ht hnl hne => by
      refine (congrArg (fun c => c.across.get k) (hstay t ht hnl)).trans ?_
      refine (behind_raise_of_ne hc hoc (hclear t ht hnl) (hpc t (hclear t ht hnl)) ?_).trans ?_
      · rwa [side, cell_clear_of_notMem hnl]
      · rw [behind, cell_clear_of_notMem hnl]
    behind_rim := fun s b hb k hk => by
      obtain ⟨hs, hnl⟩ := ho s (List.of_mem_zip hb).1
      refine (congrArg (fun c => c.across.get k) (hstay _ hs hnl)).trans ?_
      exact behind_raise_of_eq hc hoc hrim (hclear _ hs hnl) (hpc _ (hclear _ hs hnl)) hb rfl
        (by rwa [side, cell_clear_of_notMem hnl])
    blade := fun s b hb => by
      have hmem := (List.of_mem_zip hb).2
      refine (cell_join_of_mem hn hmem (hblive b hmem)).trans ?_
      rw [cell_raise_blade hc hoc hb, zip_side hsides hb]
      rfl
    hint := by
      have hsome : ((rim.zip (raise i (m.clear l) rim).2).find? fun p => finite p.1).isSome = true := by
        rw [List.find?_isSome]
        obtain ⟨s, hs, hfs⟩ := List.any_eq_true.1 hf
        obtain ⟨b, hb⟩ := exists_zip_of_mem_rim hsides hs
        exact ⟨(s, b), hb, hfs⟩
      obtain ⟨⟨s, b⟩, hsb⟩ := Option.isSome_iff_exists.1 hsome
      refine ⟨s, b, List.mem_of_find?_eq_some hsb, by simpa using List.find?_some hsb, ?_⟩
      simp only [fill, hsb, Option.elim_some] }

end Mesh

end DelaunaySurface
