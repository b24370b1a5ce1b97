import DelaunaySurface.Proofs.Mesh.Surgery
/-!
# The ring around infinity

The unbounded cells of a closed surface follow one another in one cycle. A cavity takes a stretch of
that cycle, all of it or nothing, because its rim passes through infinity at most once; the new cells
on the two sides there take the place of the stretch.
-/

namespace DelaunaySurface

/-- A chain that is never left once it is entered splits into what is outside and what is inside. -/
theorem exists_split {p : Nat → Prop} {l : List Nat} (h : l.IsChain fun t u => p t → p u) :
    ∃ outside inside, l = outside ++ inside ∧ (∀ t ∈ outside, ¬p t) ∧ ∀ t ∈ inside, p t := by
  induction l with
  | nil => exact ⟨[], [], rfl, by simp, by simp⟩
  | cons a l ih =>
    obtain ⟨outside, inside, rfl, ho, hi⟩ := ih h.tail
    by_cases ha : p a
    · cases outside with
      | nil => exact ⟨[], a :: inside, rfl, by simp, by simpa using ⟨ha, hi⟩⟩
      | cons b outside => exact absurd ((List.isChain_cons_cons.1 h).1 ha) (ho b (by simp))
    · exact ⟨a :: outside, inside, rfl, by simpa using ⟨ha, ho⟩, hi⟩

/-- A cycle as a list that begins with a given member. -/
theorem exists_eq_cons {c : Cycle Nat} {a : Nat} (h : a ∈ c) : ∃ l : List Nat, c = ((a :: l : List Nat) : Cycle Nat) := by
  induction c using Quotient.inductionOn' with
  | h l =>
    obtain ⟨s, t, rfl⟩ := List.append_of_mem (show a ∈ l from h)
    exact ⟨t ++ s, Cycle.coe_eq_coe.2 List.isRotated_append⟩

theorem chain_imp_of_mem {r s : Nat → Nat → Prop} {c : Cycle Nat} (h : ∀ a ∈ c, ∀ b ∈ c, r a b → s a b)
    (hc : c.Chain r) : c.Chain s := by
  induction c with
  | nil => exact Cycle.Chain.nil s
  | cons a l =>
    rw [Cycle.chain_coe_cons] at hc ⊢
    have hmem : ∀ x ∈ a :: (l ++ [a]), x ∈ ((a :: l : List Nat) : Cycle Nat) := by simp [or_comm]
    exact hc.imp_of_mem_imp fun x y hx hy => h x (hmem x hx) y (hmem y hy)

namespace Mesh

/-- Only one cell follows a cell around infinity. -/
theorem beside_unique {m : Mesh} {t u w : Nat} (hp : (m.cell t).Proper) (hu : m.Beside t u) (hw : m.Beside t w) :
    u = w := by
  obtain ⟨j, hj, rfl⟩ := hu
  obtain ⟨k, hk, rfl⟩ := hw
  rw [Triple.next_injective (hp (hj.trans hk.symm))]

theorem bounded_of_tail {m : Mesh} {t : Nat} {k : Fin 3} (h : (m.side t k).tail = .infinity) :
    (m.cell t).bounded = false :=
  (Cell.bounded_eq_false_iff _).2 ⟨_, h⟩

theorem ClosedSurface.unbounded_behind {m : Mesh} {sites : List Nat} (h : m.ClosedSurface sites) {t : Nat} {k : Fin 3}
    (ht : m.Live t) (hk : (m.side t k).tail = .infinity) : (m.cell (m.behind t k)).bounded = false := by
  have e : (m.side (m.twin (t, k)).1 (m.twin (t, k)).2).head = .infinity := by rw [h.side_twin ht k]; exact hk
  exact (Cell.bounded_eq_false_iff _).2 ⟨_, e⟩

namespace Surgery

variable {m n : Mesh} {sites l : List Nat} {i : Nat} {blades : List Blade} {t u : Nat}

/-! ## Where the rim passes infinity -/

theorem beside_kept (h : Surgery m sites l i blades n) (ht : m.Live t) (hl : t ∉ l) (hu : u ∉ l) (hb : m.Beside t u) :
    n.Beside t u := by
  obtain ⟨k, hk, rfl⟩ := hb
  exact ⟨k, by rw [h.side_kept ht hl, hk], h.behind_kept ht hl hu⟩

/-- Where the ring enters the cavity a new cell comes in that ends at infinity. -/
theorem beside_enter (h : Surgery m sites l i blades n) (ht : m.Live t) (hl : t ∉ l) (hu : u ∈ l) (hb : m.Beside t u) :
    ∃ b ∈ blades, b.side.head = .infinity ∧ n.Beside t b.slot := by
  obtain ⟨k, hk, rfl⟩ := hb
  obtain ⟨b, hb, e, hbehind⟩ := h.behind_cut ht hl hu
  exact ⟨b, hb, by rw [e]; exact hk, k, by rw [h.side_kept ht hl, hk], hbehind⟩

/-- Where the ring leaves the cavity a new cell comes in that begins at infinity. -/
theorem beside_leave (h : Surgery m sites l i blades n) (ht : t ∈ l) (hu : u ∉ l) (hb : m.Beside t u) :
    ∃ b ∈ blades, b.side.tail = .infinity ∧ n.Beside b.slot u := by
  obtain ⟨k, hk, rfl⟩ := hb
  obtain ⟨b, hb, e⟩ := h.exists_blade ht hu
  obtain ⟨w, hw, j, -, e', -, hcell⟩ := h.blade_origin hb
  obtain ⟨rfl, rfl⟩ := h.surface.side_inj (h.live w hw) (h.live t ht) (e'.symm.trans e)
  exact ⟨b, hb, by rw [e, hk], 2, by rw [h.side_blade_two hb, e, hk], by rw [behind, hcell]; rfl⟩

/-- A new cell that begins at infinity is where the ring leaves the cavity. -/
theorem exists_leave (h : Surgery m sites l i blades n) {b : Blade} (hb : b ∈ blades) (e : b.side.tail = .infinity) :
    ∃ t ∈ l, ∃ u, u ∉ l ∧ m.Live u ∧ (m.cell t).bounded = false ∧ (m.cell u).bounded = false ∧ n.Beside b.slot u := by
  obtain ⟨t, ht, k, hk, hs, -, hcell⟩ := h.blade_origin hb
  rw [hs] at e
  exact ⟨t, ht, m.behind t k, hk, h.surface.live_behind (h.live t ht) k, bounded_of_tail e,
    h.surface.unbounded_behind (h.live t ht) e, 2, by rw [h.side_blade_two hb, hs, e], by rw [behind, hcell]; rfl⟩

theorem beside_next (h : Surgery m sites l i blades n) {b c : Blade} (hb : b ∈ blades) (hc : c ∈ blades)
    (eb : b.side.head = .infinity) (ec : c.side.tail = .infinity) : n.Beside b.slot c.slot :=
  ⟨0, by rw [h.side_blade_zero hb, eb], h.behind_blade_zero hb hc (ec.trans eb.symm)⟩

theorem unbounded_blade_iff (h : Surgery m sites l i blades n) {b : Blade} (hb : b ∈ blades) :
    (n.cell b.slot).bounded = false ↔ b.side.tail = .infinity ∨ b.side.head = .infinity := by
  rw [← Bool.not_eq_true, h.bounded_blade_iff hb]
  tauto

/-- The unbounded cells afterwards: old ones outside the cavity, and new ones at infinity. -/
theorem unbounded_iff (h : Surgery m sites l i blades n) : (n.Live t ∧ (n.cell t).bounded = false) ↔
    (m.Live t ∧ (m.cell t).bounded = false ∧ t ∉ l) ∨
      ∃ b ∈ blades, (b.side.tail = .infinity ∨ b.side.head = .infinity) ∧ b.slot = t := by
  constructor
  · rintro ⟨ht, hb⟩
    rcases h.live_cases ht with ⟨ht, hl⟩ | ⟨b, hbl, rfl⟩
    · exact .inl ⟨ht, (h.bounded_kept ht hl) ▸ hb, hl⟩
    · exact .inr ⟨b, hbl, (h.unbounded_blade_iff hbl).1 hb, rfl⟩
  · rintro (⟨ht, hb, hl⟩ | ⟨b, hbl, hb, rfl⟩)
    · exact ⟨h.live_kept ht hl, (h.bounded_kept ht hl).trans hb⟩
    · exact ⟨h.live_blade hbl, (h.unbounded_blade_iff hbl).2 hb⟩

/-! ## The new ring -/

/-- The rim does not pass infinity: the cavity takes all unbounded cells or none. -/
theorem ring_of_forall (h : Surgery m sites l i blades n) (hno : ∀ b ∈ blades, b.side.tail ≠ .infinity) :
    ∃ ring : Cycle Nat, ring.Nodup ∧ (∀ t, t ∈ ring ↔ n.Live t ∧ (n.cell t).bounded = false) ∧ ring.Chain n.Beside := by
  have hno' : ∀ b ∈ blades, b.side.head ≠ .infinity := by
    intro b hb e
    obtain ⟨c, hc, e'⟩ := h.exists_next hb
    exact hno c hc (e'.trans e)
  have hnew : ∀ t, ¬∃ b ∈ blades, (b.side.tail = .infinity ∨ b.side.head = .infinity) ∧ b.slot = t := by
    rintro t ⟨b, hb, e | e, -⟩
    · exact hno b hb e
    · exact hno' b hb e
  obtain ⟨ring, hnodup, hmem, hchain⟩ := h.surface.ring
  have hsame : ring.Chain fun t u => t ∈ l ↔ u ∈ l := by
    refine chain_imp_of_mem (fun t ht u _ hb => ⟨fun htl => ?_, fun hul => ?_⟩) hchain
    · by_contra hul
      obtain ⟨b, hb, e, -⟩ := h.beside_leave htl hul hb
      exact hno b hb e
    · by_contra htl
      obtain ⟨b, hb, e, -⟩ := h.beside_enter ((hmem t).1 ht).1 htl hul hb
      exact hno' b hb e
  have : IsTrans Nat fun t u => t ∈ l ↔ u ∈ l := ⟨fun _ _ _ => Iff.trans⟩
  have hall := Cycle.chain_iff_pairwise.1 hsame
  by_cases hout : ∃ t ∈ ring, t ∉ l
  · obtain ⟨t, ht, hl⟩ := hout
    have hkeep : ∀ u ∈ ring, u ∉ l := fun u hu hul => hl ((hall t ht u hu).2 hul)
    refine ⟨ring, hnodup, fun u => ?_, ?_⟩
    · rw [h.unbounded_iff, hmem]
      have := fun hu => hkeep u ((hmem u).2 hu)
      have := hnew u
      tauto
    · refine chain_imp_of_mem (fun a ha b hb hab => ?_) hchain
      exact h.beside_kept ((hmem a).1 ha).1 (hkeep a ha) (hkeep b hb) hab
  · refine ⟨Cycle.nil, Cycle.nodup_nil, fun u => ?_, Cycle.Chain.nil _⟩
    rw [h.unbounded_iff]
    have hu : ¬(m.Live u ∧ (m.cell u).bounded = false ∧ u ∉ l) :=
      fun hu => hout ⟨u, (hmem u).2 ⟨hu.1, hu.2.1⟩, hu.2.2⟩
    simp only [Cycle.notMem_nil, hu, hnew u, or_self]

/-- Where a new cell begins at infinity, the ring opens behind it into a stretch that stays, beside which the
cell lies, and a stretch that the cavity takes. -/
theorem exists_stretches (h : Surgery m sites l i blades n) {b : Blade} (hb : b ∈ blades) (e : b.side.tail = .infinity) :
    ∃ y outside inside, (y :: outside ++ inside).Nodup ∧ inside ≠ [] ∧ (y :: outside ++ inside).IsChain m.Beside ∧
      (∀ t, t ∈ y :: outside ++ inside ↔ m.Live t ∧ (m.cell t).bounded = false) ∧ (∀ t ∈ y :: outside, t ∉ l) ∧
      (∀ t ∈ inside, t ∈ l) ∧ n.Beside b.slot y := by
  obtain ⟨t, ht, y, hy, hylive, htb, hyb, hby⟩ := h.exists_leave hb e
  obtain ⟨ring, hnodup, hmem, hchain⟩ := h.surface.ring
  obtain ⟨rest, rfl⟩ := exists_eq_cons ((hmem y).2 ⟨hylive, hyb⟩)
  rw [Cycle.nodup_coe_iff] at hnodup
  rw [Cycle.chain_coe_cons] at hchain
  simp only [Cycle.mem_coe_iff] at hmem
  have hchain' : (y :: rest).IsChain m.Beside := (show ((y :: rest) ++ [y]).IsChain m.Beside from hchain).left_of_append
  -- The ring leaves the cavity only toward `y`, with which the list begins.
  have hstay : (y :: rest).IsChain fun t u => t ∈ l → u ∈ l := by
    refine hchain'.imp_of_mem_tail_imp fun a u _ hu hau ha => ?_
    by_contra hul
    obtain ⟨d, hd, ed, hdu⟩ := h.beside_leave ha hul hau
    rw [h.blade_eq_of_tail hd hb (ed.trans e.symm)] at hdu
    have := beside_unique (h.proper _ (h.live_blade hb)) hdu hby
    exact (List.nodup_cons.1 hnodup).1 (this ▸ hu)
  obtain ⟨outside, inside, hsplit, ho, hi⟩ := exists_split hstay
  cases outside with
  | nil => exact absurd (hi y (by rw [List.nil_append] at hsplit; simp [← hsplit])) hy
  | cons y' outside =>
    rw [List.cons_append, List.cons.injEq] at hsplit
    obtain ⟨rfl, rfl⟩ := hsplit
    refine ⟨y, outside, inside, hnodup, ?_, hchain', hmem, ho, hi, hby⟩
    rintro rfl
    rw [List.append_nil] at hmem
    exact ho t ((hmem t).2 ⟨h.live t ht, htb⟩) ht

/-- The rim passes infinity: two new cells take the place of the stretch that the cavity takes. -/
theorem ring_of_exists (h : Surgery m sites l i blades n) {b : Blade} (hb : b ∈ blades) (e : b.side.tail = .infinity) :
    ∃ ring : Cycle Nat, ring.Nodup ∧ (∀ t, t ∈ ring ↔ n.Live t ∧ (n.cell t).bounded = false) ∧ ring.Chain n.Beside := by
  obtain ⟨c, hc, ec⟩ := h.exists_previous hb
  rw [e] at ec
  obtain ⟨y, outside, inside, hnodup, hne, hchain, hmem, ho, hi, hby⟩ := h.exists_stretches hb e
  have holive : ∀ a ∈ y :: outside, m.Live a ∧ (m.cell a).bounded = false := fun a ha =>
    (hmem a).1 (List.mem_append_left _ ha)
  have hfresh : ∀ d ∈ blades, d.slot ∉ y :: outside := fun d hd hmem' =>
    h.filled.fresh d hd ⟨(holive _ hmem').1, ho _ hmem'⟩
  have hcb : c.slot ≠ b.slot := by
    intro hs
    have := List.inj_on_of_nodup_map h.filled.slots_nodup hc hb hs
    subst this
    exact (h.blade_ends hb).2.2 (e.trans ec.symm)
  refine ⟨((y :: outside ++ [c.slot, b.slot] : List Nat) : Cycle Nat), ?_, fun u => ?_, ?_⟩
  · rw [Cycle.nodup_coe_iff, List.nodup_append]
    refine ⟨(List.nodup_append.1 hnodup).1, by simpa using hcb, ?_⟩
    rintro a ha d hd rfl
    simp only [List.mem_cons, List.not_mem_nil, or_false] at hd
    rcases hd with rfl | rfl
    · exact hfresh c hc ha
    · exact hfresh b hb ha
  · rw [Cycle.mem_coe_iff, h.unbounded_iff, List.mem_append]
    refine or_congr ⟨fun hu => ⟨(holive u hu).1, (holive u hu).2, ho u hu⟩, fun hu => ?_⟩ ⟨fun hu => ?_, ?_⟩
    · exact (List.mem_append.1 ((hmem u).2 ⟨hu.1, hu.2.1⟩)).resolve_right fun hui => hu.2.2 (hi u hui)
    · simp only [List.mem_cons, List.not_mem_nil, or_false] at hu
      rcases hu with rfl | rfl
      · exact ⟨c, hc, .inr ec, rfl⟩
      · exact ⟨b, hb, .inl e, rfl⟩
    · rintro ⟨d, hd, hinf | hinf, rfl⟩
      · rw [h.blade_eq_of_tail hd hb (hinf.trans e.symm)]; simp
      · rw [h.blade_eq_of_head hd hc (hinf.trans ec.symm)]; simp
  · rw [List.isChain_append] at hchain
    obtain ⟨hout, -, hlink⟩ := hchain
    rw [List.cons_append, Cycle.chain_coe_cons,
      show y :: (outside ++ [c.slot, b.slot] ++ [y]) = (y :: outside) ++ [c.slot, b.slot, y] by simp]
    refine List.IsChain.append ?_ ?_ ?_
    · exact hout.imp_of_mem_imp fun p q hp hq hpq => h.beside_kept (holive p hp).1 (ho p hp) (ho q hq) hpq
    · simp only [List.isChain_cons_cons, List.isChain_singleton, and_true]
      exact ⟨h.beside_next hc hb ec e, hby⟩
    · intro p hp q hq
      simp only [List.head?_cons, Option.mem_some_iff] at hq
      subst hq
      obtain ⟨u, inside, rfl⟩ := List.exists_cons_of_ne_nil hne
      have hpu := hlink p hp u (by simp)
      have hpm := List.mem_of_mem_getLast? hp
      obtain ⟨d, hd, ed, hpd⟩ := h.beside_enter (holive p hpm).1 (ho p hpm) (hi u (by simp)) hpu
      rwa [h.blade_eq_of_head hd hc (ed.trans ec.symm)] at hpd

theorem hint (h : Surgery m sites l i blades n) : n.Live n.hint ∧ (n.cell n.hint).bounded = true := by
  obtain ⟨s, b, hb, hf, e⟩ := h.filled.hint
  have hmem := (List.of_mem_zip hb).2
  rw [e]
  refine ⟨h.live_blade hmem, (h.bounded_blade_iff hmem).2 ?_⟩
  rw [zip_side h.filled.sides hb]
  simpa [finite] using hf

/-- Surgery keeps a closed surface closed. -/
theorem closedSurface (h : Surgery m sites l i blades n) (hm : ∀ t, n.mark.getD t 0 ≤ n.stamp) :
    n.ClosedSurface (sites ++ [i]) where
  toSlots := h.filled.slots
  mark_le := hm
  proper := h.proper
  among := h.among
  side_unique := h.side_unique
  across := h.across
  finite_side := h.finite_side
  ring := by
    by_cases hex : ∃ b ∈ blades, b.side.tail = .infinity
    · obtain ⟨b, hb, e⟩ := hex
      exact h.ring_of_exists hb e
    · exact h.ring_of_forall fun b hb e => hex ⟨b, hb, e⟩
  hint_live := h.hint.1
  hint_bounded := h.hint.2

end Surgery

end Mesh

end DelaunaySurface
