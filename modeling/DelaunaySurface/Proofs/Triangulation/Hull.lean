import DelaunaySurface.Proofs.Mesh.Ring
import DelaunaySurface.Proofs.Triangulation.Tables
/-!
# The hull

The hull is read off the unbounded cells by following successors from the lowest sample. As these cells
form one cycle around infinity, following visits all of them, so the hull's sides are exactly the sides
the unbounded cells lie behind (`mem_cyclicPairs_hull`).
-/

namespace DelaunaySurface

open Triple (next previous)

/-! ## Following successors -/

theorem followHull_eq {succ : Array (Option Nat)} {first current : Nat} {rest : List Nat} {steps : Nat}
    (hc : (current :: (rest ++ [first])).IsChain fun a b => succ.getD a none = some b) (hf : first ∉ rest)
    (hs : rest.length < steps) : followHull succ first steps current = current :: rest := by
  induction rest generalizing current steps with
  | nil =>
    obtain ⟨steps, rfl⟩ := Nat.exists_eq_succ_of_ne_zero (Nat.ne_zero_of_lt hs)
    simp only [List.nil_append, List.isChain_cons_cons, List.isChain_singleton, and_true] at hc
    simp [followHull, hc]
  | cons b rest ih =>
    obtain ⟨steps, rfl⟩ := Nat.exists_eq_succ_of_ne_zero (Nat.ne_zero_of_lt hs)
    simp only [List.cons_append, List.isChain_cons_cons] at hc
    rw [List.mem_cons, not_or] at hf
    simp only [List.length_cons] at hs
    rw [followHull, hc.1]
    simp only [if_neg (Ne.symm hf.1), ih hc.2 hf.2 (Nat.lt_of_succ_lt_succ hs)]

theorem lt_size_of_getD {α : Type} {a : Array (Option α)} {i : Nat} {x : α} (h : a.getD i none = some x) : i < a.size := by
  by_contra hlt
  simp [Array.getD_eq_getD_getElem?, Array.getElem?_eq_none (Nat.le_of_not_lt hlt)] at h

/-- No more samples follow one another than have a successor. -/
theorem length_le_countP {succ : Array (Option Nat)} {l : List Nat} (hn : l.Nodup)
    (hl : ∀ a ∈ l, ∃ b, succ.getD a none = some b) : l.length ≤ succ.toList.countP (·.isSome) := by
  have hmap : succ.toList = (List.range succ.size).map fun i => succ.getD i none := by
    apply List.ext_getElem <;> simp +contextual
  rw [hmap, List.countP_map, List.countP_eq_length_filter]
  refine (List.subperm_of_subset hn fun a ha => ?_).length_le
  obtain ⟨b, hb⟩ := hl a ha
  rw [List.mem_filter, List.mem_range, Function.comp_apply, hb]
  exact ⟨lt_size_of_getD hb, rfl⟩

theorem hullOf_eq {succ : Array (Option Nat)} {first : Nat} {rest : List Nat}
    (hc : (first :: (rest ++ [first])).IsChain fun a b => succ.getD a none = some b) (hn : (first :: rest).Nodup)
    (hfirst : (List.range succ.size).find? (fun i => (succ.getD i none).isSome) = some first) :
    hullOf succ = first :: rest := by
  have hsucc : ∀ a ∈ first :: rest, ∃ b, succ.getD a none = some b := by
    intro a ha
    rw [← List.cons_append] at hc
    obtain ⟨s, t, e⟩ := List.append_of_mem ha
    rw [e, List.append_assoc] at hc
    obtain ⟨b, t', e'⟩ := List.exists_cons_of_ne_nil (show t ++ [first] ≠ [] by simp)
    rw [List.cons_append, e'] at hc
    exact ⟨b, (List.isChain_append_cons_cons.1 hc).2.1⟩
  have hlen := length_le_countP hn hsucc
  rw [List.length_cons] at hlen
  rw [hullOf, hfirst]
  exact followHull_eq hc (List.nodup_cons.1 hn).1 (by omega)

/-! ## Neighbours around a list -/

namespace Triangulation

theorem isChain_iff_zip {α : Type} {r : α → α → Prop} {a b : α} {l : List α} :
    (a :: (l ++ [b])).IsChain r ↔ ∀ p ∈ (a :: l).zip (l ++ [b]), r p.1 p.2 := by
  induction l generalizing a with
  | nil => simp
  | cons c l ih => simp only [List.cons_append, List.isChain_cons_cons, ih, List.zip_cons_cons, List.forall_mem_cons]

theorem map_fst_cyclicPairs {α : Type} (l : List α) : (cyclicPairs l).map Prod.fst = l := by
  cases l with
  | nil => rfl
  | cons a rest => exact List.map_fst_zip (by simp)

theorem mem_of_mem_cyclicPairs {α : Type} {l : List α} {e : α × α} (h : e ∈ cyclicPairs l) : e.1 ∈ l ∧ e.2 ∈ l := by
  cases l with
  | nil => cases h
  | cons a rest =>
    obtain ⟨h1, h2⟩ := List.of_mem_zip h
    exact ⟨h1, by simpa [or_comm] using h2⟩

theorem cyclicPairs_nodup {α : Type} {l : List α} (h : l.Nodup) : (cyclicPairs l).Nodup :=
  List.Nodup.of_map Prod.fst ((map_fst_cyclicPairs l).symm ▸ h)

theorem length_cyclicPairs {α : Type} (l : List α) : (cyclicPairs l).length = l.length := by
  rw [← List.length_map (f := Prod.fst), map_fst_cyclicPairs]

end Triangulation

/-! ## Hull sides -/

/-- The hull side of a cell, from its sides. -/
theorem Cell.hullSide?_eq_some_iff {c : Cell} {a b : Nat} :
    c.hullSide? = some (a, b) ↔ ∃ k, c.corners.get k = .infinity ∧ c.side k = ⟨.site b, .site a⟩ := by
  obtain ⟨⟨x, y, z⟩, n, l⟩ := c
  constructor
  · intro h
    cases x <;> cases y <;> cases z <;> try cases h
    · exact ⟨2, rfl, rfl⟩
    · exact ⟨1, rfl, rfl⟩
    · exact ⟨0, rfl, rfl⟩
  · rintro ⟨k, hk, hs⟩
    match k with
    | 0 => cases hk; cases hs; rfl
    | 1 => cases hk; cases hs; rfl
    | 2 => cases hk; cases hs; rfl

/-- The other two sides of an unbounded cell. -/
theorem Cell.side_next_of_infinity {c : Cell} {k : Fin 3} {a b : Nat} (hk : c.corners.get k = .infinity)
    (hs : c.side k = ⟨.site b, .site a⟩) :
    c.side (next k) = ⟨.site a, .infinity⟩ ∧ c.side (previous k) = ⟨.infinity, .site b⟩ := by
  have ht : c.corners.get (next k) = .site b := congrArg Side.tail hs
  have hh : c.corners.get (previous k) = .site a := congrArg Side.head hs
  simp [Cell.side, hk, ht, hh]

namespace Mesh

variable {m : Mesh} {sites : List Nat} {t u a b c count : Nat}

/-- The hull sides that the unbounded cells in use lie behind, in the order of the slots. -/
def outerSides (m : Mesh) : List (Nat × Nat) :=
  m.slots.filterMap fun t => if (m.cell t).alive then (m.cell t).hullSide? else none

theorem mem_outerSides {s : Nat × Nat} : s ∈ m.outerSides ↔ ∃ t, m.Live t ∧ (m.cell t).hullSide? = some s := by
  simp only [outerSides, List.mem_filterMap, Option.ite_none_right_eq_some]
  exact ⟨fun ⟨t, _, h⟩ => ⟨t, h⟩, fun ⟨t, h⟩ => ⟨t, mem_slots_of_live h.1, h⟩⟩

namespace ClosedSurface

theorem exists_hullSide (h : m.ClosedSurface sites) (ht : m.Live t) (hb : (m.cell t).bounded = false) :
    ∃ k s, (m.cell t).corners.get k = .infinity ∧ m.side t k = ⟨.site s.2, .site s.1⟩ ∧
      (m.cell t).hullSide? = some s := by
  obtain ⟨k, hk⟩ := (Cell.bounded_eq_false_iff _).1 hb
  obtain ⟨a, b, hs⟩ := h.exists_side_of_infinity ht hk
  exact ⟨k, (b, a), hk, hs, Cell.hullSide?_eq_some_iff.2 ⟨k, hk, hs⟩⟩

theorem unbounded_of_hullSide {s : Nat × Nat} (hs : (m.cell t).hullSide? = some s) : (m.cell t).bounded = false := by
  obtain ⟨k, hk, -⟩ := Cell.hullSide?_eq_some_iff.1 hs
  exact (Cell.bounded_eq_false_iff _).2 ⟨k, hk⟩

/-- From a sample at most one hull side begins. -/
theorem hullSide_inj (h : m.ClosedSurface sites) (ht : m.Live t) (hu : m.Live u)
    (hts : (m.cell t).hullSide? = some (a, b)) (hus : (m.cell u).hullSide? = some (a, c)) : t = u := by
  obtain ⟨j, hj, hjs⟩ := Cell.hullSide?_eq_some_iff.1 hts
  obtain ⟨k, hk, hks⟩ := Cell.hullSide?_eq_some_iff.1 hus
  have e := (Cell.side_next_of_infinity hj hjs).1.trans (Cell.side_next_of_infinity hk hks).1.symm
  exact h.side_unique t u _ _ ht hu e

theorem outerSides_nodup (h : m.ClosedSurface sites) : (m.outerSides.map Prod.fst).Nodup := by
  rw [outerSides, List.map_filterMap]
  refine List.Nodup.filterMap (fun t u a hta hua => ?_) List.nodup_range
  simp only [Option.mem_def, Option.map_eq_some_iff, Option.ite_none_right_eq_some] at hta hua
  obtain ⟨⟨a, b⟩, ⟨ht, hts⟩, rfl⟩ := hta
  obtain ⟨⟨a', c⟩, ⟨hu, hus⟩, rfl⟩ := hua
  exact h.hullSide_inj ht hu hts hus

theorem outer_unique (h : m.ClosedSurface sites) (hb : (a, b) ∈ m.outerSides) (hc : (a, c) ∈ m.outerSides) : b = c :=
  congrArg Prod.snd (List.inj_on_of_nodup_map h.outerSides_nodup hb hc rfl)

theorem outer_among (h : m.ClosedSurface sites) (hab : (a, b) ∈ m.outerSides) : a ∈ sites ∧ b ∈ sites := by
  obtain ⟨t, ht, hs⟩ := mem_outerSides.1 hab
  obtain ⟨k, -, hs⟩ := Cell.hullSide?_eq_some_iff.1 hs
  exact ⟨h.among t _ a ht (congrArg Side.head hs), h.among t _ b ht (congrArg Side.tail hs)⟩

/-- The successor of a sample is the end of the hull side that begins there. -/
theorem successors_eq_some_iff (h : m.ClosedSurface sites) (hc : ∀ i ∈ sites, i < count) :
    (m.successors count).getD a none = some b ↔ (a, b) ∈ m.outerSides := by
  have hfold : m.successors count = m.outerSides.foldl (fun table s => table.setIfInBounds s.1 (some s.2))
      (Array.replicate count none) := by
    rw [outerSides, List.foldl_filterMap, successors]
    congr 1
    funext table t
    split
    · cases (m.cell t).hullSide? <;> rfl
    · rfl
  rw [hfold, getD_fill_eq_some_iff Prod.fst Prod.snd h.outerSides_nodup fun s hs => hc _ (h.outer_among hs).1]
  exact ⟨fun ⟨s, hs, ha, hb⟩ => by rwa [← ha, ← hb], fun hs => ⟨_, hs, rfl, rfl⟩⟩

/-- The hull side of an unbounded cell begins where that of the cell before it ends. -/
theorem hullSide_beside (h : m.ClosedSurface sites) (ht : m.Live t) (hts : (m.cell t).hullSide? = some (a, b))
    (hb : m.Beside t u) : ∃ c, (m.cell u).hullSide? = some (b, c) := by
  obtain ⟨j, hj, rfl⟩ := hb
  obtain ⟨k, hk, hks⟩ := Cell.hullSide?_eq_some_iff.1 hts
  have hprev := (Cell.side_next_of_infinity hk hks).2
  have hjk : j = previous k := by
    have := h.proper t ht (hj.trans (congrArg Side.tail hprev).symm)
    exact Triple.next_injective this
  subst hjk
  obtain ⟨i, s, hi, his, hs⟩ := h.exists_hullSide (h.live_behind ht _) (h.unbounded_behind ht hj)
  -- The side toward infinity of the cell across is the one glued to this cell.
  have hnext := (Cell.side_next_of_infinity hi his).1
  have htwin := h.side_twin ht (previous k)
  have hcorner := h.proper _ (h.live_behind ht (previous k))
    ((congrArg Side.head htwin).trans ((congrArg Side.tail hprev).trans (congrArg Side.head hnext).symm))
  rw [Triple.previous_injective hcorner] at htwin
  have hsb := (congrArg Side.tail hnext).symm.trans ((congrArg Side.tail htwin).trans (congrArg Side.head hprev))
  cases hsb
  exact ⟨s.2, hs⟩

/-- The samples on the hull in cyclic order, from the one where a given hull side begins. -/
theorem exists_tour (h : m.ClosedSurface sites) (hab : (a, b) ∈ m.outerSides) :
    ∃ rest, (a :: rest).Nodup ∧ ((a :: (rest ++ [a])).IsChain fun p q => (p, q) ∈ m.outerSides) ∧
      ∀ p q, (p, q) ∈ m.outerSides → p ∈ a :: rest := by
  obtain ⟨t, ht, hts⟩ := mem_outerSides.1 hab
  obtain ⟨ring, hnodup, hmem, hchain⟩ := h.ring
  obtain ⟨rest, rfl⟩ := exists_eq_cons ((hmem t).2 ⟨ht, unbounded_of_hullSide hts⟩)
  rw [Cycle.nodup_coe_iff] at hnodup
  rw [Cycle.chain_coe_cons] at hchain
  simp only [Cycle.mem_coe_iff] at hmem
  let start (u : Nat) : Nat := ((m.cell u).hullSide?.getD (0, 0)).1
  have hstart : ∀ u ∈ t :: rest, ∃ q, (m.cell u).hullSide? = some (start u, q) := by
    intro u hu
    obtain ⟨hu, hub⟩ := (hmem u).1 hu
    obtain ⟨-, s, -, -, hs⟩ := h.exists_hullSide hu hub
    exact ⟨s.2, by simp [start, hs]⟩
  have hat : start t = a := by simp [start, hts]
  refine ⟨rest.map start, ?_, ?_, ?_⟩
  · rw [← hat, ← List.map_cons]
    refine List.Nodup.map_on (fun u hu w hw e => ?_) hnodup
    obtain ⟨p, hp⟩ := hstart u hu
    obtain ⟨q, hq⟩ := hstart w hw
    exact h.hullSide_inj ((hmem u).1 hu).1 ((hmem w).1 hw).1 hp (e ▸ hq)
  · have hlist : a :: (rest.map start ++ [a]) = (t :: (rest ++ [t])).map start := by simp [hat]
    rw [hlist, List.isChain_map]
    refine hchain.imp_of_mem_imp fun u w hu hw huw => ?_
    have hmem' : ∀ x ∈ t :: (rest ++ [t]), x ∈ t :: rest := by simp [or_comm]
    obtain ⟨q, hq⟩ := hstart u (hmem' u hu)
    obtain ⟨c, hc⟩ := h.hullSide_beside ((hmem u).1 (hmem' u hu)).1 hq huw
    have : start w = q := by simp [start, hc]
    exact mem_outerSides.2 ⟨u, ((hmem u).1 (hmem' u hu)).1, this ▸ hq⟩
  · intro p q hpq
    obtain ⟨u, hu, hus⟩ := mem_outerSides.1 hpq
    rw [← hat, ← List.map_cons]
    exact List.mem_map.2 ⟨u, (hmem u).2 ⟨hu, unbounded_of_hullSide hus⟩, by simp [start, hus]⟩

/-! ## The hull of a closed surface -/

theorem hull_cases (h : m.ClosedSurface sites) (hc : ∀ i ∈ sites, i < count) :
    (hullOf (m.successors count) = [] ∧ m.outerSides = []) ∨
    ∃ first rest, hullOf (m.successors count) = first :: rest ∧ (first :: rest).Nodup ∧
      ((first :: (rest ++ [first])).IsChain fun p q => (p, q) ∈ m.outerSides) ∧
      (∀ p q, (p, q) ∈ m.outerSides → p ∈ first :: rest) ∧ ∀ p q, (p, q) ∈ m.outerSides → first ≤ p := by
  cases hfirst : (List.range (m.successors count).size).find? fun i => ((m.successors count).getD i none).isSome with
  | none =>
    refine .inl ⟨by rw [hullOf, hfirst], List.eq_nil_iff_forall_not_mem.2 fun s hs => ?_⟩
    have hs' := (h.successors_eq_some_iff hc).2 hs
    have := List.find?_eq_none.1 hfirst s.1 (List.mem_range.2 (lt_size_of_getD hs'))
    simp [hs'] at this
  | some first =>
    have hsome := List.find?_some hfirst
    obtain ⟨b, hb⟩ := Option.isSome_iff_exists.1 hsome
    obtain ⟨rest, hn, hchain, hall⟩ := h.exists_tour ((h.successors_eq_some_iff hc).1 hb)
    refine .inr ⟨first, rest, hullOf_eq (hchain.imp fun p q => (h.successors_eq_some_iff hc).2) hn hfirst, hn, hchain,
      hall, fun p q hpq => ?_⟩
    by_contra hlt
    have hp := (h.successors_eq_some_iff hc).2 hpq
    rw [List.find?_range_eq_some] at hfirst
    have := hfirst.2.2 p (by omega)
    simp [hp] at this

theorem hull_nodup (h : m.ClosedSurface sites) (hc : ∀ i ∈ sites, i < count) : (hullOf (m.successors count)).Nodup := by
  rcases h.hull_cases hc with ⟨e, -⟩ | ⟨first, rest, e, hn, -⟩
  · rw [e]; exact List.nodup_nil
  · rw [e]; exact hn

/-- The hull's sides are those that the unbounded cells lie behind. -/
theorem mem_cyclicPairs_hull (h : m.ClosedSurface sites) (hc : ∀ i ∈ sites, i < count) {s : Nat × Nat} :
    s ∈ Triangulation.cyclicPairs (hullOf (m.successors count)) ↔ s ∈ m.outerSides := by
  rcases h.hull_cases hc with ⟨e, e'⟩ | ⟨first, rest, e, -, hchain, hall, -⟩
  · simp [e, e', Triangulation.cyclicPairs]
  · rw [e]
    have hfor := Triangulation.isChain_iff_zip.1 hchain
    refine ⟨hfor s, fun hs => ?_⟩
    have hmem := hall s.1 s.2 hs
    rw [← Triangulation.map_fst_cyclicPairs (first :: rest), List.mem_map] at hmem
    obtain ⟨⟨p, q⟩, hpq, rfl⟩ := hmem
    have := h.outer_unique (hfor _ hpq) hs
    subst this
    exact hpq

/-- The hull's sides are those that the unbounded cells lie behind, each once. -/
theorem cyclicPairs_hull_perm (h : m.ClosedSurface sites) (hc : ∀ i ∈ sites, i < count) :
    (Triangulation.cyclicPairs (hullOf (m.successors count))).Perm m.outerSides := by
  refine (List.perm_ext_iff_of_nodup ?_ ?_).2 fun s => h.mem_cyclicPairs_hull hc
  · exact Triangulation.cyclicPairs_nodup (h.hull_nodup hc)
  · exact List.Nodup.of_map Prod.fst h.outerSides_nodup

theorem mem_hull (h : m.ClosedSurface sites) (hc : ∀ i ∈ sites, i < count) :
    a ∈ hullOf (m.successors count) ↔ ∃ b, (a, b) ∈ m.outerSides := by
  rw [← Triangulation.map_fst_cyclicPairs (hullOf _), List.mem_map]
  simp only [h.mem_cyclicPairs_hull hc]
  exact ⟨fun ⟨s, hs, e⟩ => ⟨s.2, e ▸ hs⟩, fun ⟨b, hb⟩ => ⟨_, hb, rfl⟩⟩

theorem head_hull_le (h : m.ClosedSurface sites) (hc : ∀ i ∈ sites, i < count)
    (hb : (hullOf (m.successors count)).head? = some b) (ha : a ∈ hullOf (m.successors count)) : b ≤ a := by
  obtain ⟨c, hac⟩ := (h.mem_hull hc).1 ha
  rcases h.hull_cases hc with ⟨e, -⟩ | ⟨first, rest, e, -, -, -, hleast⟩
  · rw [e] at ha; cases ha
  · rw [e] at hb
    cases hb
    exact hleast a c hac

end ClosedSurface

end Mesh

end DelaunaySurface
