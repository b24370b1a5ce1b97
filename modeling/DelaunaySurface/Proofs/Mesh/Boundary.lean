import DelaunaySurface.Proofs.Mesh.Patch
/-!
# The boundary of a set of cells

Inside a set of cells every side meets itself reversed, so what counts a side and its reverse with
opposite signs is the same summed over all sides and over the rim (`sum_sides_eq_sum_rim`). A cell that
joins a patch along `q` sides makes the rim longer by `3 - 2 * q`, so a patch of `k` cells has at most
`k + 2` sides on its rim; with exactly as many it is a disk that keeps all its corners on the rim.
-/

namespace DelaunaySurface

open Triple (next previous)

namespace Mesh

/-- The sides of the cells `l`, by slot and number. -/
def sidesOf (l : List Nat) : List (Nat × Fin 3) := l ×ˢ Triple.indices

theorem mem_sidesOf {l : List Nat} {e : Nat × Fin 3} : e ∈ sidesOf l ↔ e.1 ∈ l := by
  obtain ⟨t, k⟩ := e
  simp [sidesOf, List.mem_product, Triple.mem_indices]

theorem sidesOf_nodup {l : List Nat} (h : l.Nodup) : (sidesOf l).Nodup :=
  h.product (by decide)

/-- The sides of the cells `l` with a cell outside `l` across, by slot and number. -/
def cutSides (m : Mesh) (l : List Nat) : List (Nat × Fin 3) :=
  (sidesOf l).filter fun e => m.behind e.1 e.2 ∉ l

theorem mem_cutSides {m : Mesh} {l : List Nat} {e : Nat × Fin 3} : e ∈ m.cutSides l ↔ e.1 ∈ l ∧ m.behind e.1 e.2 ∉ l := by
  rw [cutSides, List.mem_filter, mem_sidesOf, decide_eq_true_eq]

theorem rimOf_eq_map (m : Mesh) (l : List Nat) :
    m.rimOf l = (m.cutSides l).map fun e => ⟨m.side e.1 e.2, m.behind e.1 e.2⟩ := by
  have hcell : ∀ (t : Nat) (ks : List (Fin 3)), (ks.filterMap fun k => if m.behind t k ∈ l then none else
      some (⟨m.side t k, m.behind t k⟩ : RimSide)) =
      (((ks.map (Prod.mk t)).filter fun e => m.behind e.1 e.2 ∉ l).map fun e => ⟨m.side e.1 e.2, m.behind e.1 e.2⟩) := by
    intro t ks
    induction ks with
    | nil => rfl
    | cons k ks ih => by_cases hk : m.behind t k ∈ l <;> simp [hk, ih]
  rw [rimOf, cutSides, sidesOf]
  simp only [hcell]
  change _ = ((l.flatMap fun t => Triple.indices.map (Prod.mk t)).filter _).map _
  rw [List.filter_flatMap, List.map_flatMap]

theorem length_rimOf (m : Mesh) (l : List Nat) : (m.rimOf l).length = (m.cutSides l).length := by
  rw [rimOf_eq_map, List.length_map]

/-! ## What counts a side and its reverse oppositely -/

theorem sum_sidesOf {A : Type} [AddCommMonoid A] (l : List Nat) (f : Nat × Fin 3 → A) :
    ((sidesOf l).map f).sum = (l.map fun t => f (t, 0) + f (t, 1) + f (t, 2)).sum := by
  induction l with
  | nil => rfl
  | cons t l ih =>
    have hcons : sidesOf (t :: l) = Triple.indices.map (Prod.mk t) ++ sidesOf l := rfl
    rw [hcons, List.map_append, List.sum_append, ih, List.map_cons, List.sum_cons]
    simp [Triple.indices, add_assoc]

theorem perm_cutSides (m : Mesh) (l : List Nat) :
    ((sidesOf l).filter (fun e => m.behind e.1 e.2 ∈ l) ++ m.cutSides l).Perm (sidesOf l) := by
  have h := List.filter_append_perm (fun e : Nat × Fin 3 => decide (m.behind e.1 e.2 ∈ l)) (sidesOf l)
  rw [cutSides]
  convert h using 3
  simp

namespace ClosedSurface

variable {m : Mesh} {sites l : List Nat} {u : Nat}

/-- Inside a set of cells the gluing permutes the sides. -/
theorem twin_perm (h : m.ClosedSurface sites) (hn : l.Nodup) (hl : ∀ t ∈ l, m.Live t) :
    (((sidesOf l).filter fun e => m.behind e.1 e.2 ∈ l).map m.twin).Perm ((sidesOf l).filter fun e => m.behind e.1 e.2 ∈ l) := by
  have hmem : ∀ e, e ∈ (sidesOf l).filter (fun e => m.behind e.1 e.2 ∈ l) ↔ e.1 ∈ l ∧ m.behind e.1 e.2 ∈ l := by
    intro e
    rw [List.mem_filter, mem_sidesOf, decide_eq_true_eq]
  refine (List.perm_ext_iff_of_nodup ?_ ((sidesOf_nodup hn).filter _)).2 fun e => ?_
  · refine List.Nodup.map_on (fun e he f hf heq => ?_) ((sidesOf_nodup hn).filter _)
    have := congrArg m.twin heq
    rwa [h.twin_twin (hl _ ((hmem e).1 he).1) e.2, h.twin_twin (hl _ ((hmem f).1 hf).1) f.2] at this
  · rw [List.mem_map, hmem]
    constructor
    · rintro ⟨f, hf, rfl⟩
      obtain ⟨hf, hov⟩ := (hmem f).1 hf
      exact ⟨hov, (h.behind_twin (hl _ hf) f.2).symm ▸ hf⟩
    · rintro ⟨he, hov⟩
      refine ⟨m.twin e, (hmem _).2 ⟨hov, (h.behind_twin (hl _ he) e.2).symm ▸ he⟩, h.twin_twin (hl _ he) e.2⟩

/-- What counts a side and its reverse oppositely comes to the same over all sides and over the rim. -/
theorem sum_sides_eq_sum_rim {A : Type} [AddCommGroup A] [IsAddTorsionFree A] (h : m.ClosedSurface sites)
    (hn : l.Nodup) (hl : ∀ t ∈ l, m.Live t) (f : Side → A) (hf : ∀ s, f s.reverse = -f s) :
    (l.map fun t => f (m.side t 0) + f (m.side t 1) + f (m.side t 2)).sum = ((m.rimOf l).map fun s => f s.side).sum := by
  rw [← sum_sidesOf l fun e => f (m.side e.1 e.2), rimOf_eq_map, List.map_map, ← ((m.perm_cutSides l).map _).sum_eq,
    List.map_append, List.sum_append]
  refine add_eq_right.2 ?_
  have hsum := ((h.twin_perm hn hl).map fun e => f (m.side e.1 e.2)).sum_eq
  rw [List.map_map] at hsum
  have hneg : ((sidesOf l).filter fun e => m.behind e.1 e.2 ∈ l).map ((fun e => f (m.side e.1 e.2)) ∘ m.twin) =
      (((sidesOf l).filter fun e => m.behind e.1 e.2 ∈ l).map fun e => f (m.side e.1 e.2)).map Neg.neg := by
    rw [List.map_map]
    refine List.map_congr_left fun e he => ?_
    rw [List.mem_filter, mem_sidesOf] at he
    rw [Function.comp_apply, h.side_twin (hl _ he.1) e.2, hf]
    rfl
  rw [hneg, ← List.sum_neg] at hsum
  exact neg_eq_self.1 hsum

/-- The rim begins at its corners as often as it ends there. -/
theorem balanced (h : m.ClosedSurface sites) (hn : l.Nodup) (hl : ∀ t ∈ l, m.Live t) :
    ((m.rimOf l).map (·.side.tail)).Perm ((m.rimOf l).map (·.side.head)) := by
  have hall : ∀ l : List Nat, ((sidesOf l).map fun e => (m.side e.1 e.2).tail).Perm
      ((sidesOf l).map fun e => (m.side e.1 e.2).head) := by
    intro l
    induction l with
    | nil => exact List.Perm.refl _
    | cons t l ih =>
      have hcons : sidesOf (t :: l) = Triple.indices.map (Prod.mk t) ++ sidesOf l := rfl
      rw [hcons, List.map_append, List.map_append]
      refine List.Perm.append ?_ ih
      exact (List.Perm.swap _ _ _).trans ((List.Perm.swap _ _ _).cons _)
  have hinner : (((sidesOf l).filter fun e => m.behind e.1 e.2 ∈ l).map fun e => (m.side e.1 e.2).head).Perm
      (((sidesOf l).filter fun e => m.behind e.1 e.2 ∈ l).map fun e => (m.side e.1 e.2).tail) := by
    refine List.Perm.trans (List.Perm.of_eq ?_) ((h.twin_perm hn hl).map fun e => (m.side e.1 e.2).tail)
    rw [List.map_map]
    refine List.map_congr_left fun e he => ?_
    rw [List.mem_filter, mem_sidesOf] at he
    rw [Function.comp_apply, h.side_twin (hl _ he.1) e.2]
    rfl
  have htails := (((m.perm_cutSides l).map fun e => (m.side e.1 e.2).tail).trans (hall l)).trans
    ((m.perm_cutSides l).map fun e => (m.side e.1 e.2).head).symm
  rw [List.map_append, List.map_append] at htails
  have := (hinner.append_right _).trans htails
  rw [List.perm_append_left_iff] at this
  rw [rimOf_eq_map, List.map_map, List.map_map]
  exact this

/-! ## Growing by one cell -/

/-- The sides along which a cell outside touches the others, seen from either hand, are equally many. -/
theorem length_contact (h : m.ClosedSurface sites) (hn : l.Nodup) (hl : ∀ t ∈ l, m.Live t) (hu : m.Live u) :
    ((sidesOf l).filter fun e => m.behind e.1 e.2 = u).length =
      (Triple.indices.filter fun j => m.behind u j ∈ l).length := by
  have hperm : (((sidesOf l).filter fun e => m.behind e.1 e.2 = u).map m.twin).Perm
      ((Triple.indices.filter fun j => m.behind u j ∈ l).map (Prod.mk u)) := by
    refine (List.perm_ext_iff_of_nodup ?_ ?_).2 fun e => ?_
    · refine List.Nodup.map_on (fun e he f hf heq => ?_) ((sidesOf_nodup hn).filter _)
      have hel := hl _ (mem_sidesOf.1 (List.mem_filter.1 he).1)
      have hfl := hl _ (mem_sidesOf.1 (List.mem_filter.1 hf).1)
      exact (h.twin_twin hel e.2).symm.trans ((congrArg m.twin heq).trans (h.twin_twin hfl f.2))
    · exact List.Nodup.map (Prod.mk_right_injective u) (List.Nodup.filter _ (by decide))
    · simp only [List.mem_map, List.mem_filter, mem_sidesOf, decide_eq_true_eq, Triple.mem_indices, true_and]
      constructor
      · rintro ⟨⟨t, k⟩, ⟨ht, rfl⟩, rfl⟩
        exact ⟨_, (h.behind_twin (hl t ht) k).symm ▸ ht, rfl⟩
      · rintro ⟨j, hj, rfl⟩
        exact ⟨m.twin (u, j), ⟨hj, h.behind_twin hu j⟩, h.twin_twin hu j⟩
  simpa using hperm.length_eq

/-- A cell outside makes the rim longer by 3 and shorter by 2 for each side along which it touches. -/
theorem length_rim_extend (h : m.ClosedSurface sites) (hn : l.Nodup) (hl : ∀ t ∈ l, m.Live t) (hu : m.Live u)
    (hul : u ∉ l) : (m.rimOf (l ++ [u])).length + 2 * (Triple.indices.filter fun j => m.behind u j ∈ l).length =
      (m.rimOf l).length + 3 := by
  rw [length_rimOf, length_rimOf]
  -- Of the old rim remain the sides that do not lead to `u`.
  have hold : (m.cutSides l).length = ((sidesOf l).filter fun e => m.behind e.1 e.2 = u).length +
      ((sidesOf l).filter fun e => m.behind e.1 e.2 ∉ l ++ [u]).length := by
    rw [List.length_eq_length_filter_add (fun e => m.behind e.1 e.2 = u) (l := m.cutSides l), cutSides, List.filter_filter,
      List.filter_filter]
    congr 2 <;> refine List.filter_congr fun e _ => ?_
    · by_cases he : m.behind e.1 e.2 = u <;> simp [he, hul]
    · simp [Bool.and_comm]
  -- Of the sides of `u` those remain that do not lead back.
  have hnew : (Triple.indices.filter fun j => m.behind u j ∈ l).length +
      ((sidesOf [u]).filter fun e => m.behind e.1 e.2 ∉ l ++ [u]).length = 3 := by
    have hsides : sidesOf [u] = Triple.indices.map (Prod.mk u) := by simp [sidesOf, SProd.sprod, List.product]
    have hsplit := List.length_eq_length_filter_add (fun j => decide (m.behind u j ∈ l)) (l := Triple.indices)
    rw [hsides, List.filter_map, List.length_map]
    refine Eq.trans ?_ hsplit.symm
    congr 2
    refine List.filter_congr fun j _ => ?_
    simp [h.behind_ne hu j]
  have happend : sidesOf (l ++ [u]) = sidesOf l ++ sidesOf [u] := List.flatMap_append
  have hcontact := h.length_contact hn hl hu
  rw [hold, cutSides, happend, List.filter_append, List.length_append]
  omega

theorem length_rim_start (h : m.ClosedSurface sites) {t : Nat} (ht : m.Live t) : (m.rimOf [t]).length = 3 := by
  have hsides : sidesOf [t] = Triple.indices.map (Prod.mk t) := by simp [sidesOf, SProd.sprod, List.product]
  rw [length_rimOf, cutSides, List.filter_eq_self.2, hsides]
  · rfl
  · intro e he
    rw [List.mem_singleton.1 (mem_sidesOf.1 he)]
    simpa using h.behind_ne ht e.2

/-- A patch has at most two more sides on its rim than cells. -/
theorem length_rim_le (h : m.ClosedSurface sites) (hl : m.Patch l) : (m.rimOf l).length ≤ l.length + 2 := by
  induction hl with
  | start ht => rw [h.length_rim_start ht]; simp
  | @extend l t k hl ht hk ih =>
    have hlive := h.live_behind (hl.live h t ht) k
    have hext := h.length_rim_extend hl.nodup (hl.live h) hlive hk
    have hq : 1 ≤ (Triple.indices.filter fun j => m.behind (m.behind t k) j ∈ l).length :=
      List.length_pos_of_mem (a := (m.twin (t, k)).2) (by
        rw [List.mem_filter, decide_eq_true_eq]
        exact ⟨Triple.mem_indices _, (h.behind_twin (hl.live h t ht) k).symm ▸ ht⟩)
    rw [List.length_append, List.length_singleton]
    omega

/-- A cell that leaves the rim as long as possible touches the patch only along the side by which it joins, and
the rim was as long as possible before. -/
theorem joins_once (h : m.ClosedSurface sites) (hl : m.Patch l) {w : Nat} {j : Fin 3} (hw : w ∈ l) (hj : m.behind w j ∉ l)
    (hdisk : (m.rimOf (l ++ [m.behind w j])).length = l.length + 3) : (m.rimOf l).length = l.length + 2 ∧
      ∀ p, m.behind (m.behind w j) p ∈ l → p = (m.twin (w, j)).2 := by
  have hext := h.length_rim_extend hl.nodup (hl.live h) (h.live_behind (hl.live h w hw) j) hj
  have hle := h.length_rim_le hl
  have hmem : ∀ p, m.behind (m.behind w j) p ∈ l ↔ p ∈ Triple.indices.filter fun i => m.behind (m.behind w j) i ∈ l :=
    fun p => by simp [Triple.mem_indices]
  have htwin := (hmem (m.twin (w, j)).2).1 ((h.behind_twin (hl.live h w hw) j).symm ▸ hw)
  have hq := List.length_pos_of_mem htwin
  obtain ⟨i, hi⟩ := List.length_eq_one_iff.1
    (show (Triple.indices.filter fun i => m.behind (m.behind w j) i ∈ l).length = 1 by omega)
  refine ⟨by omega, fun p hp => ?_⟩
  have hp := (hmem p).1 hp
  rw [hi, List.mem_singleton] at hp htwin
  rw [hp, htwin]

/-- A corner on the rim stays there when a cell joins along one side only. -/
theorem corner_stays (h : m.ClosedSurface sites) (hl : ∀ t ∈ l, m.Live t) {w : Nat} {j : Fin 3} (hw : w ∈ l)
    (honly : ∀ p, m.behind (m.behind w j) p ∈ l → p = (m.twin (w, j)).2) {s : RimSide} (hs : s ∈ m.rimOf l) :
    ∃ s' ∈ m.rimOf (l ++ [m.behind w j]), s'.side.tail = s.side.tail := by
  obtain ⟨t, ht, k, hk, rfl⟩ := mem_rimOf.1 hs
  by_cases hu : m.behind t k = m.behind w j
  · -- The side is the one along which the new cell joins; its tail begins the next side there.
    have htwin : m.twin (t, k) = m.twin (w, j) := by
      refine Prod.ext hu (honly _ ?_)
      rw [← hu]
      exact (h.behind_twin (hl t ht) k).symm ▸ ht
    have hpair := congrArg m.twin htwin
    rw [h.twin_twin (hl t ht), h.twin_twin (hl w hw), Prod.mk.injEq] at hpair
    obtain ⟨rfl, rfl⟩ := hpair
    have hside : m.side (m.behind t k) (m.twin (t, k)).2 = (m.side t k).reverse := h.side_twin (hl t ht) k
    refine ⟨_, mem_rimOf.2 ⟨m.behind t k, by simp, next (m.twin (t, k)).2, ?_, rfl⟩, ?_⟩
    · rw [List.mem_append, List.mem_singleton, not_or]
      exact ⟨fun hl => Triple.next_ne _ (honly _ hl), h.behind_ne (h.live_behind (hl t ht) k) _⟩
    · simpa [Cell.side] using congrArg Side.head hside
  · exact ⟨_, mem_rimOf.2 ⟨t, by simp [ht], k, by simp [hk, hu], rfl⟩, rfl⟩

/-- A patch with the longest rim possible keeps all its corners there. -/
theorem corner_on_rim (h : m.ClosedSurface sites) (hl : m.Patch l) (hdisk : (m.rimOf l).length = l.length + 2) {t : Nat}
    (ht : t ∈ l) (k : Fin 3) : ∃ s ∈ m.rimOf l, s.side.tail = (m.cell t).corners.get k := by
  induction hl generalizing t k with
  | @start u hu =>
    rw [List.mem_singleton] at ht
    subst ht
    refine ⟨_, mem_rimOf.2 ⟨t, by simp, previous k, by simpa using h.behind_ne hu _, rfl⟩, ?_⟩
    simp [Cell.side]
  | @extend l w j hl hw hj ih =>
    have hlive := h.live_behind (hl.live h w hw) j
    rw [List.length_append, List.length_singleton] at hdisk
    obtain ⟨hdisk, honly⟩ := h.joins_once hl hw hj hdisk
    have hold : ∀ t ∈ l, ∀ k, ∃ s ∈ m.rimOf (l ++ [m.behind w j]), s.side.tail = (m.cell t).corners.get k := by
      intro t ht k
      obtain ⟨s, hs, e⟩ := ih hdisk ht k
      obtain ⟨s', hs', e'⟩ := h.corner_stays (hl.live h) hw honly hs
      exact ⟨s', hs', e'.trans e⟩
    rcases List.mem_append.1 ht with ht | ht
    · exact hold t ht k
    rw [List.mem_singleton] at ht
    subst ht
    by_cases hk : previous k = (m.twin (w, j)).2
    · -- The corner is one of the old cell across the side.
      obtain ⟨s, hs, e⟩ := hold w hw (previous j)
      refine ⟨s, hs, e.trans ?_⟩
      have hside : m.side (m.behind w j) (m.twin (w, j)).2 = (m.side w j).reverse := h.side_twin (hl.live h w hw) j
      have := congrArg Side.tail hside
      rw [← hk] at this
      simpa [Cell.side] using this.symm
    · refine ⟨_, mem_rimOf.2 ⟨m.behind w j, by simp, previous k, ?_, rfl⟩, by simp [Cell.side]⟩
      rw [List.mem_append, List.mem_singleton, not_or]
      exact ⟨fun hkl => hk (honly _ hkl), h.behind_ne hlive _⟩

end ClosedSurface

end Mesh

end DelaunaySurface
