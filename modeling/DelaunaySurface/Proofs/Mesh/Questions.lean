import DelaunaySurface.Proofs.Mesh.Insertion
/-!
# What a mesh asks

An insertion asks the geometry about the sites of the mesh only: verdicts that agree about them lead to
the same mesh or to the same failure (`insert_congr`), and so do those of a run (`insertAll_congr`).
-/

namespace DelaunaySurface

open Triple (next previous)

namespace Verdicts

variable {sites : List Nat} {v w : Verdicts}

/-- The verdicts agree about all that has its corners among the sites. -/
structure Agree (sites : List Nat) (v w : Verdicts) : Prop where
  conflicts : ∀ corners : Triple Corner, (∀ k i, corners.get k = .site i → i ∈ sites) → v.conflicts corners = w.conflicts corners
  rightOf : ∀ a ∈ sites, ∀ b ∈ sites, v.rightOf a b = w.rightOf a b
  notLeftOf : ∀ a ∈ sites, ∀ b ∈ sites, v.notLeftOf a b = w.notLeftOf a b
  notRightOf : ∀ a ∈ sites, ∀ b ∈ sites, v.notRightOf a b = w.notRightOf a b

namespace Agree

theorem mono {fewer : List Nat} (h : Agree sites v w) (hs : ∀ i ∈ fewer, i ∈ sites) : Agree fewer v w where
  conflicts corners hc := h.conflicts corners fun k i hk => hs i (hc k i hk)
  rightOf a ha b hb := h.rightOf a (hs a ha) b (hs b hb)
  notLeftOf a ha b hb := h.notLeftOf a (hs a ha) b (hs b hb)
  notRightOf a ha b hb := h.notRightOf a (hs a ha) b (hs b hb)

theorem beyond (h : Agree sites v w) {c : Cell} (hc : ∀ k i, c.corners.get k = .site i → i ∈ sites) (k : Fin 3) :
    v.beyond (c.side k) = w.beyond (c.side k) := by
  unfold Verdicts.beyond
  split
  · rename_i a b e
    exact h.rightOf a (hc _ a (congrArg Side.tail e)) b (hc _ b (congrArg Side.head e))
  · rfl

theorem blocked (h : Agree sites v w) {c : Cell} (hc : ∀ k i, c.corners.get k = .site i → i ∈ sites) (k : Fin 3) :
    v.blocked (c.side k) = w.blocked (c.side k) := by
  unfold Verdicts.blocked
  split
  · rename_i a b e
    exact h.notLeftOf a (hc _ a (congrArg Side.tail e)) b (hc _ b (congrArg Side.head e))
  · rfl

theorem within (h : Agree sites v w) {c : Cell} (hc : ∀ k i, c.corners.get k = .site i → i ∈ sites) :
    v.within c.corners = w.within c.corners := by
  unfold Verdicts.within
  split
  · rename_i x y z e
    have hx := hc 0 x (congrArg Triple.fst e)
    have hy := hc 1 y (congrArg Triple.snd e)
    have hz := hc 2 z (congrArg Triple.trd e)
    rw [h.notRightOf x hx y hy, h.notRightOf y hy z hz, h.notRightOf z hz x hx]
  · rfl

/-- The verdicts about a point are told by the places of the sites. -/
theorem ofPoint {α : Type} [Scalar α] {tol : Tolerance α} {place place' : Nat → Point α} {p : Point α}
    (h : ∀ i ∈ sites, place' i = place i) : Agree sites (.ofPoint tol place' p) (.ofPoint tol place p) where
  conflicts corners hc := by
    change inRegion tol place' p corners = inRegion tol place p corners
    unfold inRegion
    split
    · rename_i a b c
      rw [h a (hc 0 a rfl), h b (hc 1 b rfl), h c (hc 2 c rfl)]
    · rename_i a b
      rw [h a (hc 1 a rfl), h b (hc 2 b rfl)]
    · rename_i b a
      rw [h a (hc 2 a rfl), h b (hc 0 b rfl)]
    · rename_i a b
      rw [h a (hc 0 a rfl), h b (hc 1 b rfl)]
    · rfl
  rightOf a ha b hb := by simp only [Verdicts.ofPoint, h a ha, h b hb]
  notLeftOf a ha b hb := by simp only [Verdicts.ofPoint, h a ha, h b hb]
  notRightOf a ha b hb := by simp only [Verdicts.ofPoint, h a ha, h b hb]

end Agree

end Verdicts

namespace Mesh

variable {m n : Mesh} {sites points : List Nat} {v w : Verdicts} {c : Cavity} {budget start steps i t : Nat} {todo : List Nat}

theorem insertAll_nil {v : Nat → Verdicts} : m.insertAll budget v [] = .ok m := rfl

namespace ClosedSurface

variable (h : m.ClosedSurface sites) (hv : Verdicts.Agree sites v w)

include h hv

theorem conflicts_congr (ht : m.Live t) : m.conflicts v t = m.conflicts w t :=
  hv.conflicts _ fun k i hk => h.among t k i ht hk

theorem exit?_congr (ht : m.Live t) : exit? v (m.cell t) = exit? w (m.cell t) :=
  List.find?_congr fun k _ => hv.beyond (fun k i hk => h.among t k i ht hk) k

theorem walk_congr (ht : m.Live t) : m.walk v steps t = m.walk w steps t := by
  induction steps generalizing t with
  | zero => rfl
  | succ steps ih =>
    rw [walk, walk, h.exit?_congr hv ht]
    split
    · split
      · exact ih (h.live_behind ht _)
      · rfl
    · rfl

theorem outerConflict?_congr : m.outerConflict? v = m.outerConflict? w := by
  refine List.find?_congr fun t _ => ?_
  cases ht : (m.cell t).alive with
  | false => rfl
  | true => rw [h.conflicts_congr hv ht]

theorem search?_congr : m.search? v = m.search? w := by
  rw [search?, search?, h.outerConflict?_congr hv]
  congr 1
  refine List.find?_congr fun t _ => ?_
  cases ht : (m.cell t).alive with
  | false => rfl
  | true => rw [hv.within fun k i hk => h.among t k i ht hk]

theorem locate_congr : m.locate v = m.locate w := by
  rw [locate, locate, h.walk_congr hv h.hint_live, h.search?_congr hv]

theorem start?_congr : m.start? v (m.locate v).2 = m.start? w (m.locate w).2 := by
  rw [start?, start?, h.outerConflict?_congr hv]
  congr 1
  rw [← h.locate_congr hv]
  cases hfound : (m.locate v).2 with
  | none => rfl
  | some t => rw [Option.filter_some, Option.filter_some, h.conflicts_congr hv (h.live_locate hfound)]

theorem spread_congr (htodo : ∀ t ∈ todo, m.Live t) : spread m v budget c todo = spread m w budget c todo := by
  fun_induction spread m v budget c todo with
  | case1 c => rw [spread]
  | case2 c t todo hskip ih =>
    rw [spread, ← h.conflicts_congr hv (htodo t List.mem_cons_self), if_pos hskip]
    exact ih fun u hu => htodo u (List.mem_cons_of_mem t hu)
  | case3 c t todo hskip hlt ih =>
    have ht := htodo t List.mem_cons_self
    rw [spread, ← h.conflicts_congr hv ht, if_neg hskip, if_pos hlt]
    refine ih fun u hu => ?_
    rcases List.mem_append.1 hu with hu | hu
    · exact htodo u (List.mem_cons_of_mem t hu)
    · obtain ⟨k, rfl⟩ := (Triple.mem_iff _ _).1 hu
      exact h.live_behind ht k
  | case4 c t todo hskip hlt =>
    rw [spread, ← h.conflicts_congr hv (htodo t List.mem_cons_self), if_neg hskip, if_neg hlt]

theorem conflictRegion_congr (hs : m.Live start) : m.conflictRegion v budget start = m.conflictRegion w budget start := by
  rw [conflictRegion, conflictRegion, h.spread_congr hv fun u hu => ?_]
  obtain ⟨k, rfl⟩ := (Triple.mem_iff _ _).1 hu
  exact h.live_behind hs k

theorem blocked_congr (hc : ∀ t ∈ c.members.toList, m.Live t) :
    (m.rim c).find? (fun s => v.blocked s.side) = (m.rim c).find? fun s => w.blocked s.side := by
  refine List.find?_congr fun s hs => ?_
  obtain ⟨t, ht, k, -, rfl⟩ := mem_rim hs
  exact hv.blocked (fun k i hk => h.among t k i (hc t ht) hk) k

theorem clearView_congr (hc : ∀ t ∈ c.members.toList, m.Live t) : m.clearView v budget c = m.clearView w budget c := by
  fun_induction clearView m v budget c with
  | case1 c hnone =>
    rw [h.blocked_congr hv hc] at hnone
    rw [clearView, hnone]
  | case2 c s hsome hlt ih =>
    obtain ⟨t, ht, k, -, rfl⟩ := mem_rim (List.mem_of_find?_eq_some hsome)
    rw [h.blocked_congr hv hc] at hsome
    conv_rhs => rw [clearView, hsome]
    simp only [if_pos hlt]
    refine ih fun u hu => ?_
    simp only [absorb, Array.toList_push, List.mem_append, List.mem_singleton] at hu
    rcases hu with hu | rfl
    · exact hc u hu
    · exact h.live_behind (hc t ht) k
  | case3 c s hsome hlt =>
    rw [h.blocked_congr hv hc] at hsome
    rw [clearView, hsome]
    simp only [if_neg hlt]

theorem opened_congr : m.opened v = m.opened w := by
  rw [Mesh.opened, Mesh.opened, h.locate_congr hv]

theorem cavity_congr : m.cavity budget v i = m.cavity budget w i := by
  rw [cavity, cavity, ← h.start?_congr hv, ← h.opened_congr hv]
  split
  · rfl
  · rename_i start hstart
    have hlive : (m.opened v).Live start := by rw [Live, cell_opened]; exact h.live_start hstart
    rw [← (h.opened v).conflictRegion_congr hv hlive]
    refine bind_congr_ok fun c hregion => (h.opened v).clearView_congr hv fun t ht => ?_
    exact (conflictRegion_cut (h.opened v) (h.mark_opened v) hlive hregion).patch.live (h.opened v) t ht

/-- An insertion asks about the sites of the mesh only. -/
theorem insert_congr : m.insert budget v i = m.insert budget w i := by
  simp only [insert_eq, h.cavity_congr hv, charged, h.opened_congr hv]

omit hv in
/-- A run of insertions asks about the sites of the mesh and the points it inserts only. -/
theorem insertAll_congr (hn : (sites ++ points).Nodup) {v w : Nat → Verdicts}
    (hv : ∀ i ∈ points, Verdicts.Agree (sites ++ points) (v i) (w i)) :
    m.insertAll budget v points = m.insertAll budget w points := by
  induction points generalizing m sites with
  | nil => exact insertAll_nil.trans insertAll_nil.symm
  | cons i rest ih =>
    have hfirst : Verdicts.Agree sites (v i) (w i) := (hv i List.mem_cons_self).mono fun j hj => List.mem_append_left _ hj
    rw [insertAll_cons, insertAll_cons, ← h.insert_congr hfirst]
    refine bind_congr_ok fun n hins => ?_
    have hi : i ∉ sites := fun hi => (List.nodup_append.1 hn).2.2 i hi i (by simp) rfl
    rw [List.append_cons] at hn hv
    exact ih (h.insert hi hins) hn fun j hj => hv j (List.mem_cons_of_mem i hj)

end ClosedSurface

end Mesh

end DelaunaySurface
