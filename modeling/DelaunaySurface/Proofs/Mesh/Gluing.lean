import DelaunaySurface.Proofs.Mesh.Insertion
/-!
# Gluing

Two cells are glued along one side at most: it is so in the seed, an insertion keeps it so
(`Surgery.gluedOnce`), and hence it is so at any time (`gluedOnce_insertAll`).
-/

namespace DelaunaySurface

open Triple (next previous)

namespace Mesh

/-- Different cells lie across the sides of a cell. -/
def GluedOnce (m : Mesh) : Prop := ∀ t, m.Live t → Function.Injective (m.behind t)

theorem gluedOnce_seed (first : Triple Nat) : (seed first).GluedOnce := by
  refine forall_live_seed ?_ ?_ ?_ ?_ <;> intro j k <;> revert j k <;>
    exact forall_corner (forall_corner (fun _ => rfl) nofun nofun) (forall_corner nofun (fun _ => rfl) nofun)
      (forall_corner nofun nofun fun _ => rfl)

variable {m n : Mesh} {sites points l : List Nat} {i t u budget : Nat} {blades : List Blade}

namespace Surgery

theorem slot_inj (h : Surgery m sites l i blades n) {b c : Blade} (hb : b ∈ blades) (hc : c ∈ blades) (e : b.slot = c.slot) :
    b = c := by
  have hcorners := h.corners_blade hb
  rw [e, h.corners_blade hc, Triple.mk.injEq] at hcorners
  exact h.blade_eq_of_tail hb hc hcorners.1.symm

/-- A new cell is in no slot of an old one. -/
theorem slot_ne (h : Surgery m sites l i blades n) (ht : m.Live t) (hl : t ∉ l) {b : Blade} (hb : b ∈ blades) : t ≠ b.slot := by
  rintro rfl
  exact h.side_ne_blade ht hl hb 0 0 rfl

theorem gluedOnce (h : Surgery m sites l i blades n) (hm : m.GluedOnce) : n.GluedOnce := by
  intro t ht
  rcases h.live_cases ht with ⟨ht, hl⟩ | ⟨b, hb, rfl⟩
  · intro j k e
    by_cases hj : m.behind t j ∈ l <;> by_cases hk : m.behind t k ∈ l
    · obtain ⟨b, hb, hbs, hbj⟩ := h.behind_cut ht hl hj
      obtain ⟨c, hc, hcs, hck⟩ := h.behind_cut ht hl hk
      obtain rfl := h.slot_inj hb hc (hbj.symm.trans (e.trans hck))
      exact (h.surface.side_inj ht ht (Side.reverse_eq_iff.1 (hbs.symm.trans hcs))).2
    · obtain ⟨b, hb, -, hbj⟩ := h.behind_cut ht hl hj
      rw [hbj, h.behind_kept ht hl hk] at e
      exact absurd e.symm (h.slot_ne (h.surface.live_behind ht k) hk hb)
    · obtain ⟨c, hc, -, hck⟩ := h.behind_cut ht hl hk
      rw [hck, h.behind_kept ht hl hj] at e
      exact absurd e (h.slot_ne (h.surface.live_behind ht j) hj hc)
    · rw [h.behind_kept ht hl hj, h.behind_kept ht hl hk] at e
      exact hm t ht e
  · obtain ⟨c, hc, hafter⟩ := h.exists_next hb
    obtain ⟨d, hd, hbefore⟩ := h.exists_previous hb
    obtain ⟨u, hu, k, hk, -, -, hcell⟩ := h.blade_origin hb
    have hzero := h.behind_blade_zero hb hc hafter
    have hone := h.behind_blade_one hb hd hbefore
    have htwo : n.behind b.slot 2 = m.behind u k := by rw [behind, hcell]; rfl
    have hkept := h.surface.live_behind (h.live u hu) k
    -- The next and the last side of the rim differ, as one of two sides would be the other reversed.
    have hcd : c.slot ≠ d.slot := fun e => by
      obtain rfl := h.slot_inj hc hd e
      exact h.reverse_ne hb hc (Side.eq_reverse hafter hbefore)
    intro j k
    revert j k
    refine forall_corner (forall_corner (fun _ => rfl) ?_ ?_) (forall_corner ?_ (fun _ => rfl) ?_)
      (forall_corner ?_ ?_ fun _ => rfl) <;> simp only [hzero, hone, htwo] <;> intro e
    · exact absurd e hcd
    · exact absurd e.symm (h.slot_ne hkept hk hc)
    · exact absurd e.symm hcd
    · exact absurd e.symm (h.slot_ne hkept hk hd)
    · exact absurd e (h.slot_ne hkept hk hc)
    · exact absurd e (h.slot_ne hkept hk hd)

end Surgery

/-- A run of insertions of new points keeps cells glued along single sides, whatever the verdicts are. -/
theorem gluedOnce_insertAll (h : m.ClosedSurface sites) (hm : m.GluedOnce) {v : Nat → Verdicts} (hn : (sites ++ points).Nodup)
    (hok : m.insertAll budget v points = .ok n) : n.GluedOnce := by
  induction points using List.reverseRecOn generalizing n with
  | nil => cases hok; exact hm
  | append_singleton points i ih =>
    obtain ⟨m', hm', hn, hi, hsurface, hinsert⟩ := h.last_insertion hn hok
    obtain ⟨c, blades, -, hs, -⟩ := hsurface.surgery hi hinsert
    exact hs.gluedOnce (ih hn hm')

end Mesh

end DelaunaySurface
