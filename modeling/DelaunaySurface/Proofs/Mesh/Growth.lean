import DelaunaySurface.Proofs.Mesh.Location
/-!
# Growth of a Delaunay surface

Each insertion into a Delaunay surface ends with one again, with no repair, unless the budget runs out
(`insert_cases`); so does a run of insertions (`insertAll_cases`).
-/

namespace DelaunaySurface

namespace Mesh

variable {m n : Mesh} {place : Nat → Point Rat} {sites l : List Nat} {p : Point Rat} {i j budget : Nat} {v : Verdicts}
  {blades : List Blade}

theorem not_outward_left (a b : Point Rat) : ¬Outward a b a := by
  rintro (h | ⟨-, h⟩)
  · exact h.ne' (cross_self_left a b)
  · exact h.ne (by simp only [dot]; ring)

theorem not_outward_right (a b : Point Rat) : ¬Outward a b b := by
  rintro (h | ⟨-, h⟩)
  · exact h.ne' (cross_self_right a b)
  · exact h.ne (by simp only [dot]; ring)

/-! ## The new cells -/

namespace Surgery

theorem onRim_of_blade (h : Surgery m sites l i blades n) (hl : m.Region place p l) {b : Blade} (hb : b ∈ blades) :
    ∃ e, m.OnRim place p e ∧ b.side = m.side e.1 e.2 := by
  obtain ⟨t, ht, k, hk, hside, -⟩ := h.blade_origin hb
  exact ⟨(t, k), hl.onRim (mem_cutSides.2 ⟨ht, hk⟩), hside⟩

theorem turn_blade (h : Surgery m sites l i blades n) (hd : m.Delaunay place sites) (hl : m.Region place (place i) l) {d : Blade}
    (hb : d ∈ blades) {a b c : Nat} (hc : (n.cell d.slot).corners = ⟨.site a, .site b, .site c⟩) :
    0 < cross (place a) (place b) (place c) := by
  obtain ⟨e, he, hside⟩ := h.onRim_of_blade hl hb
  rw [h.corners_blade hb, Triple.mk.injEq] at hc
  obtain ⟨h1, h2, h3⟩ := hc
  cases h3
  exact hd.visible he (by rw [← hside, ← h1, ← h2])

/-- A new cell keeps the old sites and the new one out of its region. -/
theorem empty_blade (h : Surgery m sites l i blades n) (hd : m.Delaunay place sites) (hl : m.Region place (place i) l) {d : Blade}
    (hb : d ∈ blades) (hj : j ∈ sites ++ [i]) : ¬n.Covers place d.slot (place j) := by
  obtain ⟨e, he, hside⟩ := h.onRim_of_blade hl hb
  rw [Covers, conflicts, h.corners_blade hb]
  rw [List.mem_append, List.mem_singleton] at hj
  cases hs : d.side with
  | mk tail head =>
    have hs' := hside.symm.trans hs
    cases tail with
    | site a =>
      cases head with
      | site b =>
        refine fun hc => absurd ((insideCircle_zero _ _ _ _).1 hc) (not_lt.2 ?_)
        rcases hj with hj | rfl
        · exact hd.fan_empty he hs' hj
        · exact le_of_eq (by simp only [inCircle_eq]; ring)
      | infinity =>
        refine fun hc => absurd ((inHalfPlane_zero _ _ _).1 hc) ?_
        rcases hj with hj | rfl
        · exact hd.fan_empty_out he hs' hj
        · exact not_outward_left _ _
    | infinity =>
      cases head with
      | site b =>
        refine fun hc => absurd ((inHalfPlane_zero _ _ _).1 hc) ?_
        rcases hj with hj | rfl
        · exact hd.fan_empty_in he hs' hj
        · exact not_outward_right _ _
      | infinity => exact Bool.false_ne_true

theorem covers_kept (h : Surgery m sites l i blades n) {t : Nat} (ht : m.Live t) (hl : t ∉ l) (q : Point Rat) :
    n.Covers place t q ↔ m.Covers place t q := by
  rw [Covers, Covers, conflicts, conflicts, h.filled.corners_kept t ht hl]

theorem delaunay (h : Surgery m sites l i blades n) (hd : m.Delaunay place sites) (hl : m.Region place (place i) l) (hne : l ≠ [])
    (hp : ∀ j ∈ sites, place j ≠ place i) (hm : ∀ t, n.mark.getD t 0 ≤ n.stamp) : n.Delaunay place (sites ++ [i]) where
  toClosedSurface := h.closedSurface hm
  turn t a b c ht hc := by
    rcases h.live_cases ht with ⟨ht, htl⟩ | ⟨d, hb, rfl⟩
    · rw [h.filled.corners_kept t ht htl] at hc
      exact hd.turn t a b c ht hc
    · exact h.turn_blade hd hl hb hc
  empty t ht j hj := by
    rcases h.live_cases ht with ⟨ht, htl⟩ | ⟨d, hb, rfl⟩
    · rw [h.covers_kept ht htl]
      rcases List.mem_append.1 hj with hj | hj
      · exact hd.empty t ht j hj
      · rw [List.mem_singleton.1 hj]
        exact fun hc => htl (hl.mem_of_covers hd hp hne ht hc)
    · exact h.empty_blade hd hl hb hj
  distinct x hx y hy hxy := by
    rw [List.mem_append, List.mem_singleton] at hx hy
    rcases hx with hx | rfl <;> rcases hy with hy | rfl
    · exact hd.distinct x hx y hy hxy
    · exact hp x hx
    · exact (hp y hy).symm
    · exact absurd rfl hxy

end Surgery

/-! ## One insertion -/

namespace Delaunay

/-- The search from a cell that holds the point takes in all such cells. -/
theorem region_of_conflictRegion (h : m.Delaunay place sites) {start : Nat} (hs : m.Live start) (hc : m.Covers place start p)
    {c : Cavity} (hr : (m.opened (.ofPoint ⟨0⟩ place p)).conflictRegion (.ofPoint ⟨0⟩ place p) budget start = .ok c) :
    (m.opened (.ofPoint ⟨0⟩ place p)).Cut c ∧ m.Region place p c.members.toList ∧ c.repairs = 0 := by
  have hopen := h.opened (.ofPoint ⟨0⟩ place p)
  have hcell : ∀ t, (m.opened (.ofPoint ⟨0⟩ place p)).cell t = m.cell t := cell_opened m _
  have hlive : (m.opened (.ofPoint ⟨0⟩ place p)).Live start := by rwa [Live, hcell]
  have hcut := conflictRegion_cut hopen (h.mark_opened _) hlive hr
  have hall : ∀ t ∈ c.members.toList, m.Covers place t p := by
    refine conflictRegion_induction (P := fun c => ∀ t ∈ c.members.toList, m.Covers place t p) ?_ ?_ hr
    · simpa [absorb, unopened] using hc
    · intro c t k hc _ _ hconf u hu
      rw [conflicts, hcell] at hconf
      have hu : u ∈ c.members.toList ∨ u = (m.opened (.ofPoint ⟨0⟩ place p)).behind t k := by simpa [absorb] using hu
      rcases hu with hu | rfl
      · exact hc u hu
      · exact hconf
  refine ⟨hcut, ⟨hcut.patch.nodup, fun t ht => ?_, hall, fun t ht k hk => ?_⟩,
    conflictRegion_induction (P := fun c => c.repairs = 0) rfl (fun _ _ _ hc _ _ _ => hc) hr⟩
  · have := hcut.patch.live hopen t ht
    rwa [Live, hcell] at this
  · have := conflictRegion_closed hopen (h.mark_opened _) hlive hr t ht k
    rw [behind, hcell, conflicts, hcell] at this
    exact this hk

/-- The cavity of a new point is all the cells whose regions hold it, and needs no repair. -/
theorem cavity_cases (h : m.Delaunay place sites) (hp : ∀ j ∈ sites, place j ≠ p) (budget i : Nat) :
    m.cavity budget (.ofPoint ⟨0⟩ place p) i = .error (.budgetExceeded budget) ∨
      ∃ c, m.cavity budget (.ofPoint ⟨0⟩ place p) i = .ok c ∧ m.Region place p c.members.toList ∧ c.members.toList ≠ [] ∧
        c.repairs = 0 := by
  obtain ⟨start, hstart, hlive, hcovers⟩ := h.exists_start hp
  have hcavity : m.cavity budget (.ofPoint ⟨0⟩ place p) i =
      (m.opened (.ofPoint ⟨0⟩ place p)).conflictRegion (.ofPoint ⟨0⟩ place p) budget start >>=
        (m.opened (.ofPoint ⟨0⟩ place p)).clearView (.ofPoint ⟨0⟩ place p) budget := by
    rw [cavity, hstart]
  rw [hcavity]
  cases hr : (m.opened (.ofPoint ⟨0⟩ place p)).conflictRegion (.ofPoint ⟨0⟩ place p) budget start with
  | error e =>
    rw [conflictRegion_error hr]
    exact .inl rfl
  | ok c =>
    obtain ⟨hcut, hregion, hrepairs⟩ := h.region_of_conflictRegion hlive hcovers hr
    refine .inr ⟨c, clearView_of_visible fun s hs => ?_, hregion, hcut.patch.ne_nil, hrepairs⟩
    rw [rim_eq hcut, rimOf_opened] at hs
    cases hf : finite s with
    | true =>
      obtain ⟨a, b, hside⟩ := side_of_finite hf
      have := hregion.visible h hs hf
      rw [hside] at this ⊢
      exact decide_eq_false (not_le.2 this)
    | false =>
      obtain ⟨⟨tail, head⟩, outside⟩ := s
      cases tail with
      | infinity => rfl
      | site a =>
        cases head with
        | infinity => rfl
        | site b => cases hf

/-- An insertion runs out of budget or keeps the surface Delaunay. -/
theorem insert_cases (h : m.Delaunay place sites) (hi : i ∉ sites) (hp : ∀ j ∈ sites, place j ≠ place i) (budget : Nat) :
    m.insert budget (.ofPoint ⟨0⟩ place (place i)) i = .error (.budgetExceeded budget) ∨
      ∃ n, m.insert budget (.ofPoint ⟨0⟩ place (place i)) i = .ok n ∧ n.Delaunay place (sites ++ [i]) ∧
        n.tally.repairs = m.tally.repairs := by
  rcases h.cavity_cases hp budget i with herror | ⟨c, hc, hregion, hne, hrepairs⟩
  · refine .inl ?_
    rw [insert_eq, herror]
    rfl
  · refine .inr ?_
    have hloops := (closesUp_iff _).2 (hregion.loops h hp)
    obtain ⟨s, hs, hf⟩ := hregion.exists_finite h hp hne
    have hany : (m.rimOf c.members.toList).any finite = true := List.any_eq_true.2 ⟨s, hs, hf⟩
    obtain ⟨n, hn⟩ : ∃ n, m.insert budget (.ofPoint ⟨0⟩ place (place i)) i = .ok n := by
      rw [insert_eq, hc]
      simp only [bind, Except.bind, h.rim_of_cavity hc, hloops, hany, Bool.and_self, if_true]
      exact ⟨_, rfl⟩
    obtain ⟨c', blades, hc', hs, hm, hr⟩ := h.surgery hi hn
    rw [hc] at hc'
    cases hc'
    rw [hrepairs] at hr
    exact ⟨n, hn, hs.delaunay h hregion hne hp hm, hr⟩

/-! ## A run -/

/-- A run of insertions of new points runs out of budget or ends with a Delaunay surface. -/
theorem insertAll_cases (h : m.Delaunay place sites) {points : List Nat} (hn : (sites ++ points).Nodup)
    (hd : ∀ x ∈ sites ++ points, ∀ y ∈ sites ++ points, x ≠ y → place x ≠ place y) (budget : Nat) :
    m.insertAll budget (fun i => .ofPoint ⟨0⟩ place (place i)) points = .error (.budgetExceeded budget) ∨
      ∃ n, m.insertAll budget (fun i => .ofPoint ⟨0⟩ place (place i)) points = .ok n ∧ n.Delaunay place (sites ++ points) ∧
        n.tally.repairs = m.tally.repairs := by
  induction points generalizing m sites with
  | nil => exact .inr ⟨m, rfl, by simpa using h, rfl⟩
  | cons i rest ih =>
    have hi : i ∉ sites := fun hi => (List.nodup_append.1 hn).2.2 i hi i (by simp) rfl
    have hp : ∀ j ∈ sites, place j ≠ place i := fun j hj => hd j (by simp [hj]) i (by simp) fun e => hi (e ▸ hj)
    rcases h.insert_cases hi hp budget with herror | ⟨n, hok, hdel, hr⟩
    · refine .inl ?_
      rw [insertAll_cons, herror]
      rfl
    · rw [List.append_cons] at hn hd ⊢
      rw [insertAll_cons, hok, ← hr]
      exact ih hdel hn hd

end Delaunay

end Mesh

end DelaunaySurface
