import DelaunaySurface.Proofs.Mesh.Boundary
import DelaunaySurface.Proofs.Plane.Hinge
/-!
# Delaunay surfaces

Over exact numbers and with no tolerance the mesh has a second invariant: its triangles are
counter-clockwise and no cell has a site in its region (`Delaunay`). Around the cells whose regions hold
a new point it says what the point sees, and that no corner is passed twice (`OnRim`).
-/

namespace DelaunaySurface

open Triple (next previous)

/-- The place of a corner; none at infinity. -/
def Corner.place? (place : Nat → Point Rat) : Corner → Option (Point Rat)
  | .site i => some (place i)
  | .infinity => none

/-- A cell's region, told along any of its sides between sites. -/
theorem inRegion_iff {place : Nat → Point Rat} {p : Point Rat} {c : Cell} {k : Fin 3} {a b : Nat}
    (hs : c.side k = ⟨.site a, .site b⟩) : Verdicts.inRegion ⟨0⟩ place p c.corners = true ↔
      InCell (place a) (place b) ((c.corners.get k).place? place) p := by
  obtain ⟨⟨c0, c1, c2⟩, _, _⟩ := c
  rw [Cell.side, Side.mk.injEq] at hs
  obtain ⟨h1, h2⟩ := hs
  rcases Triple.eq_zero_or k with rfl | rfl | rfl
  · cases h1
    cases h2
    cases c0 with
    | site c => exact (insideCircle_zero _ _ _ _).trans (by rw [← inCircle_rotate]; exact Iff.rfl)
    | infinity => exact inHalfPlane_zero _ _ _
  · cases h1
    cases h2
    cases c1 with
    | site c => exact (insideCircle_zero _ _ _ _).trans (by rw [← inCircle_rotate, ← inCircle_rotate]; exact Iff.rfl)
    | infinity => exact inHalfPlane_zero _ _ _
  · cases h1
    cases h2
    cases c2 with
    | site c => exact insideCircle_zero _ _ _ _
    | infinity => exact inHalfPlane_zero _ _ _

namespace Mesh

/-- The point lies in the region that the cell in slot `t` must keep empty. -/
def Covers (m : Mesh) (place : Nat → Point Rat) (t : Nat) (p : Point Rat) : Prop :=
  m.conflicts (.ofPoint ⟨0⟩ place p) t = true

instance (m : Mesh) (place : Nat → Point Rat) (t : Nat) (p : Point Rat) : Decidable (m.Covers place t p) :=
  inferInstanceAs (Decidable (_ = _))

/-- A closed surface of counter-clockwise triangles over sites at different places, none of them in the
region of a cell. -/
structure Delaunay (m : Mesh) (place : Nat → Point Rat) (sites : List Nat) : Prop extends m.ClosedSurface sites where
  turn : ∀ t a b c, m.Live t → (m.cell t).corners = ⟨.site a, .site b, .site c⟩ → 0 < cross (place a) (place b) (place c)
  empty : ∀ t, m.Live t → ∀ i ∈ sites, ¬m.Covers place t (place i)
  distinct : ∀ i ∈ sites, ∀ j ∈ sites, i ≠ j → place i ≠ place j

/-- The point lies in the region of a cell and not in that of the cell across a side of it. -/
structure OnRim (m : Mesh) (place : Nat → Point Rat) (p : Point Rat) (e : Nat × Fin 3) : Prop where
  live : m.Live e.1
  inside : m.Covers place e.1 p
  outside : ¬m.Covers place (m.behind e.1 e.2) p

variable {m : Mesh} {place : Nat → Point Rat} {sites : List Nat} {p : Point Rat} {t : Nat} {k : Fin 3} {a b : Nat}

theorem covers_iff (hs : m.side t k = ⟨.site a, .site b⟩) :
    m.Covers place t p ↔ InCell (place a) (place b) (((m.cell t).corners.get k).place? place) p :=
  inRegion_iff hs

theorem covers_iff_outward (hs : m.side t k = ⟨.site a, .site b⟩) (hc : (m.cell t).corners.get k = .infinity) :
    m.Covers place t p ↔ Outward (place a) (place b) p := by
  rw [covers_iff hs, hc]
  exact Iff.rfl

namespace ClosedSurface

/-! ## Unbounded cells -/

/-- An unbounded cell has a hull side after the side that comes in from infinity, -/
theorem hullSide_next (h : m.ClosedSurface sites) (ht : m.Live t) (hs : m.side t k = ⟨.infinity, .site b⟩) :
    ∃ w, m.side t (next k) = ⟨.site b, .site w⟩ ∧ (m.cell t).corners.get (next k) = .infinity := by
  have h1 : (m.cell t).corners.get (next k) = .infinity := congrArg Side.tail hs
  have h2 : (m.cell t).corners.get (previous k) = .site b := congrArg Side.head hs
  cases h3 : (m.cell t).corners.get k with
  | site w => exact ⟨w, by simp [Cell.side, h2, h3], h1⟩
  | infinity => exact absurd (h.proper t ht (h1.trans h3.symm)) (Triple.next_ne k)

/-- and before the one that goes out. -/
theorem hullSide_previous (h : m.ClosedSurface sites) (ht : m.Live t) (hs : m.side t k = ⟨.site a, .infinity⟩) :
    ∃ z, m.side t (previous k) = ⟨.site z, .site a⟩ ∧ (m.cell t).corners.get (previous k) = .infinity := by
  have h1 : (m.cell t).corners.get (next k) = .site a := congrArg Side.tail hs
  have h2 : (m.cell t).corners.get (previous k) = .infinity := congrArg Side.head hs
  cases h3 : (m.cell t).corners.get k with
  | site z => exact ⟨z, by simp [Cell.side, h1, h3], h2⟩
  | infinity => exact absurd (h.proper t ht (h2.trans h3.symm)) (Triple.previous_ne k)

/-- Where two unbounded cells meet the hull goes on: it does not turn back. -/
theorem exists_horizon (h : m.ClosedSurface sites) (ht : m.Live t) (hs : m.side t k = ⟨.site a, .infinity⟩) :
    ∃ z w j, z ≠ w ∧ m.side t (previous k) = ⟨.site z, .site a⟩ ∧ (m.cell t).corners.get (previous k) = .infinity ∧
      m.side (m.behind t k) j = ⟨.site a, .site w⟩ ∧ (m.cell (m.behind t k)).corners.get j = .infinity := by
  have hlive := h.live_behind ht k
  have htwin := h.side_twin ht k
  rw [hs] at htwin
  obtain ⟨z, hz, hzc⟩ := h.hullSide_previous ht hs
  obtain ⟨w, hw, hwc⟩ := h.hullSide_next hlive htwin
  refine ⟨z, w, _, ?_, hz, hzc, hw, hwc⟩
  rintro rfl
  -- Then the two would share a hull side, too.
  have hbehind := (h.behind_eq ht hlive (hw.trans (congrArg Side.reverse hz).symm)).1
  rcases h.finite_side t (previous k) _ _ ht hz with hb | hb
  · exact Cell.bounded_iff _ |>.1 hb _ hzc
  · rw [hbehind] at hb
    exact Cell.bounded_iff _ |>.1 hb _ hwc

end ClosedSurface

namespace Delaunay

theorem mem_sites (h : m.Delaunay place sites) (ht : m.Live t) (hs : m.side t k = ⟨.site a, .site b⟩) :
    a ∈ sites ∧ b ∈ sites ∧ a ≠ b := by
  refine ⟨h.among t (next k) a ht (congrArg Side.tail hs), h.among t (previous k) b ht (congrArg Side.head hs), ?_⟩
  rintro rfl
  exact Cell.tail_ne_head (h.proper t ht) k ((congrArg Side.tail hs).trans (congrArg Side.head hs).symm)

theorem turn_side (h : m.Delaunay place sites) (ht : m.Live t) (hs : m.side t k = ⟨.site a, .site b⟩) {q : Point Rat}
    (hq : ((m.cell t).corners.get k).place? place = some q) : 0 < cross (place a) (place b) q := by
  have hturn := h.turn t
  rw [side, Cell.side, Side.mk.injEq] at hs
  obtain ⟨h1, h2⟩ := hs
  cases hc : (m.cell t).corners.get k with
  | infinity => rw [hc] at hq; cases hq
  | site c =>
    rw [hc] at hq
    cases hq
    rcases Triple.eq_zero_or k with rfl | rfl | rfl
    · rw [cross_rotate]
      exact hturn c a b ht (by rw [← hc, ← h1, ← h2]; rfl)
    · rw [← cross_rotate]
      exact hturn b c a ht (by rw [← hc, ← h1, ← h2]; rfl)
    · exact hturn a b c ht (by rw [← hc, ← h1, ← h2]; rfl)

theorem hinge (h : m.Delaunay place sites) (ht : m.Live t) (hs : m.side t k = ⟨.site a, .site b⟩) :
    Hinge (place a) (place b) (((m.cell t).corners.get k).place? place)
      (((m.cell (m.behind t k)).corners.get (m.twin (t, k)).2).place? place) := by
  have hlive := h.live_behind ht k
  have htwin : m.side (m.behind t k) (m.twin (t, k)).2 = ⟨.site b, .site a⟩ := by
    have := h.side_twin ht k
    rwa [hs] at this
  have hsome : ∀ c : Corner, c ≠ .infinity → c.place? place ≠ none := by
    intro c hc
    cases c with
    | site i => nofun
    | infinity => exact absurd rfl hc
  refine ⟨fun q => h.turn_side ht hs, fun q => h.turn_side hlive htwin, ?_, fun q hq => ?_⟩
  · rcases h.finite_side t k a b ht hs with hb | hb
    · exact .inl (hsome _ (Cell.bounded_iff _ |>.1 hb _))
    · exact .inr (hsome _ (Cell.bounded_iff _ |>.1 hb _))
  · cases hc : (m.cell (m.behind t k)).corners.get (m.twin (t, k)).2 with
    | infinity => rw [hc] at hq; cases hq
    | site i =>
      rw [hc] at hq
      cases hq
      rw [← covers_iff hs]
      exact h.empty t ht i (h.among _ _ i hlive hc)

/-! ## What the point sees of the rim -/

section Rim
variable {s : Nat} {e f : Nat × Fin 3}

/-- The point sees a side of the rim from its left. -/
theorem visible (h : m.Delaunay place sites) (he : m.OnRim place p e) (hs : m.side e.1 e.2 = ⟨.site a, .site b⟩) :
    0 < cross (place a) (place b) p := by
  refine (h.hinge he.live hs).visible ((covers_iff hs).1 he.inside) fun hin => he.outside ?_
  exact (covers_iff ((h.side_twin he.live e.2).trans (congrArg Side.reverse hs))).2 hin

/-- The new triangle on a side of the rim keeps its circle empty, -/
theorem fan_empty (h : m.Delaunay place sites) (he : m.OnRim place p e) (hs : m.side e.1 e.2 = ⟨.site a, .site b⟩)
    (hi : s ∈ sites) : inCircle (place a) (place b) p (place s) ≤ 0 := by
  have htwin := (h.side_twin he.live e.2).trans (congrArg Side.reverse hs)
  refine (h.hinge he.live hs).fan_empty ((covers_iff hs).1 he.inside) (fun hin => he.outside ((covers_iff htwin).2 hin)) ?_ ?_
  · exact fun hin => h.empty _ he.live s hi ((covers_iff hs).2 hin)
  · exact fun hin => h.empty _ (h.live_behind he.live e.2) s hi ((covers_iff htwin).2 hin)

theorem cross_nonpos (h : m.Delaunay place sites) (he : m.OnRim place p e) (hs : m.side e.1 e.2 = ⟨.site a, .site b⟩)
    (hi : s ∈ sites) (h0 : inCircle (place a) (place b) p (place s) = 0) : cross (place a) (place b) (place s) ≤ 0 := by
  have htwin := (h.side_twin he.live e.2).trans (congrArg Side.reverse hs)
  refine (h.hinge he.live hs).cross_nonpos ((covers_iff hs).1 he.inside) (fun hin => he.outside ((covers_iff htwin).2 hin)) ?_ h0
  exact fun hin => h.empty _ he.live s hi ((covers_iff hs).2 hin)

/-- the new unbounded cell where the rim goes out to infinity its half-plane, -/
theorem fan_empty_out (h : m.Delaunay place sites) (he : m.OnRim place p e) (hs : m.side e.1 e.2 = ⟨.site a, .infinity⟩)
    (hi : s ∈ sites) : ¬Outward p (place a) (place s) := by
  obtain ⟨z, w, j, hzw, hz, hzc, hw, hwc⟩ := h.exists_horizon he.live hs
  have hlive := h.live_behind he.live e.2
  obtain ⟨hzs, -, hza⟩ := h.mem_sites he.live hz
  obtain ⟨has, hws, haw⟩ := h.mem_sites hlive hw
  have hin : ∀ q, m.Covers place e.1 q ↔ Outward (place z) (place a) q := fun q => covers_iff_outward hz hzc
  have hout : ∀ q, m.Covers place (m.behind e.1 e.2) q ↔ Outward (place a) (place w) q := fun q => covers_iff_outward hw hwc
  refine horizon_empty (h.distinct a has w hws haw) (h.distinct z hzs a has hza) (h.distinct z hzs w hws hzw) ((hin p).1 he.inside)
    (fun hp => he.outside ((hout p).2 hp)) ?_ ?_ ?_ ?_
  · exact fun hq => h.empty _ he.live s hi ((hin _).2 hq)
  · exact fun hq => h.empty _ he.live w hws ((hin _).2 hq)
  · exact fun hq => h.empty _ hlive z hzs ((hout _).2 hq)
  · exact fun hq => h.empty _ hlive s hi ((hout _).2 hq)

/-- and the one where it comes in as well. -/
theorem fan_empty_in (h : m.Delaunay place sites) (he : m.OnRim place p e) (hs : m.side e.1 e.2 = ⟨.infinity, .site b⟩)
    (hi : s ∈ sites) : ¬Outward (place b) p (place s) := by
  have hlive := h.live_behind he.live e.2
  have htwin := (h.side_twin he.live e.2).trans (congrArg Side.reverse hs)
  obtain ⟨z, w, j, hzw, hz, hzc, hw, hwc⟩ := h.exists_horizon hlive htwin
  have hback : m.behind (m.behind e.1 e.2) (m.twin (e.1, e.2)).2 = e.1 := h.behind_twin he.live e.2
  rw [hback] at hw hwc
  obtain ⟨hzs, -, hzb⟩ := h.mem_sites hlive hz
  obtain ⟨hbs, hws, hbw⟩ := h.mem_sites he.live hw
  have hin : ∀ q, m.Covers place e.1 q ↔ Outward (place b) (place w) q := fun q => covers_iff_outward hw hwc
  have hout : ∀ q, m.Covers place (m.behind e.1 e.2) q ↔ Outward (place z) (place b) q := fun q => covers_iff_outward hz hzc
  refine horizon_empty' (h.distinct b hbs w hws hbw) (h.distinct z hzs b hbs hzb) (h.distinct z hzs w hws hzw) ((hin p).1 he.inside)
    (fun hp => he.outside ((hout p).2 hp)) ?_ ?_ ?_ ?_
  · exact fun hq => h.empty _ he.live s hi ((hin _).2 hq)
  · exact fun hq => h.empty _ hlive w hws ((hout _).2 hq)
  · exact fun hq => h.empty _ he.live z hzs ((hin _).2 hq)
  · exact fun hq => h.empty _ hlive s hi ((hout _).2 hq)

/-! ## No corner is passed twice -/

/-- The sites do not all lie on one line. -/
theorem exists_cross_ne (h : m.Delaunay place sites) {q r : Point Rat} (hqr : q ≠ r) : ∃ s ∈ sites, cross q r (place s) ≠ 0 := by
  by_contra hno
  have hb := (Cell.bounded_iff _).1 h.hint_bounded
  have hsite : ∀ k, ∃ i ∈ sites, (m.cell m.hint).corners.get k = .site i := by
    intro k
    cases hc : (m.cell m.hint).corners.get k with
    | site i => exact ⟨i, h.among _ k i h.hint_live hc, rfl⟩
    | infinity => exact absurd hc (hb k)
  obtain ⟨i, hi, e0⟩ := hsite 0
  obtain ⟨j, hj, e1⟩ := hsite 1
  obtain ⟨l, hl, e2⟩ := hsite 2
  have hturn := h.turn m.hint i j l h.hint_live (by rw [← e0, ← e1, ← e2]; rfl)
  have hline : ∀ s ∈ sites, cross q r (place s) = 0 := fun s hs => by
    by_contra hne
    exact hno ⟨s, hs, hne⟩
  exact hturn.ne' (cross_eq_zero_of_line hqr (hline i hi) (hline j hj) (hline l hl))

/-- Two sides of the rim between sites that begin at one corner are the same, -/
theorem head_unique (h : m.Delaunay place sites) (he : m.OnRim place p e) (hf : m.OnRim place p f) {b' : Nat}
    (hs : m.side e.1 e.2 = ⟨.site a, .site b⟩) (hs' : m.side f.1 f.2 = ⟨.site a, .site b'⟩) : b = b' := by
  by_contra hne
  obtain ⟨ha, hb, -⟩ := h.mem_sites he.live hs
  obtain ⟨-, hb', hab'⟩ := h.mem_sites hf.live hs'
  exact fan_unique (h.distinct b' hb' a ha (Ne.symm hab')) (h.distinct b' hb' b hb (Ne.symm hne)) (h.visible he hs)
    (h.fan_empty he hs hb') (h.fan_empty hf hs' hb) (h.cross_nonpos he hs hb') (h.cross_nonpos hf hs' hb)

/-- a side that goes out to infinity begins where none between sites does, -/
theorem head_finite (h : m.Delaunay place sites) (he : m.OnRim place p e) (hf : m.OnRim place p f)
    (hs : m.side e.1 e.2 = ⟨.site a, .site b⟩) : m.side f.1 f.2 ≠ ⟨.site a, .infinity⟩ := by
  intro hs'
  have hv := h.visible he hs
  have hout := h.fan_empty_out hf hs' (h.mem_sites he.live hs).2.1
  refine hout (.inl ?_)
  rwa [← cross_rotate]

/-- and only one comes in from there. -/
theorem entry_unique (h : m.Delaunay place sites) (hp : ∀ i ∈ sites, place i ≠ p) (he : m.OnRim place p e)
    (hf : m.OnRim place p f) {b' : Nat} (hs : m.side e.1 e.2 = ⟨.infinity, .site b⟩)
    (hs' : m.side f.1 f.2 = ⟨.infinity, .site b'⟩) : b = b' := by
  by_contra hne
  obtain ⟨w, hw, hwc⟩ := h.hullSide_next he.live hs
  obtain ⟨w', hw', hwc'⟩ := h.hullSide_next hf.live hs'
  have hb := (h.mem_sites he.live hw).1
  have hb' := (h.mem_sites hf.live hw').1
  have hin : ∀ q, m.Covers place e.1 q ↔ Outward (place b) (place w) q := fun q => covers_iff_outward hw hwc
  have hin' : ∀ q, m.Covers place f.1 q ↔ Outward (place b') (place w') q := fun q => covers_iff_outward hw' hwc'
  have hbb := h.distinct b hb b' hb' hne
  obtain ⟨s, hsite, hcross⟩ := h.exists_cross_ne hbb
  refine hcross (horizon_unique hbb (hp b hb).symm (hp b' hb').symm ((hin p).1 he.inside) ((hin' p).1 hf.inside) ?_ ?_
    (h.fan_empty_in he hs hb') (h.fan_empty_in hf hs' hb) ?_ ?_)
  · exact fun hq => h.empty _ he.live b' hb' ((hin _).2 hq)
  · exact fun hq => h.empty _ hf.live b hb ((hin' _).2 hq)
  · exact fun hq => h.empty _ he.live s hsite ((hin _).2 hq)
  · exact fun hq => h.empty _ hf.live s hsite ((hin' _).2 hq)

/-- So the rim passes no corner twice. -/
theorem tail_unique (h : m.Delaunay place sites) (hp : ∀ i ∈ sites, place i ≠ p) (he : m.OnRim place p e)
    (hf : m.OnRim place p f) (ht : (m.side e.1 e.2).tail = (m.side f.1 f.2).tail) : e = f := by
  have hne : (m.side e.1 e.2).tail ≠ (m.side e.1 e.2).head := Cell.tail_ne_head (h.proper e.1 he.live) e.2
  have hne' : (m.side f.1 f.2).tail ≠ (m.side f.1 f.2).head := Cell.tail_ne_head (h.proper f.1 hf.live) f.2
  have hside : m.side e.1 e.2 = m.side f.1 f.2 := by
    cases hs : m.side e.1 e.2 with
    | mk u b =>
      cases hs' : m.side f.1 f.2 with
      | mk u' b' =>
        rw [hs] at ht hne
        rw [hs'] at ht hne'
        change u = u' at ht
        subst ht
        cases u with
        | site a =>
          cases b with
          | site b =>
            cases b' with
            | site b' => rw [h.head_unique he hf hs hs']
            | infinity => exact absurd hs' (h.head_finite he hf hs)
          | infinity =>
            cases b' with
            | site b' => exact absurd hs (h.head_finite hf he hs')
            | infinity => rfl
        | infinity =>
          cases b with
          | site b =>
            cases b' with
            | site b' => rw [h.entry_unique hp he hf hs hs']
            | infinity => exact absurd rfl hne'
          | infinity => exact absurd rfl hne
  obtain ⟨h1, h2⟩ := h.side_inj he.live hf.live hside
  exact Prod.ext h1 h2

end Rim

end Delaunay

end Mesh

end DelaunaySurface
