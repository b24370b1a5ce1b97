import DelaunaySurface.Proofs.Mesh.Delaunay
import DelaunaySurface.Proofs.Mesh.Population
import DelaunaySurface.Proofs.Plane.Loop
import DelaunaySurface.Proofs.Triangulation.Tables
/-!
# The cells around a new point

The cells whose regions hold a new point hang together (`Region.meet`), and their rim is one loop of
sides that the point sees. The count of crossings of a ray shows it: it is at least one around each part
of such cells, and at most one around all triangles.
-/

namespace DelaunaySurface

open Triple (next previous)

/-! ## Sums over lists -/

theorem sum_map_le_of_subset {l k : List Nat} {f : Nat → Int} (hn : l.Nodup) (hs : l ⊆ k) (h0 : ∀ t ∈ k, 0 ≤ f t) :
    (l.map f).sum ≤ (k.map f).sum := by
  obtain ⟨l', hp, hsub⟩ := List.subperm_of_subset hn hs
  rw [← (hp.map f).sum_eq]
  exact (hsub.map f).sum_le_sum (by simpa using h0)

theorem le_sum_of_mem {α A : Type} [AddCommMonoid A] [PartialOrder A] [IsOrderedAddMonoid A] {l : List α} {f : α → A}
    (h0 : ∀ a ∈ l, 0 ≤ f a) {a : α} (ha : a ∈ l) : f a ≤ (l.map f).sum :=
  List.single_le_sum (by simpa using h0) _ (List.mem_map_of_mem ha)

theorem sum_le_one {α : Type} {l : List α} {f : α → Int} (hn : l.Nodup) (h1 : ∀ a ∈ l, f a ≤ 1)
    (hu : ∀ a ∈ l, ∀ b ∈ l, 0 < f a → 0 < f b → a = b) : (l.map f).sum ≤ 1 := by
  induction l with
  | nil => simp
  | cons a l ih =>
    obtain ⟨ha, hn⟩ := List.nodup_cons.1 hn
    rw [List.map_cons, List.sum_cons]
    by_cases hpos : 0 < f a
    · -- Then nothing else counts.
      have hrest : (l.map f).sum ≤ 0 := by
        refine (List.sum_le_sum (g := fun _ => 0) fun b hb => ?_).trans (by simp)
        by_contra hb0
        exact ha (hu a (by simp) b (by simp [hb]) hpos (not_le.1 hb0) ▸ hb)
      have := h1 a (by simp)
      omega
    · have := ih hn (fun b hb => h1 b (by simp [hb])) fun b hb c hc => hu b (by simp [hb]) c (by simp [hc])
      omega

/-! ## What is counted along sides -/

/-- What `f` says about the ends of a side; nothing about a side with an end at infinity. -/
def Side.count {A : Type} [Zero A] (place : Nat → Point Rat) (f : Point Rat → Point Rat → A) : Side → A
  | ⟨.site a, .site b⟩ => f (place a) (place b)
  | _ => 0

theorem Side.count_reverse {A : Type} [SubtractionMonoid A] {place : Nat → Point Rat} {f : Point Rat → Point Rat → A}
    (hf : ∀ x y, f y x = -f x y) (s : Side) : s.reverse.count place f = -s.count place f := by
  obtain ⟨tail, head⟩ := s
  cases tail with
  | infinity => cases head <;> exact neg_zero.symm
  | site a =>
    cases head with
    | infinity => exact neg_zero.symm
    | site b => exact hf _ _

/-- The places of the ends of a side. -/
def Side.ends (place : Nat → Point Rat) (s : Side) : Point Rat × Point Rat := (place s.tail.index, place s.head.index)

theorem Mesh.side_of_finite {s : RimSide} (h : Mesh.finite s = true) : ∃ a b, s.side = ⟨.site a, .site b⟩ := by
  obtain ⟨⟨tail, head⟩, outside⟩ := s
  cases tail with
  | infinity => cases h
  | site a =>
    cases head with
    | infinity => cases h
    | site b => exact ⟨a, b, rfl⟩

theorem Side.count_eq {A : Type} [Zero A] {place : Nat → Point Rat} {f : Point Rat → Point Rat → A} {s : RimSide}
    (h : Mesh.finite s = true) : s.side.count place f = f (s.side.ends place).1 (s.side.ends place).2 := by
  obtain ⟨a, b, e⟩ := Mesh.side_of_finite h
  rw [e]
  rfl

namespace Mesh

variable {m : Mesh} {place : Nat → Point Rat} {sites : List Nat} {p r : Point Rat} {t : Nat}

/-- What is counted along the three sides of a cell. -/
def around {A : Type} [AddMonoid A] (m : Mesh) (place : Nat → Point Rat) (f : Point Rat → Point Rat → A) (t : Nat) : A :=
  (Triple.indices.map fun k => (m.side t k).count place f).sum

theorem around_eq {A : Type} [AddMonoid A] (f : Point Rat → Point Rat → A) : m.around place f t =
    (m.side t 0).count place f + (m.side t 1).count place f + (m.side t 2).count place f := by
  simp [around, Triple.indices, add_assoc]

theorem exists_corners (hb : (m.cell t).bounded = true) : ∃ a b c, (m.cell t).corners = ⟨.site a, .site b, .site c⟩ := by
  rw [Cell.bounded_iff] at hb
  refine ⟨((m.cell t).corners.get 0).index, ((m.cell t).corners.get 1).index, ((m.cell t).corners.get 2).index, ?_⟩
  rw [Corner.site_index (hb 0), Corner.site_index (hb 1), Corner.site_index (hb 2)]
  rfl

theorem around_bounded {A : Type} [AddMonoid A] {f : Point Rat → Point Rat → A} {a b c : Nat}
    (h : (m.cell t).corners = ⟨.site a, .site b, .site c⟩) :
    m.around place f t = f (place b) (place c) + f (place c) (place a) + f (place a) (place b) := by
  simp only [around_eq, side, Cell.side, h]
  rfl

theorem around_unbounded {A : Type} [AddMonoid A] {f : Point Rat → Point Rat → A} {k : Fin 3} {a b : Nat}
    (hs : m.side t k = ⟨.site a, .site b⟩) (hk : (m.cell t).corners.get k = .infinity) :
    m.around place f t = f (place a) (place b) := by
  rw [side, Cell.side, Side.mk.injEq] at hs
  obtain ⟨h1, h2⟩ := hs
  have h0 : ∀ c : Corner, (⟨c, .infinity⟩ : Side).count place f = 0 := fun c => by cases c <;> rfl
  simp only [around_eq, side, Cell.side]
  rcases Triple.eq_zero_or k with rfl | rfl | rfl
  · change (m.cell t).corners.get 1 = _ at h1
    change (m.cell t).corners.get 2 = _ at h2
    simp [next, previous, h1, h2, hk, Side.count]
  · change (m.cell t).corners.get 2 = _ at h1
    change (m.cell t).corners.get 0 = _ at h2
    simp [next, previous, h1, h2, hk, Side.count]
  · change (m.cell t).corners.get 0 = _ at h1
    change (m.cell t).corners.get 1 = _ at h2
    simp [next, previous, h1, h2, hk, Side.count]

theorem sum_around {A : Type} [AddCommGroup A] [IsAddTorsionFree A] (h : m.ClosedSurface sites) (place : Nat → Point Rat)
    {l : List Nat} (hn : l.Nodup) (hl : ∀ t ∈ l, m.Live t) {f : Point Rat → Point Rat → A} (hf : ∀ x y, f y x = -f x y) :
    (l.map (m.around place f)).sum = ((m.rimOf l).map fun s => s.side.count place f).sum := by
  rw [← h.sum_sides_eq_sum_rim hn hl (Side.count place f) (Side.count_reverse hf)]
  exact congrArg List.sum (List.map_congr_left fun t _ => around_eq f)

theorem ends_balanced {rim : List RimSide} (place : Nat → Point Rat)
    (hb : (rim.map (·.side.tail)).Perm (rim.map (·.side.head))) :
    ((rim.map fun s => s.side.ends place).map Prod.fst).Perm ((rim.map fun s => s.side.ends place).map Prod.snd) := by
  have := hb.map fun c => place c.index
  rw [List.map_map, List.map_map] at this ⊢
  exact this

/-- Loops that the point sees cross a ray from it. -/
theorem one_le_sum_count {rim : List RimSide} (hb : (rim.map (·.side.tail)).Perm (rim.map (·.side.head)))
    (hf : ∀ s ∈ rim, finite s = true) (hv : ∀ s ∈ rim, 0 ≤ cross (s.side.ends place).1 (s.side.ends place).2 p)
    (hpos : ∃ s ∈ rim, 0 < cross (s.side.ends place).1 (s.side.ends place).2 p)
    (hr : ∀ s ∈ rim, cross p r (s.side.ends place).1 ≠ 0 ∧ cross p r (s.side.ends place).2 ≠ 0)
    (hup : ∀ s ∈ rim, cross p r (s.side.ends place).1 < 0 → 0 < cross p r (s.side.ends place).2 →
      0 < cross (s.side.ends place).1 (s.side.ends place).2 p) :
    1 ≤ (rim.map fun s => s.side.count place (crossing p r)).sum := by
  obtain ⟨s, hs, hpos⟩ := hpos
  obtain ⟨e, he, h1, h2⟩ := exists_crossing (p := p) (r := r) (ends_balanced place hb)
    (by simpa only [List.forall_mem_map] using hv) ⟨_, List.mem_map_of_mem hs, hpos⟩
    (by simpa only [List.forall_mem_map] using fun s hs => (hr s hs).1)
    (by simpa only [List.forall_mem_map] using fun s hs => (hr s hs).2)
  obtain ⟨s, hs, rfl⟩ := List.mem_map.1 he
  have hone : s.side.count place (crossing p r) = 1 := by
    rw [Side.count_eq (hf s hs), crossing_up h1 h2, if_pos (hup s hs h1 h2)]
  rw [← hone]
  refine le_sum_of_mem (f := fun s : RimSide => s.side.count place (crossing p r)) (fun s hs => ?_) hs
  rw [Side.count_eq (hf s hs)]
  exact crossing_nonneg (hv s hs)

/-! ## Regions -/

/-- Cells whose regions hold the point, and with each of them all its neighbours of that kind. -/
structure Region (m : Mesh) (place : Nat → Point Rat) (p : Point Rat) (l : List Nat) : Prop where
  nodup : l.Nodup
  live : ∀ t ∈ l, m.Live t
  covers : ∀ t ∈ l, m.Covers place t p
  closed : ∀ t ∈ l, ∀ k, m.Covers place (m.behind t k) p → m.behind t k ∈ l

namespace Region

variable {l k : List Nat}

theorem onRim (hl : m.Region place p l) {e : Nat × Fin 3} (he : e ∈ m.cutSides l) : m.OnRim place p e := by
  rw [mem_cutSides] at he
  exact ⟨hl.live _ he.1, hl.covers _ he.1, fun hc => he.2 (hl.closed _ he.1 _ hc)⟩

theorem mem_rim (hl : m.Region place p l) {s : RimSide} (hs : s ∈ m.rimOf l) :
    ∃ e, e.1 ∈ l ∧ m.OnRim place p e ∧ s = ⟨m.side e.1 e.2, m.behind e.1 e.2⟩ := by
  rw [rimOf_eq_map, List.mem_map] at hs
  obtain ⟨e, he, rfl⟩ := hs
  exact ⟨e, (mem_cutSides.1 he).1, hl.onRim he, rfl⟩

/-- The rim is made of loops that pass no corner twice. -/
theorem loops (h : m.Delaunay place sites) (hp : ∀ i ∈ sites, place i ≠ p) (hl : m.Region place p l) : Loops (m.rimOf l) := by
  have hb := h.balanced hl.nodup hl.live
  have htails : ((m.rimOf l).map (·.side.tail)).Nodup := by
    rw [rimOf_eq_map, List.map_map]
    refine List.Nodup.map_on (fun e he f hf heq => ?_) ((sidesOf_nodup hl.nodup).filter _)
    exact h.tail_unique hp (hl.onRim he) (hl.onRim hf) heq
  refine ⟨htails, hb.nodup_iff.1 htails, fun s hs => ?_, fun s hs => ?_⟩
  · have := hb.symm.subset (List.mem_map_of_mem (f := fun s : RimSide => s.side.head) hs)
    simpa using this
  · have := hb.subset (List.mem_map_of_mem (f := fun s : RimSide => s.side.tail) hs)
    simpa using this

/-- The point sees the rim. -/
theorem visible (h : m.Delaunay place sites) (hl : m.Region place p l) {s : RimSide} (hs : s ∈ m.rimOf l) (hf : finite s = true) :
    0 < cross (s.side.ends place).1 (s.side.ends place).2 p := by
  obtain ⟨e, -, he, rfl⟩ := hl.mem_rim hs
  obtain ⟨a, b, hside⟩ := side_of_finite hf
  change m.side e.1 e.2 = _ at hside
  simp only [Side.ends, hside]
  exact h.visible he hside

theorem ne_reverse (h : m.Delaunay place sites) (hl : m.Region place p l) {e f : Nat × Fin 3} (he : e ∈ m.cutSides l)
    (hf : f ∈ m.cutSides l) : m.side f.1 f.2 ≠ (m.side e.1 e.2).reverse := by
  rw [mem_cutSides] at he hf
  intro hback
  exact he.2 ((h.behind_eq (hl.live _ he.1) (hl.live _ hf.1) hback).1 ▸ hf.1)

theorem tail_ne_head (h : m.Delaunay place sites) (hl : m.Region place p l) {s : RimSide} (hs : s ∈ m.rimOf l) :
    s.side.tail ≠ s.side.head := by
  obtain ⟨e, -, he, rfl⟩ := hl.mem_rim hs
  exact Cell.tail_ne_head (h.proper _ he.live) e.2

/-- A rim with no side between sites is no rim at all. -/
theorem cutSides_eq_nil (h : m.Delaunay place sites) (hp : ∀ i ∈ sites, place i ≠ p) (hl : m.Region place p l)
    (hno : ∀ s ∈ m.rimOf l, finite s ≠ true) : m.cutSides l = [] := by
  have hloops := hl.loops h hp
  have hinf : ∀ s ∈ m.rimOf l, s.side.tail = .infinity ∨ s.side.head = .infinity := by
    intro s hs
    by_contra hneither
    rw [not_or] at hneither
    exact hno s hs (by simpa [finite] using hneither)
  have hmem : ∀ s ∈ m.rimOf l, ∃ e ∈ m.cutSides l, m.side e.1 e.2 = s.side := by
    intro s hs
    rw [rimOf_eq_map, List.mem_map] at hs
    obtain ⟨e, he, rfl⟩ := hs
    exact ⟨e, he, rfl⟩
  rw [List.eq_nil_iff_forall_not_mem]
  intro e he
  have hs : (⟨m.side e.1 e.2, m.behind e.1 e.2⟩ : RimSide) ∈ m.rimOf l := by
    rw [rimOf_eq_map]
    exact List.mem_map_of_mem (f := fun e => (⟨m.side e.1 e.2, m.behind e.1 e.2⟩ : RimSide)) he
  have hne := hl.tail_ne_head h hs
  -- The rim turns back at once.
  rcases hinf _ hs with ht | hh
  · obtain ⟨r, hr, hrt⟩ := hloops.next _ hs
    have hrh := (hinf r hr).resolve_left fun e => hne (ht.trans (e.symm.trans hrt))
    obtain ⟨f, hf, hfr⟩ := hmem r hr
    exact hl.ne_reverse h he hf (Side.eq_reverse (by rw [hfr, hrt]) (by rw [hfr, hrh]; exact ht.symm))
  · obtain ⟨r, hr, hrh⟩ := hloops.previous _ hs
    have hrt := (hinf r hr).resolve_right fun e => hne ((hrh.symm.trans e).trans hh.symm)
    obtain ⟨f, hf, hfr⟩ := hmem r hr
    exact hl.ne_reverse h he hf (Side.eq_reverse (by rw [hfr, hrt]; exact hh.symm) (by rw [hfr, hrh]))

end Region

/-! ## Areas -/

theorem Delaunay.around_pos (h : m.Delaunay place sites) (ht : m.Live t) (hb : (m.cell t).bounded = true) (p : Point Rat) :
    0 < m.around place (fun x y => cross x y p) t := by
  obtain ⟨a, b, c, hc⟩ := exists_corners hb
  rw [around_bounded hc]
  have := h.turn t a b c ht hc
  have := cross_add (place a) (place b) (place c) p
  linarith

theorem Delaunay.around_nonneg (h : m.Delaunay place sites) (ht : m.Live t) (hc : m.Covers place t p) :
    0 ≤ m.around place (fun x y => cross x y p) t := by
  cases hb : (m.cell t).bounded with
  | true => exact (h.around_pos ht hb p).le
  | false =>
    obtain ⟨k, hk⟩ := (Cell.bounded_eq_false_iff _).1 hb
    obtain ⟨a, b, hs⟩ := h.exists_side_of_infinity ht hk
    rw [around_unbounded hs hk]
    rcases (covers_iff_outward hs hk).1 hc with hpos | ⟨h0, -⟩
    · exact hpos.le
    · exact h0.ge

namespace Region

variable {l k : List Nat}

/-- The rim has a side between sites, on which there will be a triangle. -/
theorem exists_finite (h : m.Delaunay place sites) (hp : ∀ i ∈ sites, place i ≠ p) (hl : m.Region place p l) (hne : l ≠ []) :
    ∃ s ∈ m.rimOf l, finite s = true := by
  by_contra hno
  have hcut := hl.cutSides_eq_nil h hp fun s hs hf => hno ⟨s, hs, hf⟩
  have hbehind : ∀ t ∈ l, ∀ k, m.behind t k ∈ l := by
    intro t ht k
    by_contra hk
    have : (t, k) ∈ m.cutSides l := mem_cutSides.2 ⟨ht, hk⟩
    rw [hcut] at this
    cases this
  -- Some member is a triangle, as an unbounded one has a triangle behind its hull side.
  obtain ⟨u, hu, hub⟩ : ∃ u ∈ l, (m.cell u).bounded = true := by
    obtain ⟨t, ht⟩ := List.exists_mem_of_ne_nil l hne
    cases hb : (m.cell t).bounded with
    | true => exact ⟨t, ht, hb⟩
    | false =>
      obtain ⟨k, hk⟩ := (Cell.bounded_eq_false_iff _).1 hb
      obtain ⟨a, b, hs⟩ := h.exists_side_of_infinity (hl.live t ht) hk
      exact ⟨_, hbehind t ht k, (h.finite_side t k a b (hl.live t ht) hs).resolve_left (by simp [hb])⟩
  have hsum := sum_around h.toClosedSurface place hl.nodup hl.live (f := fun x y => cross x y p)
    fun x y => cross_swap x y p
  rw [rimOf_eq_map, hcut, List.map_nil, List.map_nil, List.sum_nil] at hsum
  have hle := le_sum_of_mem (fun t ht => h.around_nonneg (hl.live t ht) (hl.covers t ht)) hu
  exact (h.around_pos (hl.live u hu) hub p).not_ge (hle.trans hsum.le)

/-- If the region of an unbounded cell holds the point, the rim passes infinity. -/
theorem exists_entry (h : m.Delaunay place sites) (hp : ∀ i ∈ sites, place i ≠ p) (hl : m.Region place p l) (hne : l ≠ [])
    (ht : m.Live t) (hb : (m.cell t).bounded = false) (hc : m.Covers place t p) :
    ∃ e ∈ m.cutSides l, (m.side e.1 e.2).tail = .infinity := by
  by_contra hno
  have hloops := hl.loops h hp
  have htail : ∀ s ∈ m.rimOf l, s.side.tail ≠ .infinity := by
    intro s hs
    rw [rimOf_eq_map, List.mem_map] at hs
    obtain ⟨e, he, rfl⟩ := hs
    exact fun htail => hno ⟨e, he, htail⟩
  have hfin : ∀ s ∈ m.rimOf l, finite s = true := by
    intro s hs
    obtain ⟨r, hr, e⟩ := hloops.next s hs
    have hhead := htail r hr
    rw [e] at hhead
    simpa [finite] using ⟨htail s hs, hhead⟩
  obtain ⟨k, hk⟩ := (Cell.bounded_eq_false_iff _).1 hb
  obtain ⟨a, b, hs⟩ := h.exists_side_of_infinity ht hk
  have hout : ∀ q, m.Covers place t q ↔ Outward (place a) (place b) q := fun q => covers_iff_outward hs hk
  obtain ⟨ha, hb, hab⟩ := h.mem_sites ht hs
  have hpos : 0 ≤ cross (place a) (place b) p := by
    rcases (hout p).1 hc with hpos | ⟨h0, -⟩
    · exact hpos.le
    · exact h0.ge
  obtain ⟨s, hsr, -⟩ := hl.exists_finite h hp hne
  -- No site lies to the left of the hull side, so none to the left of its parallel through the point.
  refine not_halfPlane (l := (m.rimOf l).map fun s => s.side.ends place) (p := p)
    (r := ⟨p.x + ((place b).x - (place a).x), p.y + ((place b).y - (place a).y)⟩)
    (fun e => List.ne_nil_of_mem hsr (List.map_eq_nil_iff.1 e)) (ends_balanced place (h.balanced hl.nodup hl.live)) ?_ ?_ ?_
  · simp only [List.forall_mem_map]
    exact fun s hs => hl.visible h hs (hfin s hs)
  · intro e
    refine h.distinct a ha b hb hab ?_
    have hx := congrArg Point.x e
    have hy := congrArg Point.y e
    simp only [add_eq_left, sub_eq_zero] at hx hy
    cases hpa : place a
    cases hpb : place b
    simp_all
  · simp only [List.forall_mem_map]
    intro s hs
    obtain ⟨e, -, he, rfl⟩ := hl.mem_rim hs
    obtain ⟨c, d, hside⟩ := side_of_finite (hfin _ hs)
    change m.side e.1 e.2 = _ at hside
    have hneg : cross (place a) (place b) (place c) ≤ 0 := by
      refine not_lt.1 fun hlt => h.empty t ht c (h.mem_sites he.live hside).1 ((hout _).2 (.inl hlt))
    have hshift : ∀ q, cross p ⟨p.x + ((place b).x - (place a).x), p.y + ((place b).y - (place a).y)⟩ q =
        cross (place a) (place b) q - cross (place a) (place b) p := by
      intro q
      simp only [cross_eq]
      ring
    simp only [Side.ends, hside, hshift]
    exact sub_nonpos.2 (hneg.trans hpos)

end Region

/-! ## The hull -/

/-- An unbounded cell lies behind a triangle with its corner at infinity opposite the side they share. -/
theorem ClosedSurface.corner_behind (h : m.ClosedSurface sites) {k : Fin 3} (ht : m.Live t) (hb : (m.cell t).bounded = true)
    (hout : (m.cell (m.behind t k)).bounded = false) : (m.cell (m.behind t k)).corners.get (m.twin (t, k)).2 = .infinity := by
  obtain ⟨j, hj⟩ := (Cell.bounded_eq_false_iff _).1 hout
  have htwin : m.side (m.behind t k) (m.twin (t, k)).2 = (m.side t k).reverse := h.side_twin ht k
  rw [Cell.bounded_iff] at hb
  rcases Triple.eq_or_next_or_previous j (m.twin (t, k)).2 with rfl | rfl | rfl
  · exact hj
  · exact absurd ((congrArg Side.tail htwin).symm.trans hj) (hb _)
  · exact absurd ((congrArg Side.head htwin).symm.trans hj) (hb _)

/-- The rim of the triangles is made of hull sides, each the reverse of its unbounded cell's. -/
theorem Delaunay.exists_behind (h : m.Delaunay place sites) {e : Nat × Fin 3} (he : e ∈ m.cutSides m.triangleSlots) :
    ∃ a ∈ sites, ∃ b ∈ sites, m.side e.1 e.2 = ⟨.site b, .site a⟩ ∧ m.Live (m.behind e.1 e.2) ∧
      (m.cell (m.behind e.1 e.2)).bounded = false ∧ ∀ q, m.Covers place (m.behind e.1 e.2) q ↔ Outward (place a) (place b) q := by
  obtain ⟨he, hout⟩ := mem_cutSides.1 he
  obtain ⟨ht, hb⟩ := mem_triangleSlots.1 he
  have hlive := h.live_behind ht e.2
  have hbout : (m.cell (m.behind e.1 e.2)).bounded = false :=
    Bool.eq_false_iff.2 fun hb' => hout (mem_triangleSlots.2 ⟨hlive, hb'⟩)
  have hj := h.corner_behind ht hb hbout
  obtain ⟨a, b, hs⟩ := h.exists_side_of_infinity hlive hj
  have htwin : m.side (m.behind e.1 e.2) (m.twin (e.1, e.2)).2 = (m.side e.1 e.2).reverse := h.side_twin ht e.2
  obtain ⟨ha, hb, -⟩ := h.mem_sites hlive hs
  exact ⟨a, ha, b, hb, Side.reverse_eq_iff.1 (htwin.symm.trans hs), hlive, hbout, fun q => covers_iff_outward hs hj⟩

/-- A ray leaves the hull at most once. -/
theorem Delaunay.sum_hull_le_one (h : m.Delaunay place sites) :
    (m.triangleSlots.map (m.around place (crossing p r))).sum ≤ 1 := by
  rw [sum_around h.toClosedSurface place m.triangleSlots_nodup (fun t ht => (mem_triangleSlots.1 ht).1) fun x y => crossing_swap p r x y,
    rimOf_eq_map, List.map_map]
  refine sum_le_one ((sidesOf_nodup m.triangleSlots_nodup).filter _) (fun e he => ?_) fun e he f hf hpos hpos' => ?_
  · obtain ⟨a, -, b, -, hs, -⟩ := h.exists_behind he
    rw [Function.comp_apply, hs]
    exact crossing_le_one _ _ _ _
  · obtain ⟨a, ha, b, hb, hs, hlive, -, hout⟩ := h.exists_behind he
    obtain ⟨a', ha', b', hb', hs', hlive', -, hout'⟩ := h.exists_behind hf
    rw [Function.comp_apply, hs] at hpos
    rw [Function.comp_apply, hs'] at hpos'
    obtain ⟨hb1, ha1, -⟩ := crossing_pos hpos
    obtain ⟨hb2, ha2, -⟩ := crossing_pos hpos'
    have hempty : ∀ i ∈ sites, ¬Outward (place a) (place b) (place i) := fun i hi ho => h.empty _ hlive i hi ((hout _).2 ho)
    have hempty' : ∀ i ∈ sites, ¬Outward (place a') (place b') (place i) := fun i hi ho => h.empty _ hlive' i hi ((hout' _).2 ho)
    obtain ⟨eqa, eqb⟩ := crossing_unique ha1 hb1 ha2 hb2 (hempty a' ha') (hempty b' hb') (hempty' a ha) (hempty' b hb)
    have hinj : ∀ i ∈ sites, ∀ j ∈ sites, place i = place j → i = j := fun i hi j hj e => by
      by_contra hne
      exact h.distinct i hi j hj hne e
    rw [hinj a ha a' ha' eqa, hinj b hb b' hb' eqb] at hs
    have hpair := h.side_inj (mem_triangleSlots.1 (mem_cutSides.1 he).1).1 (mem_triangleSlots.1 (mem_cutSides.1 hf).1).1
      (hs.trans hs'.symm)
    exact Prod.ext hpair.1 hpair.2

theorem Delaunay.around_crossing (h : m.Delaunay place sites) (ht : m.Live t) (hb : (m.cell t).bounded = true)
    (hr : ∀ i ∈ sites, cross p r (place i) ≠ 0) : ∃ a b c, (m.cell t).corners = ⟨.site a, .site b, .site c⟩ ∧
      0 ≤ m.around place (crossing p r) t ∧
        (0 < m.around place (crossing p r) t → InTriangle (place a) (place b) (place c) p) := by
  obtain ⟨a, b, c, hc⟩ := exists_corners hb
  have hmem : ∀ k i, (m.cell t).corners.get k = .site i → cross p r (place i) ≠ 0 := fun k i e => hr i (h.among t k i ht e)
  have hw := winding_nonneg (h.turn t a b c ht hc) (hmem 0 a (by rw [hc]; rfl)) (hmem 1 b (by rw [hc]; rfl))
    (hmem 2 c (by rw [hc]; rfl))
  have heq : m.around place (crossing p r) t = winding p r (place a) (place b) (place c) := by
    rw [around_bounded hc, winding]
    ring
  rw [← heq] at hw
  exact ⟨a, b, c, hc, hw⟩

/-! ## Regions meet -/

namespace Region

variable {l k : List Nat}

/-- A region of triangles winds around the point. -/
theorem one_le_sum (h : m.Delaunay place sites) (hp : ∀ i ∈ sites, place i ≠ p) (hl : m.Region place p l) (hne : l ≠ [])
    (hb : ∀ t ∈ l, (m.cell t).bounded = true) (hr : ∀ i ∈ sites, cross p r (place i) ≠ 0) :
    1 ≤ (l.map (m.around place (crossing p r))).sum := by
  have hfin : ∀ s ∈ m.rimOf l, finite s = true := by
    intro s hs
    obtain ⟨e, he, -, rfl⟩ := hl.mem_rim hs
    have hb := (Cell.bounded_iff _).1 (hb _ he)
    simp [finite, Cell.side, hb]
  have hv : ∀ s ∈ m.rimOf l, 0 < cross (s.side.ends place).1 (s.side.ends place).2 p := fun s hs => hl.visible h hs (hfin s hs)
  obtain ⟨s, hs, -⟩ := hl.exists_finite h hp hne
  rw [sum_around h.toClosedSurface place hl.nodup hl.live fun x y => crossing_swap p r x y]
  refine one_le_sum_count (h.balanced hl.nodup hl.live) hfin (fun s hs => (hv s hs).le) ⟨s, hs, hv s hs⟩ (fun s hs => ?_)
    fun s hs _ _ => hv s hs
  obtain ⟨a, b, hside⟩ := side_of_finite (hfin s hs)
  obtain ⟨e, -, he, rfl⟩ := hl.mem_rim hs
  change m.side e.1 e.2 = _ at hside
  obtain ⟨ha, hb, -⟩ := h.mem_sites he.live hside
  simp only [Side.ends, hside]
  exact ⟨hr a ha, hr b hb⟩

/-- Any two regions have a cell in common. -/
theorem meet (h : m.Delaunay place sites) (hp : ∀ i ∈ sites, place i ≠ p) (hl : m.Region place p l) (hk : m.Region place p k)
    (hne : l ≠ []) (hne' : k ≠ []) : ∃ t ∈ l, t ∈ k := by
  by_cases houter : ∃ t, m.Live t ∧ (m.cell t).bounded = false ∧ m.Covers place t p
  · -- Both rims come in from infinity, at the same side.
    obtain ⟨t, ht, hb, hc⟩ := houter
    obtain ⟨e, he, hinf⟩ := hl.exists_entry h hp hne ht hb hc
    obtain ⟨f, hf, hinf'⟩ := hk.exists_entry h hp hne' ht hb hc
    have heq := h.tail_unique hp (hl.onRim he) (hk.onRim hf) (hinf.trans hinf'.symm)
    subst heq
    exact ⟨e.1, (mem_cutSides.1 he).1, (mem_cutSides.1 hf).1⟩
  · by_contra hdisjoint
    have hbounded : ∀ t, m.Live t → m.Covers place t p → (m.cell t).bounded = true := fun t ht hc => by
      by_contra hb
      exact houter ⟨t, ht, by simpa using hb, hc⟩
    obtain ⟨r, hr⟩ := exists_ray p (sites.map place) (by simpa only [List.forall_mem_map] using hp)
    rw [List.forall_mem_map] at hr
    have h1 := hl.one_le_sum h hp hne (fun t ht => hbounded t (hl.live t ht) (hl.covers t ht)) hr
    have h2 := hk.one_le_sum h hp hne' (fun t ht => hbounded t (hk.live t ht) (hk.covers t ht)) hr
    have hle := h.sum_hull_le_one (p := p) (r := r)
    have hsub := sum_map_le_of_subset (l := l ++ k) (k := m.triangleSlots) (f := m.around place (crossing p r))
      (List.nodup_append.2 ⟨hl.nodup, hk.nodup, fun a ha b hb e => hdisjoint ⟨a, ha, e ▸ hb⟩⟩) (fun t ht => ?_) fun t ht => ?_
    · rw [List.map_append, List.sum_append] at hsub
      omega
    · rw [mem_triangleSlots]
      rcases List.mem_append.1 ht with ht | ht
      · exact ⟨hl.live t ht, hbounded t (hl.live t ht) (hl.covers t ht)⟩
      · exact ⟨hk.live t ht, hbounded t (hk.live t ht) (hk.covers t ht)⟩
    · obtain ⟨ht, hb⟩ := mem_triangleSlots.1 ht
      obtain ⟨a, b, c, -, h0, -⟩ := h.around_crossing ht hb hr
      exact h0

/-- So a region has all cells whose regions hold the point. -/
theorem mem_of_covers (h : m.Delaunay place sites) (hp : ∀ i ∈ sites, place i ≠ p) (hl : m.Region place p l) (hne : l ≠ [])
    (ht : m.Live t) (hc : m.Covers place t p) : t ∈ l := by
  by_contra htl
  -- The others make up a region of their own.
  have hk : m.Region place p (m.liveSlots.filter fun t => m.Covers place t p ∧ t ∉ l) := by
    refine ⟨m.liveSlots_nodup.filter _, ?_, ?_, ?_⟩
    · intro t ht
      exact mem_liveSlots.1 (List.mem_filter.1 ht).1
    · intro t ht
      exact (of_decide_eq_true (List.mem_filter.1 ht).2).1
    · intro t ht j hj
      obtain ⟨ht, hcl⟩ := List.mem_filter.1 ht
      obtain ⟨hc, htl⟩ := of_decide_eq_true hcl
      have ht := mem_liveSlots.1 ht
      refine List.mem_filter.2 ⟨mem_liveSlots.2 (h.live_behind ht j), decide_eq_true ⟨hj, fun hjl => htl ?_⟩⟩
      have hback := h.behind_twin ht j
      rw [← hback]
      exact hl.closed _ hjl _ (hback.symm ▸ hc)
  obtain ⟨u, hu, huk⟩ := hl.meet h hp hk hne (List.ne_nil_of_mem (List.mem_filter.2 ⟨mem_liveSlots.2 ht, decide_eq_true ⟨hc, htl⟩⟩))
  exact (of_decide_eq_true (List.mem_filter.1 huk).2).2 hu

end Region

end Mesh

end DelaunaySurface
