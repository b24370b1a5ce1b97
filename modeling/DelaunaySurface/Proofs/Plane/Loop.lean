import DelaunaySurface.Proofs.Plane.Winding
/-!
# Loops that a point sees

A list of sides makes up loops when its tails and its heads are the same corners, as often. If the point
sees all sides from their left the loops go around it: they cross every line through it
(`exists_crossing`) and lie in no half-plane beside it (`not_halfPlane`).
-/

namespace DelaunaySurface

variable {p r : Point Rat} {l : List (Point Rat × Point Rat)}

/-- What never grows along the sides of loops stays the same along each. -/
theorem eq_along_loops (hb : (l.map Prod.fst).Perm (l.map Prod.snd)) (f : Point Rat → Rat) (h : ∀ e ∈ l, f e.2 ≤ f e.1) :
    ∀ e ∈ l, f e.2 = f e.1 := by
  intro e he
  by_contra hne
  have hlt := List.sum_lt_sum (f := fun e : Point Rat × Point Rat => f e.2) (g := fun e => f e.1) (l := l) h
    ⟨e, he, lt_of_le_of_ne (h e he) hne⟩
  have hsum := (hb.map f).sum_eq
  simp only [List.map_map, Function.comp_def] at hsum
  exact hlt.ne hsum.symm

/-- Loops that the point sees, somewhere from a distance, cross every line through it upward. -/
theorem exists_crossing (hb : (l.map Prod.fst).Perm (l.map Prod.snd)) (hv : ∀ e ∈ l, 0 ≤ cross e.1 e.2 p)
    (hpos : ∃ e ∈ l, 0 < cross e.1 e.2 p) (h1 : ∀ e ∈ l, cross p r e.1 ≠ 0) (h2 : ∀ e ∈ l, cross p r e.2 ≠ 0) :
    ∃ e ∈ l, cross p r e.1 < 0 ∧ 0 < cross p r e.2 := by
  by_contra hno
  have hup : ∀ e ∈ l, 0 < cross p r e.2 → 0 < cross p r e.1 := fun e he hpos =>
    (lt_or_gt_of_ne (h1 e he)).resolve_left fun hneg => hno ⟨e, he, hneg, hpos⟩
  -- Without an upward crossing there is no downward one.
  have hside : ∀ e ∈ l, 0 < cross p r e.1 → 0 < cross p r e.2 := by
    intro e he hpos
    by_contra hneg
    have := eq_along_loops hb (fun x => if 0 < cross p r x then 1 else 0) (fun e he => by
      by_cases h : 0 < cross p r e.2
      · simp [h, hup e he h]
      · simp only [h, if_false]; split <;> norm_num) e he
    simp [hpos, hneg] at this
  -- On each side of the line the cotangent of the direction from `p` falls along the sides.
  have hkey : ∀ e ∈ l, dot r e.2 p / cross p r e.2 - dot r e.1 p / cross p r e.1 =
      -(dot r r p * cross e.1 e.2 p / (cross p r e.1 * cross p r e.2)) := by
    intro e he
    have hn1 := h1 e he
    have hn2 := h2 e he
    have hid : dot r e.2 p * cross p r e.1 - dot r e.1 p * cross p r e.2 = -(dot r r p * cross e.1 e.2 p) := by
      simp only [dot, cross_eq]; ring
    field_simp
    linarith
  have hsame : ∀ e ∈ l, 0 < cross p r e.1 * cross p r e.2 := by
    intro e he
    rcases lt_or_gt_of_ne (h1 e he) with hneg | hpos
    · exact mul_pos_of_neg_of_neg hneg ((lt_or_gt_of_ne (h2 e he)).resolve_right fun h => (hup e he h).not_gt hneg)
    · exact mul_pos hpos (hside e he hpos)
  have hrp : 0 ≤ dot r r p := add_nonneg (mul_self_nonneg _) (mul_self_nonneg _)
  have hconst := eq_along_loops hb (fun x => dot r x p / cross p r x) fun e he => by
    have := div_nonneg (mul_nonneg hrp (hv e he)) (hsame e he).le
    have := hkey e he
    linarith
  obtain ⟨e, he, hpos⟩ := hpos
  have hr : 0 < dot r r p := dot_self_pos (by rintro rfl; exact h1 e he (by simp only [cross_eq]; ring))
  have := hkey e he
  rw [hconst e he, sub_self] at this
  linarith [div_pos (mul_pos hr hpos) (hsame e he)]

/-- Loops that the point sees do not lie in a half-plane beside it. -/
theorem not_halfPlane (hl : l ≠ []) (hb : (l.map Prod.fst).Perm (l.map Prod.snd)) (hv : ∀ e ∈ l, 0 < cross e.1 e.2 p)
    (hr : r ≠ p) (h : ∀ e ∈ l, cross p r e.1 ≤ 0) : False := by
  have htail : ∀ e ∈ l, ∃ f ∈ l, f.1 = e.2 := fun e he => by
    have := hb.symm.subset (List.mem_map_of_mem (f := Prod.snd) he)
    simpa using this
  have hhead : ∀ e ∈ l, ∃ f ∈ l, f.2 = e.1 := fun e he => by
    have := hb.subset (List.mem_map_of_mem (f := Prod.fst) he)
    simpa using this
  have h' : ∀ e ∈ l, cross p r e.2 ≤ 0 := fun e he => by
    obtain ⟨f, hf, e'⟩ := htail e he
    exact e' ▸ h f hf
  have hrp : 0 < dot r r p := dot_self_pos hr
  -- Of the half-plane's border no side can leave ahead of the point, and none can arrive behind it.
  have hfst : ∀ e ∈ l, cross p r e.1 = 0 → dot r e.1 p < 0 := by
    intro e he h0
    have hid : dot r e.1 p * cross p r e.2 - dot r e.2 p * cross p r e.1 = dot r r p * cross e.1 e.2 p := by
      simp only [dot, cross_eq]; ring
    rw [h0, mul_zero, sub_zero] at hid
    by_contra hd
    linarith [mul_pos hrp (hv e he), mul_nonneg (not_lt.1 hd) (neg_nonneg.2 (h' e he))]
  have hsnd : ∀ e ∈ l, cross p r e.2 ≠ 0 := by
    intro e he h0
    have hid : dot r e.1 p * cross p r e.2 - dot r e.2 p * cross p r e.1 = dot r r p * cross e.1 e.2 p := by
      simp only [dot, cross_eq]; ring
    obtain ⟨f, hf, e'⟩ := htail e he
    have hd := hfst f hf (by rw [e', h0])
    rw [e'] at hd
    rw [h0, mul_zero, zero_sub] at hid
    linarith [mul_pos hrp (hv e he), mul_nonneg_of_nonpos_of_nonpos hd.le (h e he)]
  have hfst' : ∀ e ∈ l, cross p r e.1 ≠ 0 := fun e he => by
    obtain ⟨f, hf, e'⟩ := hhead e he
    exact e' ▸ hsnd f hf
  obtain ⟨e, he⟩ := List.exists_mem_of_ne_nil l hl
  obtain ⟨f, hf, -, hup⟩ := exists_crossing hb (fun e he => (hv e he).le) ⟨e, he, hv e he⟩ hfst' hsnd
  exact (h' f hf).not_gt hup

/-! ## Hull sides across a ray -/

/-- Of two sides across a ray that keep each other's ends out, one lies on the line of the other. -/
theorem inline_of_crossings {a b a' b' : Point Rat} (ha : 0 < cross p r a) (hb : cross p r b < 0) (ha' : 0 < cross p r a')
    (hb' : cross p r b' < 0) (c0 : cross a b a' ≤ 0) (c1 : cross a b b' ≤ 0) (c2 : cross a' b' a ≤ 0)
    (c3 : cross a' b' b ≤ 0) : cross a b a' = 0 ∧ cross a b b' = 0 := by
  have hsum : (cross p r a' * cross a b b' - cross p r b' * cross a b a') +
      (cross p r a * cross a' b' b - cross p r b * cross a' b' a) = 0 := by
    simp only [cross_eq]; ring
  -- All four terms have one sign.
  have t0 := mul_nonneg (neg_nonneg.2 hb'.le) (neg_nonneg.2 c0)
  have t1 := mul_nonneg ha'.le (neg_nonneg.2 c1)
  have t2 := mul_nonneg (neg_nonneg.2 hb.le) (neg_nonneg.2 c2)
  have t3 := mul_nonneg ha.le (neg_nonneg.2 c3)
  constructor
  · have : cross p r b' * cross a b a' = 0 := by linarith
    exact (mul_eq_zero.1 this).resolve_left hb'.ne
  · have : cross p r a' * cross a b b' = 0 := by linarith
    exact (mul_eq_zero.1 this).resolve_left ha'.ne'

/-- What lies strictly between two points of a line is outward of the side between them. -/
theorem outward_between {a b : Point Rat} {t u v : Rat} (hne : along a b t ≠ along a b u) (htv : t < v) (hvu : v < u) :
    Outward (along a b t) (along a b u) (along a b v) := by
  have hut : 0 < u - t := by linarith
  have hon : along a b v = along (along a b t) (along a b u) ((v - t) / (u - t)) := by
    simp only [along, Point.mk.injEq]
    constructor <;> field_simp <;> ring
  rw [hon]
  exact outward_along hne (div_pos (by linarith) hut) ((div_lt_one hut).2 (by linarith))

/-- A ray leaves the hull across one side: two that it crosses outward are the same. -/
theorem crossing_unique {a b a' b' : Point Rat} (ha : 0 < cross p r a) (hb : cross p r b < 0) (ha' : 0 < cross p r a')
    (hb' : cross p r b' < 0) (h : ¬Outward a b a') (h1 : ¬Outward a b b') (h2 : ¬Outward a' b' a) (h3 : ¬Outward a' b' b) :
    a = a' ∧ b = b' := by
  obtain ⟨z0, z1⟩ := inline_of_crossings ha hb ha' hb' (not_lt.1 fun hn => h (.inl hn)) (not_lt.1 fun hn => h1 (.inl hn))
    (not_lt.1 fun hn => h2 (.inl hn)) (not_lt.1 fun hn => h3 (.inl hn))
  have hab : a ≠ b := by rintro rfl; exact ha.not_gt hb
  have hab' : a' ≠ b' := by rintro rfl; exact ha'.not_gt hb'
  -- All four are in line; by their places on it none is strictly between others.
  obtain ⟨t, rfl⟩ := exists_along z0 hab
  obtain ⟨u, rfl⟩ := exists_along z1 hab
  rw [cross_along] at ha' hb'
  have ht : t ≤ 0 := by
    by_contra ht
    have ht1 : ¬t < 1 := fun ht1 => h (outward_along hab (not_le.1 ht) ht1)
    nlinarith
  have hu : 1 ≤ u := by
    by_contra hu
    have hu0 : ¬0 < u := fun hu0 => h1 (outward_along hab hu0 (not_le.1 hu))
    nlinarith
  have e0 : along a b 0 = a := by simp [along]
  have e1 : along a b 1 = b := by simp [along]
  constructor
  · by_contra hne
    have hneg : t < 0 := lt_of_le_of_ne ht fun h => hne (by rw [h, e0])
    have hbetween := outward_between hab' hneg (by linarith)
    rw [e0] at hbetween
    exact h2 hbetween
  · by_contra hne
    have hgt : 1 < u := lt_of_le_of_ne hu fun h => hne (by rw [← h, e1])
    have hbetween := outward_between hab' (by linarith) hgt
    rw [e1] at hbetween
    exact h3 hbetween

end DelaunaySurface
