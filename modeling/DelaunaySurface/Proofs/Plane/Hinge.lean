import DelaunaySurface.Proofs.Plane.Exact
/-!
# Two regions that meet

Two cells meet along a side, and a new point lies in the region of one and not of the other. Then the
point sees that side, and the triangle it forms with it has no point in its circle that the two cells
had not (`Hinge.visible`, `Hinge.fan_empty`). The same at infinity is `horizon_empty`.
-/

namespace DelaunaySurface

/-! ## Lines -/

/-- The point a share `t` of the way from `a` to `b`. -/
def along (a b : Point Rat) (t : Rat) : Point Rat := ⟨a.x + t * (b.x - a.x), a.y + t * (b.y - a.y)⟩

section Lines
variable {a b c p q : Point Rat} {t : Rat}

theorem along_swap (a b : Point Rat) (t : Rat) : along a b t = along b a (1 - t) := by
  simp only [along, Point.mk.injEq]
  constructor <;> ring

theorem cross_along (a b c d : Point Rat) (t : Rat) :
    cross a b (along c d t) = (1 - t) * cross a b c + t * cross a b d := by
  simp only [cross_eq, along]; ring

theorem dot_along (a b : Point Rat) (t : Rat) : dot a b (along a b t) = -(t * (1 - t) * dot b b a) := by
  simp only [dot, along]; ring

theorem dot_self_pos (h : a ≠ b) : 0 < dot a a b := by
  have hx := mul_self_nonneg (a.x - b.x)
  have hy := mul_self_nonneg (a.y - b.y)
  refine lt_of_le_of_ne (add_nonneg hx hy) fun e => h ?_
  rw [dot] at e
  have h1 : a.x - b.x = 0 := mul_self_eq_zero.1 (by linarith)
  have h2 : a.y - b.y = 0 := mul_self_eq_zero.1 (by linarith)
  obtain ⟨ax, ay⟩ := a
  obtain ⟨bx, by'⟩ := b
  simp only [sub_eq_zero] at h1 h2
  rw [h1, h2]

/-- A point in line with two others is along the way between them. -/
theorem exists_along (h : cross a b p = 0) (hab : a ≠ b) : ∃ t, p = along a b t := by
  have hl : 0 < dot b b a := dot_self_pos hab.symm
  refine ⟨dot p b a / dot b b a, ?_⟩
  have hx : (p.x - a.x) * dot b b a = dot p b a * (b.x - a.x) := by
    rw [cross_eq] at h
    simp only [dot]
    linear_combination (-(b.y - a.y)) * h
  have hy : (p.y - a.y) * dot b b a = dot p b a * (b.y - a.y) := by
    rw [cross_eq] at h
    simp only [dot]
    linear_combination (b.x - a.x) * h
  obtain ⟨px, py⟩ := p
  simp only [along, Point.mk.injEq]
  constructor
  · field_simp
    linarith
  · field_simp
    linarith

theorem exists_along_of_dot_neg (h : cross a b p = 0) (hd : dot a b p < 0) : ∃ t, 0 < t ∧ t < 1 ∧ p = along a b t := by
  have hab : a ≠ b := by
    rintro rfl
    exact absurd hd (not_lt.2 (add_nonneg (mul_self_nonneg _) (mul_self_nonneg _)))
  obtain ⟨t, rfl⟩ := exists_along h hab
  have hl : 0 < dot b b a := dot_self_pos hab.symm
  rw [dot_along, neg_lt_zero, mul_pos_iff_of_pos_right hl] at hd
  refine ⟨t, ?_, ?_, rfl⟩
  · by_contra ht
    nlinarith
  · by_contra ht
    nlinarith

theorem dot_along_neg (hab : a ≠ b) (h0 : 0 < t) (h1 : t < 1) : dot a b (along a b t) < 0 := by
  rw [dot_along, neg_lt_zero]
  exact mul_pos (mul_pos h0 (sub_pos.2 h1)) (dot_self_pos hab.symm)

theorem cross_self_left (a b : Point Rat) : cross a b a = 0 := by
  simp only [cross_eq]; ring

theorem cross_self_right (a b : Point Rat) : cross a b b = 0 := by
  simp only [cross_eq]; ring

/-- Points that are not in line are different. -/
theorem ne_of_cross {a b c : Point Rat} (h : cross a b c ≠ 0) : a ≠ b ∧ b ≠ c ∧ a ≠ c := by
  refine ⟨?_, ?_, ?_⟩ <;> rintro rfl
  · exact h (by simp only [cross_eq]; ring)
  · exact h (cross_self_right _ _)
  · exact h (cross_self_left _ _)

/-- Between the ends of a side lies no point that is not outward of it. -/
theorem outward_along (hab : a ≠ b) (h0 : 0 < t) (h1 : t < 1) : Outward a b (along a b t) := by
  refine .inr ⟨?_, dot_along_neg hab h0 h1⟩
  rw [cross_along, cross_self_left, cross_self_right]
  ring

/-- Three points in line with two different ones are in line with each other. -/
theorem cross_eq_zero_of_line {r : Point Rat} (hab : a ≠ b) (hp : cross a b p = 0) (hq : cross a b q = 0)
    (hr : cross a b r = 0) : cross p q r = 0 := by
  obtain ⟨t, rfl⟩ := exists_along hp hab
  obtain ⟨u, rfl⟩ := exists_along hq hab
  obtain ⟨w, rfl⟩ := exists_along hr hab
  simp only [cross_eq, along]; ring

end Lines

/-! ## Along a side -/

/-- The point lies in the region of the cell with the side `a → b` and the third corner `c`; no third
corner is the one at infinity. -/
def InCell (a b : Point Rat) (c : Option (Point Rat)) (p : Point Rat) : Prop :=
  match c with
  | some c => 0 < inCircle a b c p
  | none => Outward a b p

/-- Two cells that meet along `a → b`, with the third corners `c` on the left and `d` on the right. -/
structure Hinge (a b : Point Rat) (c d : Option (Point Rat)) : Prop where
  left : ∀ q, c = some q → 0 < cross a b q
  right : ∀ q, d = some q → 0 < cross b a q
  finite : c ≠ none ∨ d ≠ none
  /-- The corner on the right lies outside the region on the left. -/
  empty : ∀ q, d = some q → ¬InCell a b c q

namespace Hinge

variable {a b p s : Point Rat} {c d : Option (Point Rat)}

theorem visible (h : Hinge a b c d) (hin : InCell a b c p) (hout : ¬InCell b a d p) : 0 < cross a b p := by
  have hswap := cross_swap a b p
  by_contra hn
  rw [not_lt] at hn
  cases c with
  | none =>
    cases d with
    | none => exact h.finite.elim (fun h => h rfl) fun h => h rfl
    | some d =>
      -- The point lies on the side itself, so in the circle on its other side.
      obtain ⟨h0, hd⟩ := hin.resolve_left (not_lt.2 hn)
      apply hout
      have hpos := h.right d rfl
      rw [InCell, inCircle_eq_dot, hswap, h0, dot_comm a b p]
      linarith [mul_pos (neg_pos.2 hd) hpos]
  | some c =>
    have hc := h.left c rfl
    simp only [InCell] at hin
    cases d with
    | none =>
      rw [InCell, Outward, not_or] at hout
      have h0 : cross a b p = 0 := by linarith [hout.1]
      rw [inCircle_eq_dot, h0] at hin
      refine hout.2 ⟨by rw [hswap, h0, neg_zero], ?_⟩
      rw [dot_comm a b p]
      by_contra hd
      linarith [mul_nonneg (not_lt.1 hd) hc.le]
    | some d =>
      have hd := h.right d rfl
      have he := h.empty d rfl
      simp only [InCell, not_lt] at hout he
      have hflip := inCircle_mul_cross a b c d p
      linarith [mul_pos hin hd, mul_nonneg_of_nonpos_of_nonpos he hn, mul_nonneg (neg_nonneg.2 hout) hc.le]

/-- The new triangle has nothing in its circle that the regions of both cells keep out. -/
theorem fan_empty (h : Hinge a b c d) (hin : InCell a b c p) (hout : ¬InCell b a d p) (hs : ¬InCell a b c s)
    (hs' : ¬InCell b a d s) : inCircle a b p s ≤ 0 := by
  have hp := h.visible hin hout
  have hswap := cross_swap a b s
  have hswap' := cross_swap a b p
  have hleft : ∀ q, c = some q → 0 ≤ cross a b s → inCircle a b p s ≤ 0 := by
    rintro q rfl hs0
    have hc := h.left q rfl
    simp only [InCell, not_lt] at hin hs
    have hfan := inCircle_fan a b q p s
    by_contra hn
    linarith [mul_pos (not_le.1 hn) hc, mul_nonneg (neg_nonneg.2 hs) hp.le, mul_nonneg hin.le hs0]
  have hright : ∀ q, d = some q → cross a b s ≤ 0 → inCircle a b p s ≤ 0 := by
    rintro q rfl hs0
    have hd := h.right q rfl
    simp only [InCell, not_lt] at hout hs'
    have hfan := inCircle_fan b a q p s
    rw [inCircle_swap a b p s, hswap, hswap'] at hfan
    by_contra hn
    linarith [mul_pos (not_le.1 hn) hd, mul_nonneg (neg_nonneg.2 hs') hp.le, mul_nonneg (neg_nonneg.2 hout) (neg_nonneg.2 hs0)]
  cases c with
  | none =>
    cases d with
    | none => exact absurd h.finite (by simp)
    | some d => exact hright d rfl (not_lt.1 fun hn => hs (.inl hn))
  | some c =>
    cases d with
    | none => exact hleft c rfl (by linarith [not_lt.1 fun hn => hs' (Or.inl hn)])
    | some d => exact (le_total 0 (cross a b s)).elim (hleft c rfl) (hright d rfl)

/-- A point on the circle of the new triangle lies behind the side. -/
theorem cross_nonpos (h : Hinge a b c d) (hin : InCell a b c p) (hout : ¬InCell b a d p) (hs : ¬InCell a b c s)
    (h0 : inCircle a b p s = 0) : cross a b s ≤ 0 := by
  have hp := h.visible hin hout
  cases c with
  | none => exact not_lt.1 fun hn => hs (.inl hn)
  | some c =>
    simp only [InCell, not_lt] at hin hs
    have hfan := inCircle_fan a b c p s
    rw [h0, zero_mul] at hfan
    by_contra hn
    linarith [mul_pos hin (not_le.1 hn), mul_nonneg (neg_nonneg.2 hs) hp.le]

end Hinge

/-- The point cannot form triangles with two sides that begin at one corner, if both leave the other's end
out of their circle. -/
theorem fan_unique {a b b' p : Point Rat} (hb : b' ≠ a) (hne : b' ≠ b) (hp : 0 < cross a b p)
    (he : inCircle a b p b' ≤ 0) (he' : inCircle a b' p b ≤ 0) (hc : inCircle a b p b' = 0 → cross a b b' ≤ 0)
    (hc' : inCircle a b' p b = 0 → cross a b' b ≤ 0) : False := by
  have hswap : inCircle a b' p b = -inCircle a b p b' := by simp only [inCircle_eq]; ring
  have hcross : cross a b' b = -cross a b b' := cross_swap_last a b b'
  have h0 : inCircle a b p b' = 0 := by linarith
  have hline : cross a b b' = 0 := by linarith [hc h0, hc' (by rw [hswap, h0, neg_zero])]
  -- On a circle and in line, two of the three are the same.
  have hdot : dot a b b' = 0 := by
    have := inCircle_eq_dot a b b' p
    rw [hline, inCircle_swap_last, h0] at this
    have hmul : cross a b p * dot a b b' = 0 := by linarith
    exact (mul_eq_zero.1 hmul).resolve_left hp.ne'
  have hprod : dot a a b' * dot b b b' = 0 := by
    have hsq : dot a a b' * dot b b b' = dot a b b' ^ 2 + cross a b b' ^ 2 := by simp only [dot, cross_eq]; ring
    rw [hsq, hdot, hline]; ring
  rcases mul_eq_zero.1 hprod with h | h
  · exact (dot_self_pos hb.symm).ne' h
  · exact (dot_self_pos hne.symm).ne' h

/-! ## Along the horizon -/

/-- Two unbounded cells behind `z → x` and `x → w` that keep out each other's far corners do not fold onto one
ray. -/
theorem along_nonpos {x w : Point Rat} {t : Rat} (hxw : x ≠ w) (hzx : along x w t ≠ x) (hzw : along x w t ≠ w)
    (hw : ¬Outward (along x w t) x w) (hz : ¬Outward x w (along x w t)) : t ≤ 0 := by
  by_contra ht
  have ht := not_le.1 ht
  rcases lt_trichotomy t 1 with h1 | h1 | h1
  · exact hz (outward_along hxw ht h1)
  · exact hzw (by simp [along, h1])
  · have hw' : w = along (along x w t) x (1 - t⁻¹) := by
      obtain ⟨wx, wy⟩ := w
      simp only [along, Point.mk.injEq]
      constructor <;> field_simp <;> ring
    have hinv := inv_lt_one_of_one_lt₀ h1
    have hpos := inv_pos.2 ht
    have hbetween := outward_along hzx (by linarith : 0 < 1 - t⁻¹) (by linarith : 1 - t⁻¹ < 1)
    rw [← hw'] at hbetween
    exact hw hbetween

/-- Two unbounded cells behind `z → x` and `x → w` meet, and the point lies in the region of the first only.
Then the unbounded cell behind `p → x` keeps out what both keep out. -/
theorem horizon_empty {z x w p s : Point Rat} (hxw : x ≠ w) (hzx : z ≠ x) (hzw : z ≠ w) (hp : Outward z x p)
    (hp' : ¬Outward x w p) (hs : ¬Outward z x s) (hw : ¬Outward z x w) (hz : ¬Outward x w z) (hs' : ¬Outward x w s) :
    ¬Outward p x s := by
  have hs0 : cross z x s ≤ 0 := not_lt.1 fun h => hs (.inl h)
  intro hout
  rcases hp with hp | ⟨h0, hd⟩
  · rcases hout with hout | ⟨hs1, hds⟩
    · -- Seen from `x` the directions of `s`, `p`, `w` and `z` leave no room unless `w` and `z` agree.
      have hpl : cross x s p * cross x w z = cross x s w * cross x p z - cross x s z * cross x p w := by
        simp only [cross_eq]; ring
      have e1 : cross x s p = cross p x s := by simp only [cross_eq]; ring
      have e2 : cross x p z = cross z x p := by simp only [cross_eq]; ring
      have e3 : cross x s z = cross z x s := by simp only [cross_eq]; ring
      have e4 : cross x s w = -cross x w s := cross_swap_last x w s
      have e5 : cross x p w = -cross x w p := cross_swap_last x w p
      have e6 : cross x w z = cross z x w := by simp only [cross_eq]; ring
      have hw0 : cross z x w ≤ 0 := not_lt.1 fun h => hw (.inl h)
      have hp0 : cross x w p ≤ 0 := not_lt.1 fun h => hp' (.inl h)
      have hsw : cross x w s ≤ 0 := not_lt.1 fun h => hs' (.inl h)
      rw [e1, e2, e3, e4, e5, e6] at hpl
      have hline : cross z x w = 0 := by
        have h1 := mul_nonneg (neg_nonneg.2 hsw) hp.le
        have h2 := mul_nonneg (neg_nonneg.2 hs0) (neg_nonneg.2 hp0)
        by_contra hne
        linarith [mul_pos hout (neg_pos.2 (lt_of_le_of_ne hw0 hne))]
      obtain ⟨t, rfl⟩ := exists_along (e6.trans hline) hxw
      have hsides : cross (along x w t) x p = -(t * cross x w p) := by simp only [cross_eq, along]; ring
      rw [hsides] at hp
      linarith [mul_nonneg_of_nonpos_of_nonpos (along_nonpos hxw hzx hzw hw hz) hp0]
    · obtain ⟨t, ht0, ht1, rfl⟩ := exists_along_of_dot_neg hs1 hds
      rw [cross_along, cross_self_right, mul_zero, add_zero] at hs0
      linarith [mul_pos (sub_pos.2 ht1) hp]
  · obtain ⟨t, ht0, ht1, rfl⟩ := exists_along_of_dot_neg h0 hd
    have hscale : cross (along z x t) x s = (1 - t) * cross z x s := by simp only [cross_eq, along]; ring
    rcases hout with hout | ⟨hs1, hds⟩
    · rw [hscale] at hout
      linarith [mul_nonneg (sub_pos.2 ht1).le (neg_nonneg.2 hs0)]
    · obtain ⟨u, hu0, hu1, rfl⟩ := exists_along_of_dot_neg hs1 hds
      have hon : along (along z x t) x u = along z x (t + u * (1 - t)) := by
        simp only [along, Point.mk.injEq]
        constructor <;> ring
      refine hs (hon ▸ outward_along hzx ?_ ?_)
      · nlinarith
      · nlinarith

/-- The plane seen in a mirror. -/
def mirror (a : Point Rat) : Point Rat := ⟨-a.x, a.y⟩

theorem mirror_ne {a b : Point Rat} (h : a ≠ b) : mirror a ≠ mirror b := by
  intro e
  apply h
  obtain ⟨ax, ay⟩ := a
  obtain ⟨bx, by'⟩ := b
  simpa [mirror] using e

theorem outward_mirror (a b p : Point Rat) : Outward (mirror b) (mirror a) (mirror p) ↔ Outward a b p := by
  have hc : cross (mirror b) (mirror a) (mirror p) = cross a b p := by simp only [cross_eq, mirror]; ring
  have hd : dot (mirror b) (mirror a) (mirror p) = dot a b p := by simp only [dot, mirror]; ring
  rw [Outward, Outward, hc, hd]

/-- The same where the point lies in the region of the second cell only. -/
theorem horizon_empty' {z x w p s : Point Rat} (hxw : x ≠ w) (hzx : z ≠ x) (hzw : z ≠ w) (hp : Outward x w p)
    (hp' : ¬Outward z x p) (hs : ¬Outward x w s) (hw : ¬Outward z x w) (hz : ¬Outward x w z) (hs' : ¬Outward z x s) :
    ¬Outward x p s := by
  rw [← outward_mirror] at hp hp' hs hw hz hs' ⊢
  exact horizon_empty (mirror_ne hzx.symm) (mirror_ne hxw.symm) (mirror_ne hzw.symm) hp hp' hs hz hw hs'

/-- Two unbounded cells whose regions hold the point, with new ones beside them that keep out each other's
corner: then all that the two keep out is in one line. -/
theorem horizon_unique {b w b' w' p q : Point Rat} (hb : b ≠ b') (hpb : p ≠ b) (hpb' : p ≠ b') (hp : Outward b w p)
    (hp' : Outward b' w' p) (hs : ¬Outward b w b') (hs' : ¬Outward b' w' b) (hn : ¬Outward b p b') (hn' : ¬Outward b' p b)
    (hq : ¬Outward b w q) (hq' : ¬Outward b' w' q) : cross b b' q = 0 := by
  have hflip : cross b' p b = -cross b p b' := by simp only [cross_eq]; ring
  have h0 : cross b p b' = 0 := by
    have h1 : cross b p b' ≤ 0 := not_lt.1 fun h => hn (.inl h)
    have h2 : cross b' p b ≤ 0 := not_lt.1 fun h => hn' (.inl h)
    linarith
  have hline : cross b b' p = 0 := by
    have : cross b b' p = -cross b p b' := cross_swap_last b p b'
    rw [this, h0, neg_zero]
  -- The point lies between the two corners.
  obtain ⟨t, rfl⟩ := exists_along hline hb
  have hl : 0 < dot b b b' := dot_self_pos hb
  have hd : dot b (along b b' t) b' = (1 - t) * dot b b b' := by simp only [dot, along]; ring
  have hd' : dot b' (along b b' t) b = t * dot b b b' := by simp only [dot, along]; ring
  have ht1 : t < 1 := by
    refine lt_of_le_of_ne (le_of_not_gt fun h => hn (.inr ⟨h0, ?_⟩)) fun h => hpb' (by simp [along, h])
    rw [hd]
    exact mul_neg_of_neg_of_pos (by linarith) hl
  have ht0 : 0 < t := by
    refine lt_of_le_of_ne (le_of_not_gt fun h => hn' (.inr ⟨by rw [hflip, h0, neg_zero], ?_⟩)) fun h => hpb (by simp [along, ← h])
    rw [hd']
    exact mul_neg_of_neg_of_pos h hl
  -- From each corner the cell's side goes through the point and past it.
  have hcone : ∀ {b b' w : Point Rat} {t : Rat}, b ≠ b' → 0 < t → Outward b w (along b b' t) → ¬Outward b w b' →
      ¬Outward b w q → cross b b' q ≤ 0 := by
    intro b b' w t hb ht hp hs hq
    have hq0 : cross b w q ≤ 0 := not_lt.1 fun h => hq (.inl h)
    have hs0 : cross b w b' ≤ 0 := not_lt.1 fun h => hs (.inl h)
    have hscale : cross b w (along b b' t) = t * cross b w b' := by rw [cross_along, cross_self_left]; ring
    rw [Outward, hscale] at hp
    obtain ⟨hz, hneg⟩ := hp.resolve_left (not_lt.2 (mul_nonpos_of_nonneg_of_nonpos ht.le hs0))
    have hz' : cross b w b' = 0 := (mul_eq_zero.1 hz).resolve_left ht.ne'
    obtain ⟨u, hu0, hu1, hu⟩ := exists_along_of_dot_neg (hscale.trans hz) hneg
    have hx : t * (b'.x - b.x) = u * (w.x - b.x) := by simpa [along] using congrArg Point.x hu
    have hy : t * (b'.y - b.y) = u * (w.y - b.y) := by simpa [along] using congrArg Point.y hu
    have hprop : t * cross b b' q = u * cross b w q := by
      rw [cross_eq, cross_eq]
      linear_combination (q.y - b.y) * hx - (q.x - b.x) * hy
    by_contra hpos
    linarith [mul_pos ht (not_le.1 hpos), mul_nonneg hu0.le (neg_nonneg.2 hq0)]
  have h1 := hcone hb ht0 hp hs hq
  rw [along_swap] at hp'
  have h2 := hcone hb.symm (by linarith : 0 < 1 - t) hp' hs' hq'
  linarith [cross_swap b b' q]

end DelaunaySurface
