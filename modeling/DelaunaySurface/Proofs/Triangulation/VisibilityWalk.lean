import DelaunaySurface.Proofs.Plane.Power
import DelaunaySurface.Proofs.Triangulation.Engines
/-!
# Walks through a Delaunay triangulation

Over exact numbers a walk through triangles that keep out of their neighbours' circles visits no triangle twice
(`walk_of_locallyDelaunay`), so it is never given up. The power of the point does not grow from one triangle to the next. Where it
stays the same the two triangles have one circle; and among the triangles of one circle the walk leaves the corner that
it turned its back on first on the far side of every edge it crosses.
-/

namespace DelaunaySurface

open Triple (next previous)

/-! ## Triangles and powers -/

namespace Triangle

variable {c : Triangle} {s : Samples Rat} {p z : Point Rat}

/-- The corners turn to the left. -/
def IsLeft (c : Triangle) (s : Samples Rat) : Prop :=
  0 < cross (s.point c.fst) (s.point c.snd) (s.point c.trd)

/-- The power of a point with respect to the circle through the corners. -/
def power (c : Triangle) (s : Samples Rat) (p : Point Rat) : Rat :=
  DelaunaySurface.power (s.point c.fst) (s.point c.snd) (s.point c.trd) p

/-- Any side will do as the first. -/
theorem power_eq (c : Triangle) (s : Samples Rat) (k : Fin 3) (p : Point Rat) :
    c.power s p = DelaunaySurface.power (s.point (c.side k).1) (s.point (c.side k).2) (s.point (c.get k)) p := by
  rcases Triple.eq_zero_or k with rfl | rfl | rfl
  · exact (power_rotate _ _ _ _).symm
  · exact ((power_rotate _ _ _ _).trans (power_rotate _ _ _ _)).symm
  · rfl

theorem IsLeft.sideCross_pos (h : c.IsLeft s) (k : Fin 3) : 0 < c.sideCross s k (s.point (c.get k)) := by
  rcases Triple.eq_zero_or k with rfl | rfl | rfl
  · exact h.trans_eq (cross_rotate _ _ _).symm
  · exact h.trans_eq ((cross_rotate _ _ _).trans (cross_rotate _ _ _)).symm
  · exact h

/-- No corner is beyond a side. -/
theorem IsLeft.sideCross_nonneg (h : c.IsLeft s) (k j : Fin 3) : 0 ≤ c.sideCross s k (s.point (c.get j)) := by
  rcases Triple.eq_or_next_or_previous j k with rfl | rfl | rfl
  · exact (h.sideCross_pos j).le
  · exact (cross_self_left _ _).ge
  · exact (cross_self_right _ _).ge

theorem power_corner (c : Triangle) (s : Samples Rat) (j : Fin 3) : c.power s (s.point (c.get j)) = 0 := by
  rw [c.power_eq s (previous j), side, Triple.next_previous]
  exact power_self_left _ _ _

/-- A point of the circle beyond one side is on the inner side of the others. -/
theorem IsLeft.sideCross_pos_of_beyond (h : c.IsLeft s) (hz : c.power s z = 0) {k l : Fin 3} (hl : c.sideCross s l z < 0)
    (hne : k ≠ l) : 0 < c.sideCross s k z := by
  rw [c.power_eq s l] at hz
  have hpos := cross_pos_of_beyond (h.sideCross_pos l) hz hl
  rcases (Triple.eq_or_next_or_previous k l).resolve_left hne with rfl | rfl
  · rw [sideCross, side, Triple.next_next, Triple.previous_next]
    exact hpos.1
  · rw [sideCross, side, Triple.next_previous, Triple.previous_previous]
    exact hpos.2

end Triangle

/-! ## The walk as a relation -/

namespace Locator

section

variable {α : Type} [Scalar α] (t : Triangulation) (s : Samples α) (p : Point α)

/-- The triangle that a walk goes to next. -/
def next? (i : Nat) : Option Nat := (exit? t s p i).bind (t.neighbour? i)

/-- A walk goes from the first triangle to the second. -/
def Step (i j : Nat) : Prop := next? t s p i = some j

/-- The triangles that a walk from `i` visits, at most `steps` of them. -/
def trail : Nat → Nat → List Nat
  | 0, _ => []
  | steps + 1, i => i :: match next? t s p i with
    | some j => trail steps j
    | none => []

variable {t s p} {i j steps : Nat}

theorem step_iff : Step t s p i j ↔ ∃ k, exit? t s p i = some k ∧ t.neighbour? i k = some j :=
  Option.bind_eq_some_iff

theorem mem_trail (h : j ∈ trail t s p steps i) : Relation.ReflTransGen (Step t s p) i j := by
  induction steps generalizing i with
  | zero => cases h
  | succ steps ih =>
    rw [trail, List.mem_cons] at h
    rcases h with rfl | h
    · exact .refl
    · split at h
      · exact .head ‹_› (ih h)
      · cases h

/-- A walk ends in the last triangle of its trail. -/
theorem getLast?_trail (h : walkFrom t s p steps i = .arrived j ∨ walkFrom t s p steps i = .left j) :
    (trail t s p steps i).getLast? = some j := by
  induction steps generalizing i with
  | zero => exact h.elim nofun nofun
  | succ steps ih =>
    rw [walkFrom] at h
    split at h
    · rename_i hexit
      have hnext : next? t s p i = none := by rw [next?, hexit, Option.bind_none]
      rw [trail, hnext]
      rcases h with h | h <;> cases h
      rfl
    · rename_i k hexit
      split at h
      · rename_i m hm
        have hnext : next? t s p i = some m := step_iff.2 ⟨k, hexit, hm⟩
        rw [trail, hnext, List.getLast?_cons, ih h, Option.getD_some]
      · rename_i hnone
        have hnext : next? t s p i = none := by rw [next?, hexit, Option.bind_some, hnone]
        rw [trail, hnext]
        rcases h with h | h <;> cases h
        rfl

/-- A walk that is given up would have gone on. -/
theorem length_trail_of_givenUp (h : walkFrom t s p steps i = .givenUp) :
    (trail t s p (steps + 1) i).length = steps + 1 := by
  induction steps generalizing i with
  | zero =>
    rw [trail]
    cases next? t s p i <;> rfl
  | succ steps ih =>
    rw [walkFrom] at h
    split at h
    · cases h
    · rename_i k hk
      split at h
      · rename_i j hj
        have hnext : next? t s p i = some j := step_iff.2 ⟨k, hk, hj⟩
        rw [trail, hnext, List.length_cons, ih h]
      · cases h

/-- Without cycles among its steps a walk visits no triangle twice, -/
theorem nodup_trail_of_acyclic (hacyclic : ∀ j, Relation.ReflTransGen (Step t s p) i j → ¬Relation.TransGen (Step t s p) j j) :
    (trail t s p steps i).Nodup := by
  induction steps generalizing i with
  | zero => exact List.nodup_nil
  | succ steps ih =>
    rw [trail]
    cases hnext : next? t s p i with
    | none => exact List.nodup_singleton i
    | some j =>
      have hstep : Step t s p i j := hnext
      refine List.nodup_cons.2 ⟨fun hi => ?_, ih fun k hk => hacyclic k (.head hstep hk)⟩
      exact hacyclic i .refl (.head' hstep (mem_trail hi))

/-- and so it ends within as many steps as there are triangles. -/
theorem walkFrom_ne_givenUp (hlt : ∀ j, Relation.ReflTransGen (Step t s p) i j → j < t.size)
    (hnodup : ∀ steps, (trail t s p steps i).Nodup) (hsteps : t.size ≤ steps) : walkFrom t s p steps i ≠ .givenUp := by
  intro h
  have hle := (List.subperm_of_subset (hnodup (steps + 1)) fun j hj => List.mem_range.2 (hlt j (mem_trail hj))).length_le
  rw [length_trail_of_givenUp h, List.length_range] at hle
  omega

/-- Remembering the answer leaves the count of scans as the search left it. -/
theorem fallbacks_locate? (l : Locator) : (l.locate? t s p).2.fallbacks = (l.search? t s p).2.fallbacks := by
  rw [locate?, search?]
  dsimp only
  split <;> rfl

end

end Locator

/-! ## Locally Delaunay triangulations -/

/-- The triangles are counter-clockwise, and what lies across a side is a triangle with the same side the other way round,
whose opposite corner is not inside the circle. It may be on the circle. That neighbours lead back is not asked. -/
structure Triangulation.LocallyDelaunay (t : Triangulation) (s : Samples Rat) : Prop where
  turn : ∀ i < t.size, (t.triangle i).IsLeft s
  across : ∀ i < t.size, ∀ k j, t.neighbour? i k = some j → j < t.size ∧
    ∃ l, (t.triangle j).side l = ((t.triangle i).side k).swap ∧
      ¬InDisk (s.point (t.triangle i).fst) (s.point (t.triangle i).snd) (s.point (t.triangle i).trd)
        (s.point ((t.triangle j).get l))

namespace Locator

variable {t : Triangulation} {s : Samples Rat} {p z : Point Rat} {i j : Nat}

/-- What a step does: it crosses a side of the first triangle that has the point beyond it. -/
structure Crossing (t : Triangulation) (s : Samples Rat) (p : Point Rat) (i j : Nat) (k l : Fin 3) : Prop where
  lt : j < t.size
  side : (t.triangle j).side l = ((t.triangle i).side k).swap
  beyond : (t.triangle i).sideCross s k p < 0
  outside : 0 ≤ (t.triangle i).power s (s.point ((t.triangle j).get l))

theorem crossing_of_exit? (h : t.LocallyDelaunay s) (hi : i < t.size) {k : Fin 3} (hk : exit? t s p i = some k)
    (hj : t.neighbour? i k = some j) : ∃ l, Crossing t s p i j k l := by
  obtain ⟨hlt, l, hside, hempty⟩ := h.across i hi k j hj
  exact ⟨l, hlt, hside, cross_of_exit? hk, (power_nonneg_iff (h.turn i hi)).2 hempty⟩

theorem crossing_of_step (h : t.LocallyDelaunay s) (hi : i < t.size) (hstep : Step t s p i j) :
    ∃ k l, Crossing t s p i j k l := by
  obtain ⟨k, hk, hj⟩ := step_iff.1 hstep
  exact ⟨k, crossing_of_exit? h hi hk hj⟩

namespace Crossing

variable {k l : Fin 3}

/-- The common side, seen from the other triangle. -/
theorem sideCross_neg (h : Crossing t s p i j k l) (q : Point Rat) :
    (t.triangle j).sideCross s l q = -(t.triangle i).sideCross s k q := by
  rw [Triangle.sideCross, h.side]
  exact cross_swap _ _ _

/-- How the power changes. -/
theorem power_sub (h : Crossing t s p i j k l) (hi : (t.triangle i).IsLeft s) (hj : (t.triangle j).IsLeft s) (q : Point Rat) :
    ((t.triangle i).power s q - (t.triangle j).power s q) * (t.triangle j).sideCross s l (s.point ((t.triangle j).get l)) =
      (t.triangle i).power s (s.point ((t.triangle j).get l)) * (t.triangle j).sideCross s l q := by
  have hpos := hj.sideCross_pos l
  rw [(t.triangle i).power_eq s k, (t.triangle j).power_eq s l, (t.triangle i).power_eq s k, Triangle.sideCross,
    Triangle.sideCross]
  rw [Triangle.sideCross] at hpos
  rw [h.side] at hpos ⊢
  exact power_exchange (hi.sideCross_pos k).ne' hpos.ne' q

/-- The power of the point does not grow. -/
theorem power_le (h : Crossing t s p i j k l) (hi : (t.triangle i).IsLeft s) (hj : (t.triangle j).IsLeft s) :
    (t.triangle j).power s p ≤ (t.triangle i).power s p := by
  have hin : 0 ≤ (t.triangle j).sideCross s l p := by
    rw [h.sideCross_neg]
    exact (neg_pos.2 h.beyond).le
  refine sub_nonneg.1 (nonneg_of_mul_nonneg_left ?_ (hj.sideCross_pos l))
  rw [h.power_sub hi hj]
  exact mul_nonneg h.outside hin

/-- Where the power of the point stays, the circle does. -/
theorem power_eq_of_eq (h : Crossing t s p i j k l) (hi : (t.triangle i).IsLeft s) (hj : (t.triangle j).IsLeft s)
    (heq : (t.triangle j).power s p = (t.triangle i).power s p) (q : Point Rat) :
    (t.triangle j).power s q = (t.triangle i).power s q := by
  have hin : (t.triangle j).sideCross s l p ≠ 0 := by
    rw [h.sideCross_neg]
    exact neg_ne_zero.2 h.beyond.ne
  have hzero : (t.triangle i).power s (s.point ((t.triangle j).get l)) = 0 := by
    have hsub := h.power_sub hi hj p
    rw [heq, sub_self, zero_mul] at hsub
    exact (mul_eq_zero.1 hsub.symm).resolve_right hin
  have hsub := h.power_sub hi hj q
  rw [hzero, zero_mul] at hsub
  exact (sub_eq_zero.1 ((mul_eq_zero.1 hsub).resolve_right (hj.sideCross_pos l).ne')).symm

end Crossing

/-! ## No walk comes back -/

theorem lt_of_path (h : t.LocallyDelaunay s) (hi : i < t.size) (hpath : Relation.ReflTransGen (Step t s p) i j) : j < t.size := by
  induction hpath with
  | refl => exact hi
  | tail _ hstep ih =>
    obtain ⟨k, l, hcross⟩ := crossing_of_step h ih hstep
    exact hcross.lt

theorem power_le_of_path (h : t.LocallyDelaunay s) (hi : i < t.size) (hpath : Relation.ReflTransGen (Step t s p) i j) :
    (t.triangle j).power s p ≤ (t.triangle i).power s p := by
  induction hpath with
  | refl => exact le_rfl
  | tail hpath hstep ih =>
    have hlt := lt_of_path h hi hpath
    obtain ⟨k, l, hcross⟩ := crossing_of_step h hlt hstep
    exact (hcross.power_le (h.turn _ hlt) (h.turn _ hcross.lt)).trans ih

/-- The point `z` was left behind at triangle `j`: one of its sides has `z` beyond it, and not the point of the walk. -/
def Behind (t : Triangulation) (s : Samples Rat) (p z : Point Rat) (j : Nat) : Prop :=
  ∃ l, 0 < (t.triangle j).sideCross s l p ∧ (t.triangle j).sideCross s l z < 0

/-- A walk that comes back to `i` has stayed on one circle, and the corner opposite its first exit stays behind. -/
theorem behind_of_path (h : t.LocallyDelaunay s) (hi : i < t.size) {k : Fin 3} (hk : exit? t s p i = some k)
    (hpath : Relation.TransGen (Step t s p) i j) (hback : Relation.ReflTransGen (Step t s p) j i) :
    (∀ q, (t.triangle j).power s q = (t.triangle i).power s q) ∧ Behind t s p (s.point ((t.triangle i).get k)) j := by
  induction hpath with
  | single hstep =>
    obtain ⟨k', hk', hj⟩ := step_iff.1 hstep
    cases hk.symm.trans hk'
    obtain ⟨l, hcross⟩ := crossing_of_exit? h hi hk hj
    have heq := le_antisymm (power_le_of_path h hi (.single hstep)) (power_le_of_path h hcross.lt hback)
    refine ⟨hcross.power_eq_of_eq (h.turn i hi) (h.turn _ hcross.lt) heq, l, ?_, ?_⟩
    · rw [hcross.sideCross_neg]
      exact neg_pos.2 hcross.beyond
    · rw [hcross.sideCross_neg]
      exact neg_lt_zero.2 ((h.turn i hi).sideCross_pos k)
  | @tail b c hpath hstep ih =>
    obtain ⟨hcircle, l, hp, hz⟩ := ih (.head hstep hback)
    have hb := lt_of_path h hi hpath.to_reflTransGen
    obtain ⟨k', l', hcross⟩ := crossing_of_step h hb hstep
    have heq := le_antisymm (power_le_of_path h hb (.single hstep))
      (power_le_of_path h hcross.lt (hback.trans hpath.to_reflTransGen))
    -- The walk does not leave by the side that it came in by.
    have hne : k' ≠ l := fun e => hcross.beyond.not_gt (e ▸ hp)
    have hzero : (t.triangle b).power s (s.point ((t.triangle i).get k)) = 0 := by
      rw [hcircle, Triangle.power_corner]
    refine ⟨fun q => ?_, l', ?_, ?_⟩
    · rw [hcross.power_eq_of_eq (h.turn b hb) (h.turn c hcross.lt) heq, hcircle]
    · rw [hcross.sideCross_neg]
      exact neg_pos.2 hcross.beyond
    · rw [hcross.sideCross_neg]
      exact neg_lt_zero.2 ((h.turn b hb).sideCross_pos_of_beyond hzero hz hne)

/-- No walk comes back to where it was. -/
theorem not_transGen_self (h : t.LocallyDelaunay s) (hi : i < t.size) : ¬Relation.TransGen (Step t s p) i i := by
  intro hpath
  obtain ⟨j, hstep, -⟩ := Relation.TransGen.head'_iff.1 hpath
  obtain ⟨k, hk, -⟩ := step_iff.1 hstep
  obtain ⟨-, l, -, hz⟩ := behind_of_path h hi hk hpath .refl
  exact hz.not_ge ((h.turn i hi).sideCross_nonneg l k)

/-- A walk visits no triangle twice, so it ends within as many steps as there are triangles. -/
theorem walk_ends (h : t.LocallyDelaunay s) (p : Point Rat) (hi : i < t.size) :
    (∀ steps, (trail t s p steps i).Nodup) ∧ ∀ steps ≥ t.size, walkFrom t s p steps i ≠ .givenUp := by
  have hnodup : ∀ steps, (trail t s p steps i).Nodup := fun steps =>
    nodup_trail_of_acyclic fun j hj => not_transGen_self h (lt_of_path h hi hj)
  exact ⟨hnodup, fun steps hsteps => walkFrom_ne_givenUp (fun j => lt_of_path h hi) hnodup hsteps⟩

/-- What a walk that is not given up makes of a locator: it answers by where the walk ends, and counts no scan. -/
theorem locate?_of_ends {l : Locator} (hl : l.strategy = .walk) (hstart : start t l.hint < t.size)
    (ht : ∀ {i j k}, i < t.size → t.neighbour? i k = some j → j < t.size)
    (hends : walkFrom t s p (t.size + 1) (start t l.hint) ≠ .givenUp) :
    (l.locate? t s p).2.fallbacks = l.fallbacks ∧
      ((∃ j < t.size, exit? t s p j = none ∧ (l.locate? t s p).1 = some (.inside j)) ∨
        ∃ j < t.size, ∃ k, exit? t s p j = some k ∧ t.neighbour? j k = none ∧ (l.locate? t s p).1 = outside? t s p) := by
  have hfits := walkFrom_fits (s := s) (p := p) ht (t.size + 1) hstart
  have hsearch : l.search? t s p = l.walk? t s p := by rw [search?, hl]
  refine ⟨?_, ?_⟩
  · rw [fallbacks_locate?, hsearch, walk?]
    split
    · rfl
    · rfl
    · exact absurd ‹_› hends
  · rw [locate?_fst, hsearch, walk?_fst]
    split
    · rename_i j hj
      rw [hj] at hfits
      exact .inl ⟨j, hfits.1, hfits.2, rfl⟩
    · rename_i j hj
      rw [hj] at hfits
      obtain ⟨hlt, k, hexit, hnone⟩ := hfits
      exact .inr ⟨j, hlt, k, hexit, hnone, rfl⟩
    · exact absurd ‹_› hends

/-- A walk through a locally Delaunay triangulation, from any triangle toward any point, visits no triangle twice and ends
within as many steps as there are triangles, in the last one it visits. So a locator that walks answers by where its walk
ends, whatever its hint is, and never has to scan. -/
theorem walk_of_locallyDelaunay (h : t.LocallyDelaunay s) (p : Point Rat) (hi : i < t.size) :
    (∀ steps, (trail t s p steps i).Nodup) ∧ walkFrom t s p t.size i ≠ .givenUp ∧
      (∀ j, walkFrom t s p t.size i = .arrived j ∨ walkFrom t s p t.size i = .left j →
        (trail t s p t.size i).getLast? = some j) ∧
      ∀ l : Locator, l.strategy = .walk → (l.locate? t s p).2.fallbacks = l.fallbacks ∧
        ((∃ j < t.size, exit? t s p j = none ∧ (l.locate? t s p).1 = some (.inside j)) ∨
          ∃ j < t.size, ∃ k, exit? t s p j = some k ∧ t.neighbour? j k = none ∧ (l.locate? t s p).1 = outside? t s p) := by
  obtain ⟨hnodup, hends⟩ := walk_ends h p hi
  refine ⟨hnodup, hends _ le_rfl, fun j => getLast?_trail, fun l hl => ?_⟩
  have hstart := start_lt (Nat.zero_lt_of_lt hi) l.hint
  exact locate?_of_ends hl hstart (fun hi hn => (h.across _ hi _ _ hn).1) ((walk_ends h p hstart).2 _ (Nat.le_succ _))

end Locator

/-! ## Exact builds -/

namespace Triangulation

/-- Without tolerance a build is Delaunay all over, so it is locally. -/
theorem locallyDelaunay_of_build {t : Triangulation} {s : Samples Rat} {budget : Nat}
    (h : build ⟨budget, ⟨0⟩⟩ s = .ok t) : t.LocallyDelaunay s := by
  have hsheet := sheet_of_build h
  have hempty : t.EmptyCircles s := by
    obtain ⟨m, hm, rfl⟩ := build_eq_ok.1 h
    obtain ⟨sites, hdelaunay, hperm⟩ := delaunay_of_mesh hm
    exact emptyCircles_ofMesh hdelaunay fun i hi => hperm.mem_iff.2 (List.mem_range.2 hi)
  refine ⟨fun i hi => hempty.turn hi, fun i hi k j hj => ?_⟩
  obtain ⟨hlt, -, l, hside⟩ := ((coherent_of_build h).neighbour_iff i k j hi).1 hj
  refine ⟨hlt, l, hside, fun hin => ?_⟩
  exact ((inDisk_iff (hempty.turn hi).ne').1 hin).not_ge
    (mul_nonpos_of_nonneg_of_nonpos (hempty.turn hi).le (hempty.inCircle_le hi (hsheet.corner j hlt l)))

end Triangulation

theorem Locator.walk_of_locallyDelaunay_kite : ∃ t, Triangulation.build ⟨100, ⟨0⟩⟩ Triangulation.kite = .ok t ∧
    t.LocallyDelaunay Triangulation.kite ∧ 0 < t.size ∧ (trail t Triangulation.kite ⟨1, 1⟩ 100 0).Nodup ∧
    walkFrom t Triangulation.kite ⟨1, 1⟩ t.size 0 ≠ .givenUp := by
  obtain ⟨t, ht⟩ := Triangulation.build_kite
  have hlocal := Triangulation.locallyDelaunay_of_build ht
  have hsize := Triangulation.size_pos_of_build ht
  obtain ⟨hnodup, hends, -⟩ := walk_of_locallyDelaunay hlocal ⟨1, 1⟩ hsize
  exact ⟨t, ht, hlocal, hsize, hnodup 100, hends⟩

end DelaunaySurface
