import DelaunaySurface.Proofs.Double.Order
import DelaunaySurface.Proofs.Triangulation.Lookups
/-!
# Answers and their reasons

An answer of a locator says something about the point, whatever it is and wherever the search began (`justified_locate`).
Of the numbers no more is used than the laws of order that doubles keep.
-/

namespace DelaunaySurface

open Triangulation (hullEdges_ne_nil inRange_of_build neighbour_lt_of_build size_pos_of_build)

namespace Locator

variable {α : Type} [Scalar α] {t : Triangulation} {s : Samples α} {p : Point α} {l : Locator}

/-! ## The nearest edge -/

/-- Going through a list for the least, with ties and undefined numbers passed over, ends with an entry that no other is
less than. -/
theorem foldl_least (ho : Scalar.LawfulOrder α) {β : Type} (size : β → α) (e : β) (rest : List β) :
    let least := rest.foldl (fun best f => if size f < best.2 then (f, size f) else best) (e, size e)
    least.2 = size least.1 ∧ least.1 ∈ e :: rest ∧ ∀ f ∈ e :: rest, ¬size f < least.2 := by
  induction rest using List.reverseRecOn with
  | nil => exact ⟨rfl, List.mem_singleton_self e, List.forall_mem_singleton.2 (ho.irrefl _)⟩
  | append_singleton rest f ih =>
    obtain ⟨hsize, hmem, hleast⟩ := ih
    rw [List.foldl_append, ← List.cons_append]
    simp only [List.foldl_cons, List.foldl_nil, List.forall_mem_append, List.forall_mem_singleton]
    split
    · rename_i hlt
      refine ⟨rfl, List.mem_append_right _ (List.mem_singleton_self f), fun g hg hgf => ?_, ho.irrefl _⟩
      exact hleast g hg (ho.trans hgf hlt)
    · rename_i hge
      exact ⟨hsize, List.mem_append_left _ hmem, hleast, hge⟩

/-- The square of the distance of a point from an edge. -/
def distanceSq (s : Samples α) (p : Point α) (e : Edge) : α := segmentDistanceSq p (s.point e.low) (s.point e.high)

/-- The edge answered for a point outside is one of the hull, and no other one is nearer. -/
theorem nearest_outside? (ho : Scalar.LawfulOrder α) (h : t.hullEdges ≠ []) :
    ∃ e, outside? t s p = some (.outside e) ∧ e ∈ t.hullEdges ∧ ∀ f ∈ t.hullEdges, ¬distanceSq s p f < distanceSq s p e := by
  rw [outside?, nearestEdge?]
  cases hedges : t.hullEdges with
  | nil => exact absurd hedges h
  | cons e rest =>
    obtain ⟨hsize, hmem, hleast⟩ := foldl_least ho (distanceSq s p) e rest
    exact ⟨_, rfl, hmem, fun f hf => hsize ▸ hleast f hf⟩

/-! ## Reasons -/

/-- A locator answers by a scan if that is its strategy, or if its walk is given up. -/
def Scans (l : Locator) (t : Triangulation) (s : Samples α) (p : Point α) : Prop :=
  l.strategy = .scan ∨ walkFrom t s p (t.size + 1) (start t l.hint) = .givenUp

/-- What an answer says. A triangle has the point beyond none of its sides, unless it comes from a scan that no triangle
passed, and then no side of the hull has the point beyond it. Outside, a side of the hull has the point beyond it, and no
edge of the hull is nearer. -/
def Justified (l : Locator) (t : Triangulation) (s : Samples α) (p : Point α) : Location → Prop
  | .inside i => i < t.size ∧
      ((∀ k, ¬cross (s.point ((t.triangle i).side k).1) (s.point ((t.triangle i).side k).2) p < 0) ∨
        Scans l t s p ∧ (∀ j < t.size, ¬0 ≤ depth t s p j) ∧ ∀ e ∈ t.hullSides, ¬cross (s.point e.1) (s.point e.2) p < 0)
  | .outside e => (∃ e ∈ t.hullSides, cross (s.point e.1) (s.point e.2) p < 0) ∧
      e ∈ t.hullEdges ∧ ∀ f ∈ t.hullEdges, ¬distanceSq s p f < distanceSq s p e

/-- A triangle that passes the test of a scan has the point beyond none of its sides. -/
theorem not_cross_of_depth (ho : Scalar.LawfulOrder α) {i : Nat} (h : 0 ≤ depth t s p i) (k : Fin 3) :
    ¬cross (s.point ((t.triangle i).side k).1) (s.point ((t.triangle i).side k).2) p < 0 := by
  obtain ⟨hfirst, hlast⟩ := ho.not_neg_of_lesser (ho.not_neg h)
  obtain ⟨htwo, hzero⟩ := ho.not_neg_of_lesser hfirst
  rcases Triple.eq_zero_or k with rfl | rfl | rfl
  · exact hzero
  · exact hlast
  · exact htwo

theorem beyondHull_iff_exists : beyondHull t s p = true ↔ ∃ e ∈ t.hullSides, cross (s.point e.1) (s.point e.2) p < 0 := by
  simp only [beyondHull, List.any_eq_true, decide_eq_true_eq]

section

variable {settings : BuildSettings α} (ho : Scalar.LawfulOrder α) (h : Triangulation.build settings s = .ok t)

include ho h

/-- For a point beyond the hull the nearest edge is an answer. -/
theorem justified_outside? (hbeyond : beyondHull t s p = true) : ∃ place, outside? t s p = some place ∧ Justified l t s p place := by
  obtain ⟨e, he, hcross⟩ := beyondHull_iff_exists.1 hbeyond
  obtain ⟨nearest, hanswer, hmem, hleast⟩ :=
    nearest_outside? (s := s) (p := p) ho (hullEdges_ne_nil h (List.ne_nil_of_mem he))
  exact ⟨_, hanswer, ⟨e, he, hcross⟩, hmem, hleast⟩

theorem justified_scan? (hscans : Scans l t s p) : ∃ place, scan? t s p = some place ∧ Justified l t s p place := by
  rw [scan?]
  split
  · rename_i i hholds
    obtain ⟨hmem, hdepth⟩ := scanFrom_holds hholds
    exact ⟨_, rfl, List.mem_range.1 hmem, .inl (not_cross_of_depth ho hdepth)⟩
  · rename_i found hfound
    obtain ⟨hdepth, hseen, hsome⟩ := scanFrom_best hfound
    split
    · exact justified_outside? ho h ‹_›
    · rename_i hbeyond
      have hsize := size_pos_of_build h
      obtain ⟨b, rfl⟩ := Option.isSome_iff_exists.1 (hsome (.inr (by simp; omega)))
      refine ⟨_, rfl, List.mem_range.1 ((hseen b rfl).resolve_left (Option.not_mem_none b)), .inr ⟨hscans, ?_, ?_⟩⟩
      · exact fun j hj => hdepth j (List.mem_range.2 hj)
      · exact fun e he hcross => hbeyond (beyondHull_iff_exists.2 ⟨e, he, hcross⟩)

theorem justified_walk? (l : Locator) : ∃ place, (l.walk? t s p).1 = some place ∧ Justified l t s p place := by
  have hfits := walkFrom_fits (s := s) (p := p) (neighbour_lt_of_build h) (t.size + 1) (start_lt (size_pos_of_build h) l.hint)
  rw [walk?_fst]
  split
  · rename_i i hend
    rw [hend] at hfits
    exact ⟨_, rfl, hfits.1, .inl (not_cross_of_exit? hfits.2)⟩
  · rename_i i hend
    rw [hend] at hfits
    obtain ⟨hi, k, hexit, hnone⟩ := hfits
    exact justified_outside? ho h (beyond_of_left h hi hexit hnone).1
  · exact justified_scan? ho h (.inr ‹_›)

/-- Every point gets an answer, and a reason for it, from a locator of any strategy and hint. -/
theorem exists_justified (l : Locator) (p : Point α) : ∃ place, (l.locate? t s p).1 = some place ∧ Justified l t s p place := by
  rw [locate?_fst, search?]
  cases hstrategy : l.strategy with
  | walk => exact justified_walk? ho h l
  | scan => exact justified_scan? ho h (.inl hstrategy)

end

/-- On a build a locator of any strategy looks up what there is, wherever it starts and whatever the point is, infinite and
undefined coordinates included, and its answer has its reason. -/
theorem justified_locate {settings : BuildSettings Float} {s : Samples Float} (h : Triangulation.build settings s = .ok t)
    (l : Locator) (p : Point Float) : ∃ place after, l.locate? t s p = (some place, after) ∧
      Checked.locate? t s p l = some (place, after) ∧ Justified l t s p place := by
  obtain ⟨place, hplace, hjustified⟩ := exists_justified Double.lawful_float h l p
  refine ⟨place, _, Prod.ext hplace rfl, ?_, hjustified⟩
  rw [Checked.locate?_eq (inRange_of_build h), hplace]
  rfl

/-- A hint past the end and an undefined point: nothing is beyond anything, and the walk arrives at once. -/
theorem justified_locate_dented : Triangulation.build .standard Triangulation.dented = .ok Triangulation.dentedTables ∧
    Justified (fresh .walk (some 7)) Triangulation.dentedTables Triangulation.dented ⟨Scalar.undefined, 0⟩ (.inside 0) := by
  obtain ⟨place, after, hplace, -, hjustified⟩ :=
    justified_locate Triangulation.build_dented (fresh .walk (some 7)) ⟨Scalar.undefined, 0⟩
  have harrived : ((fresh .walk (some 7)).locate? Triangulation.dentedTables Triangulation.dented ⟨Scalar.undefined, 0⟩).1 =
      some (.inside 0) := by decide +kernel
  rw [hplace] at harrived
  cases harrived
  exact ⟨Triangulation.build_dented, hjustified⟩

end Locator

end DelaunaySurface
