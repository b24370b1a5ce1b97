import DelaunaySurface.Proofs.Double.Order
import DelaunaySurface.Proofs.Samples.History
import DelaunaySurface.Proofs.Triangulation.Twins
/-!
# The first sample at each place

Duplicates are removed by nested loops that take samples out of the columns they go through. What is left are the samples at
whose place none of the original ones comes before them (`keptFirsts_of_run`). The loops compare with the samples that are still
there only; but one that was taken out had the place of one that stays, so nothing is missed as long as equality of numbers is
symmetric and transitive. It need not be reflexive: a sample with an undefined coordinate is at no place, not even its own.
-/

namespace DelaunaySurface

variable {α : Type} [Scalar α]

namespace Point

variable {p q r : Point α}

theorem same_comm (h : Scalar.LawfulEquality α) (p q : Point α) : p.same q = q.same p := by
  have hsymm : ∀ {p q : Point α}, p.same q = true → q.same p = true := fun hpq => by
    rw [same, Bool.and_eq_true] at hpq ⊢
    exact ⟨h.symm hpq.1, h.symm hpq.2⟩
  exact Bool.eq_iff_iff.2 ⟨hsymm, hsymm⟩

theorem same_trans (h : Scalar.LawfulEquality α) (hpq : p.same q = true) (hqr : q.same r = true) : p.same r = true := by
  rw [same, Bool.and_eq_true] at hpq hqr ⊢
  exact ⟨h.trans hpq.1 hqr.1, h.trans hpq.2 hqr.2⟩

end Point

namespace Samples

variable {kept l : List (Sample α)} {s : Samples α}

/-! ## Lists -/

/-- The last sample stays when none that stays is at its place. -/
theorem keepFirst_concat (kept l : List (Sample α)) (p : Sample α) : keepFirst kept (l ++ [p]) =
    if (keepFirst kept l).any fun q => p.point.same q.point then keepFirst kept l else keepFirst kept l ++ [p] := by
  induction l generalizing kept with
  | nil => rfl
  | cons q l ih =>
    rw [List.cons_append, keepFirst, keepFirst]
    split
    · exact ih kept
    · exact ih (kept ++ [q])

/-- A place is that of a sample that stays if it is that of any. -/
theorem any_keepFirst (h : Scalar.LawfulEquality α) (p : Point α) (kept l : List (Sample α)) :
    ((keepFirst kept l).any fun q => p.same q.point) = (kept ++ l).any fun q => p.same q.point := by
  induction l generalizing kept with
  | nil => rw [keepFirst, List.append_nil]
  | cons q l ih =>
    rw [keepFirst]
    split
    · rename_i hany
      obtain ⟨k, hk, hqk⟩ := List.any_eq_true.1 hany
      have hbefore : p.same q.point = true → (kept.any fun q => p.same q.point) = true := fun hpq =>
        List.any_eq_true.2 ⟨k, hk, Point.same_trans h hpq hqk⟩
      rw [ih kept, List.any_append, List.any_append, List.any_cons]
      cases hpq : p.same q.point with
      | false => rw [Bool.false_or]
      | true => rw [hbefore hpq, Bool.true_or, Bool.true_or]
    · rw [ih (kept ++ [q]), List.append_assoc, List.singleton_append]

/-- Of what stays no sample is at the place of an earlier one. -/
theorem pairwise_keepFirst (h : kept.Pairwise fun q p => p.point.same q.point = false) (l : List (Sample α)) :
    (keepFirst kept l).Pairwise fun q p => p.point.same q.point = false := by
  induction l generalizing kept with
  | nil => exact h
  | cons p l ih =>
    rw [keepFirst]
    split
    · exact ih h
    · rename_i hany
      refine ih (List.pairwise_append.2 ⟨h, List.pairwise_singleton _ p, fun q hq r hr => ?_⟩)
      rw [List.mem_singleton.1 hr]
      exact Bool.eq_false_iff.2 fun hpq => hany (List.any_eq_true.2 ⟨q, hq, hpq⟩)

/-- Nothing is taken out of a list without such a sample. -/
theorem keepFirst_eq_append (h : (kept ++ l).Pairwise fun q p => p.point.same q.point = false) : keepFirst kept l = kept ++ l := by
  induction l generalizing kept with
  | nil => rw [keepFirst, List.append_nil]
  | cons p l ih =>
    have hany : ¬(kept.any fun q => p.point.same q.point) = true := by
      rw [List.any_eq_true]
      rintro ⟨q, hq, hpq⟩
      exact Bool.eq_false_iff.1 ((List.pairwise_append.1 h).2.2 q hq p List.mem_cons_self) hpq
    rw [List.append_cons] at h
    rw [keepFirst, if_neg hany, ih h, List.append_assoc, List.singleton_append]

/-! ## Indices -/

/-- No earlier sample is at the place of sample `j`. -/
def IsFirst (s : Samples α) (j : Nat) : Prop := ∀ i < j, ¬(s.point i).same (s.point j) = true

instance (s : Samples α) (j : Nat) : Decidable (s.IsFirst j) :=
  inferInstanceAs (Decidable (∀ i < j, ¬(s.point i).same (s.point j) = true))

/-- The indices of the samples at whose place no earlier one is. -/
def firstIndices (s : Samples α) : List Nat := (List.range s.size).filter fun j => s.IsFirst j

theorem point_eq_getElem {i : Nat} (hi : i < s.toList.length) : s.point i = s.toList[i].point := by
  have hsize : i < s.size := s.length_toList ▸ hi
  have hx : i < s.xs.size := hsize
  have hy : i < s.ys.size := s.ys_size.symm ▸ hx
  rw [getElem_toList hi, point, Array.getD_eq_getD_getElem?, Array.getD_eq_getD_getElem?, Array.getElem?_eq_getElem hx,
    Array.getElem?_eq_getElem hy]
  rfl

/-- A sample is the first at its place when it is at the place of none that stays of those before it. -/
theorem any_keepFirst_take (h : Scalar.LawfulEquality α) {m : Nat} (hm : m < s.toList.length) :
    ((keepFirst [] (s.toList.take m)).any fun q => s.toList[m].point.same q.point) = true ↔ ¬s.IsFirst m := by
  rw [any_keepFirst h, List.nil_append, List.any_eq_true, IsFirst]
  simp only [not_forall, not_not]
  constructor
  · rintro ⟨q, hq, hsame⟩
    obtain ⟨i, hi, rfl⟩ := List.mem_take_iff_getElem.1 hq
    refine ⟨i, by omega, ?_⟩
    rw [point_eq_getElem (by omega : i < s.toList.length), point_eq_getElem hm, Point.same_comm h]
    exact hsame
  · rintro ⟨i, hi, hsame⟩
    rw [point_eq_getElem (hi.trans hm), point_eq_getElem hm, Point.same_comm h] at hsame
    exact ⟨_, List.mem_take_iff_getElem.2 ⟨i, by omega, rfl⟩, hsame⟩

/-- What stays of the first `m` samples. -/
theorem keepFirst_take (h : Scalar.LawfulEquality α) {m : Nat} (hm : m ≤ s.toList.length) :
    (keepFirst [] (s.toList.take m)).map some =
      ((List.range m).filter fun j => s.IsFirst j).map s.get? := by
  induction m with
  | zero => rfl
  | succ m ih =>
    have hlt : m < s.toList.length := hm
    have hlast : s.get? m = some s.toList[m] := by rw [← getElem?_toList, List.getElem?_eq_getElem hlt]
    rw [List.take_succ_eq_append_getElem hlt, keepFirst_concat, List.range_succ, List.filter_append, List.map_append,
      ← ih (Nat.le_of_lt hlt)]
    split
    · rename_i hany
      have hlater : ¬s.IsFirst m := (any_keepFirst_take h hlt).1 hany
      rw [List.filter_cons_of_neg (by simpa using hlater), List.filter_nil, List.map_nil, List.append_nil]
    · rename_i hany
      have hfirst : s.IsFirst m := not_not.1 (mt (any_keepFirst_take h hlt).2 hany)
      rw [List.filter_cons_of_pos (by simpa using hfirst), List.filter_nil, List.map_append, List.map_singleton,
        List.map_singleton, hlast]

theorem toList_removeDuplicates_firsts (h : Scalar.LawfulEquality α) (s : Samples α) :
    s.removeDuplicates.toList.map some = s.firstIndices.map s.get? := by
  have htake := keepFirst_take h (Nat.le_refl s.toList.length)
  rw [List.take_length, s.length_toList] at htake
  rw [toList_removeDuplicates, htake, firstIndices]

theorem pairwise_removeDuplicates (s : Samples α) :
    s.removeDuplicates.toList.Pairwise fun q p => p.point.same q.point = false := by
  rw [toList_removeDuplicates]
  exact pairwise_keepFirst .nil s.toList

theorem removeDuplicates_removeDuplicates (s : Samples α) : s.removeDuplicates.removeDuplicates = s.removeDuplicates := by
  apply toList_injective
  rw [toList_removeDuplicates s.removeDuplicates]
  exact keepFirst_eq_append (pairwise_removeDuplicates s)

theorem mem_of_mem_removeDuplicates (h : Scalar.LawfulEquality α) {p : Sample α} (hp : p ∈ s.removeDuplicates.toList) :
    p ∈ s.toList := by
  have hmem : some p ∈ s.firstIndices.map s.get? := toList_removeDuplicates_firsts h s ▸ List.mem_map_of_mem hp
  obtain ⟨i, -, hi⟩ := List.mem_map.1 hmem
  rw [← getElem?_toList] at hi
  exact List.mem_of_getElem? hi

end Samples

/-! ## Builds -/

namespace Schedule

variable {s : Samples Float}

theorem notFinite?_eq_none (h : ∀ p ∈ s.toList, p.x.isFinite = true ∧ p.y.isFinite = true) : notFinite? s = none := by
  refine List.find?_eq_none.2 fun i hi => ?_
  have hlength : i < s.toList.length := s.length_toList ▸ List.mem_range.1 hi
  obtain ⟨hx, hy⟩ := h _ (List.getElem_mem hlength)
  have hx' : Scalar.isFinite (s.point i).x = true := Samples.point_eq_getElem hlength ▸ hx
  have hy' : Scalar.isFinite (s.point i).y = true := Samples.point_eq_getElem hlength ▸ hy
  rw [hx', hy']
  decide

/-- No twins are found where no sample is at the place of an earlier one. -/
theorem twins?_eq_none (hfinite : notFinite? s = none) (h : s.toList.Pairwise fun q p => p.point.same q.point = false) :
    twins? s = none := by
  refine Option.eq_none_iff_forall_ne_some.2 fun ⟨i, j⟩ htwins => ?_
  obtain ⟨hij, hj, hsame⟩ := same_of_twins? hfinite htwins
  have hlength : j < s.toList.length := s.length_toList.symm ▸ hj
  rw [Point.same_comm Double.lawfulEquality_float, Samples.point_eq_getElem hlength,
    Samples.point_eq_getElem (hij.trans hlength)] at hsame
  exact Bool.eq_false_iff.1 (List.pairwise_iff_getElem.1 h i j (hij.trans hlength) hlength hij) hsame

theorem validate_ne_duplicate (h : twins? s = none) (i j : Nat) : validate s ≠ .error (.duplicate i j) := by
  intro hdup
  rw [validate, h] at hdup
  split at hdup
  · cases hdup
  · split at hdup <;> cases hdup

end Schedule

namespace Edit

open Triangulation (build)

/-- What removing duplicates leaves of samples. -/
structure KeptFirsts (s t : Samples Float) : Prop where
  /-- The samples at whose place no earlier one was, in their order and with their heights. -/
  firsts : t.toList.map some = s.firstIndices.map s.get?
  /-- Once more changes nothing. -/
  again : run t removeDuplicates = .ok (t, .size t.size)
  /-- Over finite coordinates no build finds two samples at one place. -/
  accepted : (∀ p ∈ s.toList, p.x.isFinite = true ∧ p.y.isFinite = true) →
    ∀ settings i j, build settings t ≠ .error (.duplicate i j)

theorem build_removeDuplicates_ne {s : Samples Float} (h : ∀ p ∈ s.toList, p.x.isFinite = true ∧ p.y.isFinite = true)
    (settings : BuildSettings Float) (i j : Nat) : build settings s.removeDuplicates ≠ .error (.duplicate i j) := by
  have hfinite : Schedule.notFinite? s.removeDuplicates = none :=
    Schedule.notFinite?_eq_none fun p hp => h p (Samples.mem_of_mem_removeDuplicates Double.lawfulEquality_float hp)
  have htwins := Schedule.twins?_eq_none hfinite s.pairwise_removeDuplicates
  intro hbuild
  rcases Triangulation.build_error hbuild with hinvalid | hfailed | ⟨k, hfailed⟩ | hfailed
  · exact Schedule.validate_ne_duplicate htwins i j hinvalid
  all_goals cases hfailed

/-- Removing duplicates keeps the first sample at each place, of any samples, and reports how many there are. -/
theorem keptFirsts_of_run (s : Samples Float) : ∃ t, run s removeDuplicates = .ok (t, .size t.size) ∧ KeptFirsts s t := by
  refine ⟨s.removeDuplicates, run_removeDuplicates s, Samples.toList_removeDuplicates_firsts Double.lawfulEquality_float s, ?_,
    build_removeDuplicates_ne⟩
  rw [run_removeDuplicates, Samples.removeDuplicates_removeDuplicates]

/-- Of the twins that a build does not see, since one has a negative zero, the first one stays. -/
theorem keptFirsts_of_run_signedZeros : ∃ t, run Triangulation.signedZeros removeDuplicates = .ok (t, .size 3) ∧
    t.toList.map some = [some ⟨-0, 1, 0⟩, some ⟨-0, 2, 0⟩, some ⟨1, 0, 0⟩] ∧
    ∀ settings i j, build settings t ≠ .error (.duplicate i j) := by
  obtain ⟨t, hrun, hkept⟩ := keptFirsts_of_run Triangulation.signedZeros
  have hfirsts : Triangulation.signedZeros.firstIndices.map Triangulation.signedZeros.get? =
      [some ⟨-0, 1, 0⟩, some ⟨-0, 2, 0⟩, some ⟨1, 0, 0⟩] := by decide +kernel
  have hfinite : ∀ p ∈ Triangulation.signedZeros.toList, p.x.isFinite = true ∧ p.y.isFinite = true := by decide +kernel
  have hlist := hkept.firsts.trans hfirsts
  have hsize : t.size = 3 := by rw [← t.length_toList, ← List.length_map (f := some), hlist]; rfl
  exact ⟨t, hsize ▸ hrun, hlist, hkept.accepted hfinite⟩

end Edit

end DelaunaySurface
