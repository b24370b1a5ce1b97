import DelaunaySurface.Samples.Edit
/-!
# The list of samples

What each operation does to `toList`, the list of all samples in order. Three columns are the same
thing as one list: a list is known by its columns (`ext_columns`), so each law is checked column by
column.
-/

namespace DelaunaySurface

variable {α : Type}

namespace Sample

/-- Lists of samples with equal columns are equal. -/
theorem ext_columns {l m : List (Sample α)} (hx : l.map (·.x) = m.map (·.x))
    (hy : l.map (·.y) = m.map (·.y)) (hz : l.map (·.z) = m.map (·.z)) : l = m := by
  induction l generalizing m with
  | nil => exact (List.map_eq_nil_iff.1 hx.symm).symm
  | cons p l ih =>
    cases m with
    | nil => simp at hx
    | cons q m =>
      simp only [List.map_cons, List.cons.injEq] at hx hy hz
      obtain ⟨a, b, c⟩ := p
      obtain ⟨a', b', c'⟩ := q
      simp only at hx hy hz
      rw [hx.1, hy.1, hz.1, ih hx.2 hy.2 hz.2]

/-- The sample with the chosen coordinates multiplied. -/
def scale [Scalar α] (p : Sample α) (factor : α) (axes : Axes) : Sample α where
  x := if axes.x then p.x * factor else p.x
  y := if axes.y then p.y * factor else p.y
  z := if axes.z then p.z * factor else p.z

end Sample

namespace Samples

/-! ## Columns and list -/

@[simp] theorem map_x_toList (s : Samples α) : s.toList.map (·.x) = s.xs.toList := by
  apply List.ext_getElem
  · simp [size]
  · intros
    simp only [List.getElem_map, toList, List.getElem_ofFn, get, Array.getElem_toList]
    rfl

@[simp] theorem map_y_toList (s : Samples α) : s.toList.map (·.y) = s.ys.toList := by
  apply List.ext_getElem
  · simp [size, s.ys_size]
  · simp [toList, get]

@[simp] theorem map_z_toList (s : Samples α) : s.toList.map (·.z) = s.zs.toList := by
  apply List.ext_getElem
  · simp [size, s.zs_size]
  · simp [toList, get]

/-- A list is what the columns of `s` spell when its own columns are theirs. -/
theorem toList_eq {s : Samples α} {l : List (Sample α)} (hx : s.xs.toList = l.map (·.x))
    (hy : s.ys.toList = l.map (·.y)) (hz : s.zs.toList = l.map (·.z)) : s.toList = l :=
  Sample.ext_columns (by simpa using hx) (by simpa using hy) (by simpa using hz)

/-- Samples with the same list are the same. -/
theorem toList_injective {s t : Samples α} (h : s.toList = t.toList) : s = t := by
  have hx := congrArg (List.map (·.x)) h
  have hy := congrArg (List.map (·.y)) h
  have hz := congrArg (List.map (·.z)) h
  simp only [map_x_toList, map_y_toList, map_z_toList] at hx hy hz
  obtain ⟨xs, ys, zs, _, _⟩ := s
  obtain ⟨xs', ys', zs', _, _⟩ := t
  simp only [Array.toList_inj] at hx hy hz
  subst hx hy hz
  rfl

@[simp] theorem toList_ofList (l : List (Sample α)) : (ofList l).toList = l :=
  toList_eq rfl rfl rfl

@[simp] theorem ofList_toList (s : Samples α) : ofList s.toList = s :=
  toList_injective (toList_ofList s.toList)

@[simp] theorem getElem?_toList (s : Samples α) (i : Nat) : s.toList[i]? = s.get? i := by
  simp [toList, get?]

/-! ## Edits -/

@[simp] theorem toList_empty : (empty : Samples α).toList = [] := rfl

@[simp] theorem toList_push (s : Samples α) (p : Sample α) : (s.push p).toList = s.toList ++ [p] :=
  toList_eq (by simp [push]) (by simp [push]) (by simp [push])

theorem toList_resizeColumn [Zero α] (column : Array α) (n : Nat) :
    (resizeColumn column n).toList = column.toList.take n ++ List.replicate (n - column.size) 0 := by
  simp [resizeColumn]

/-- A set cut off at `n`, or filled up with samples at the origin. -/
theorem toList_resize [Zero α] (s : Samples α) (n : Nat) :
    (s.resize n).toList = s.toList.take n ++ List.replicate (n - s.size) Sample.zero :=
  toList_eq (by simp [resize, toList_resizeColumn, Sample.zero, size])
    (by simp [resize, toList_resizeColumn, Sample.zero, size, s.ys_size])
    (by simp [resize, toList_resizeColumn, Sample.zero, size, s.zs_size])

theorem toList_set_of_lt [Zero α] {s : Samples α} {i : Nat} (h : i < s.size) (p : Sample α) :
    (s.set i p).toList = s.toList.set i p :=
  toList_eq (by simp [set, h, List.map_set]) (by simp [set, h, List.map_set])
    (by simp [set, h, List.map_set])

/-- Writing the last place of a column that was filled up to hold it. -/
theorem toList_set_resizeColumn [Zero α] {column : Array α} {i : Nat} (h : column.size ≤ i) (a : α) :
    ((resizeColumn column (i + 1)).setIfInBounds i a).toList =
      column.toList ++ List.replicate (i - column.size) 0 ++ [a] := by
  have hs : i + 1 - column.size = (i - column.size) + 1 := by omega
  rw [Array.toList_setIfInBounds, toList_resizeColumn, List.take_of_length_le (by simp; omega), hs,
    List.replicate_succ', ← List.append_assoc,
    List.set_append_right i a (by simp; omega)]
  simp [h]

theorem toList_set_of_le [Zero α] {s : Samples α} {i : Nat} (h : s.size ≤ i) (p : Sample α) :
    (s.set i p).toList = s.toList ++ List.replicate (i - s.size) Sample.zero ++ [p] := by
  have hx : s.xs.size ≤ i := h
  have hy : s.ys.size ≤ i := s.ys_size ▸ h
  have hz : s.zs.size ≤ i := s.zs_size ▸ h
  have grown : (if i < s.size then s else s.resize (i + 1)) = s.resize (i + 1) :=
    if_neg (Nat.not_lt.2 h)
  apply toList_eq
  · change ((if i < s.size then s else s.resize (i + 1)).xs.setIfInBounds i p.x).toList = _
    rw [grown]
    simpa [resize, Sample.zero, size] using toList_set_resizeColumn hx p.x
  · change ((if i < s.size then s else s.resize (i + 1)).ys.setIfInBounds i p.y).toList = _
    rw [grown]
    simpa [resize, Sample.zero, size, s.ys_size] using toList_set_resizeColumn hy p.y
  · change ((if i < s.size then s else s.resize (i + 1)).zs.setIfInBounds i p.z).toList = _
    rw [grown]
    simpa [resize, Sample.zero, size, s.zs_size] using toList_set_resizeColumn hz p.z

/-- Where there is no sample `i` yet, samples at the origin come before it. -/
theorem toList_set [Zero α] (s : Samples α) (i : Nat) (p : Sample α) :
    (s.set i p).toList = (s.toList ++ List.replicate (i + 1 - s.size) Sample.zero).set i p := by
  by_cases h : i < s.size
  · have hnone : i + 1 - s.size = 0 := by omega
    rw [toList_set_of_lt h, hnone, List.replicate_zero, List.append_nil]
  · have hle : s.size ≤ i := Nat.not_lt.1 h
    have hsome : i + 1 - s.size = i - s.size + 1 := by omega
    have hlast : (s.toList ++ List.replicate (i - s.size) Sample.zero).length = i := by
      rw [List.length_append, length_toList, List.length_replicate]
      omega
    rw [toList_set_of_le hle, hsome, List.replicate_succ', ← List.append_assoc,
      List.set_append_right i p (Nat.le_of_eq hlast), hlast, Nat.sub_self, List.set_cons_zero]

theorem toList_eraseIdxIfInBounds (column : Array α) (i : Nat) :
    (column.eraseIdxIfInBounds i).toList = column.toList.eraseIdx i := by
  unfold Array.eraseIdxIfInBounds
  split
  · simp
  · rw [List.eraseIdx_of_length_le]
    simp
    omega

theorem map_eraseIdx {β : Type} (f : α → β) (l : List α) (i : Nat) :
    (l.eraseIdx i).map f = (l.map f).eraseIdx i := by
  simp only [List.eraseIdx_eq_take_drop_succ, List.map_append, List.map_take, List.map_drop]

@[simp] theorem toList_remove (s : Samples α) (i : Nat) : (s.remove i).toList = s.toList.eraseIdx i := by
  apply toList_eq <;> rw [map_eraseIdx]
  · rw [map_x_toList]
    exact toList_eraseIdxIfInBounds s.xs i
  · rw [map_y_toList]
    exact toList_eraseIdxIfInBounds s.ys i
  · rw [map_z_toList]
    exact toList_eraseIdxIfInBounds s.zs i

theorem getElem_toList {s : Samples α} {i : Nat} (h : i < s.toList.length) :
    s.toList[i] = s.get ⟨i, s.length_toList ▸ h⟩ := by
  simp [toList]

/-- From `j` on the samples at a place are taken out, those before stay. -/
theorem toList_removeAt [Scalar α] (s : Samples α) (p : Point α) (j : Nat) :
    (s.removeAt p j).toList = s.toList.take j ++ (s.toList.drop j).filter fun q => !q.point.same p := by
  fun_induction removeAt s p j with
  | case1 s j h hsame ih =>
    have hlength : j < s.toList.length := by simpa using h
    have htake : (s.toList.take j).length = j := List.length_take_of_le (Nat.le_of_lt hlength)
    rw [← getElem_toList hlength] at hsame
    rw [ih, toList_remove, List.eraseIdx_eq_take_drop_succ, List.take_left' htake, List.drop_left' htake,
      List.drop_eq_getElem_cons hlength, List.filter_cons_of_neg (by simp [hsame])]
  | case2 s j h hsame ih =>
    have hlength : j < s.toList.length := by simpa using h
    rw [← getElem_toList hlength] at hsame
    rw [ih, List.drop_eq_getElem_cons hlength, List.filter_cons_of_pos (by simp [hsame]),
      List.take_succ_eq_append_getElem hlength, List.append_assoc, List.singleton_append]
  | case3 s j h =>
    have hlength : s.toList.length ≤ j := by simpa using h
    rw [List.take_of_length_le hlength, List.drop_of_length_le hlength, List.filter_nil, List.append_nil]

/-- The samples of a list whose place none kept before has, appended to those kept. -/
def keepFirst [Scalar α] : List (Sample α) → List (Sample α) → List (Sample α)
  | kept, [] => kept
  | kept, p :: rest =>
    if kept.any fun q => p.point.same q.point then keepFirst kept rest
    else keepFirst (kept ++ [p]) rest

/-- Nothing more is kept at the place of a sample that is kept. -/
theorem keepFirst_filter [Scalar α] {kept : List (Sample α)} {p : Sample α} (hp : p ∈ kept)
    (rest : List (Sample α)) :
    keepFirst kept (rest.filter fun q => !q.point.same p.point) = keepFirst kept rest := by
  induction rest generalizing kept with
  | nil => rfl
  | cons q rest ih =>
    by_cases hsame : q.point.same p.point = true
    · have hany : (kept.any fun k => q.point.same k.point) = true :=
        List.any_eq_true.2 ⟨p, hp, hsame⟩
      rw [List.filter_cons_of_neg (by simp [hsame]), ih hp, keepFirst, if_pos hany]
    · rw [List.filter_cons_of_pos (by simp [hsame]), keepFirst, keepFirst, ih hp, ih (List.mem_append_left [q] hp)]

/-- Nothing from `i` on is at a place of a sample before it: those are kept, the others are still to be
looked at. -/
theorem toList_keepFirstFrom [Scalar α] (s : Samples α) (i : Nat)
    (h : ∀ q ∈ s.toList.drop i, ((s.toList.take i).any fun k => q.point.same k.point) = false) :
    (s.keepFirstFrom i).toList = keepFirst (s.toList.take i) (s.toList.drop i) := by
  fun_induction keepFirstFrom s i with
  | case1 s i hi ih =>
    have hlength : i < s.toList.length := by simpa using hi
    have htake : (s.toList.take (i + 1)).length = i + 1 := List.length_take_of_le hlength
    have hkept : s.toList.take (i + 1) = s.toList.take i ++ [s.toList[i]] :=
      List.take_succ_eq_append_getElem hlength
    have hlast : s.toList[i] ∈ s.toList.take (i + 1) :=
      hkept ▸ List.mem_append_right _ (List.mem_singleton_self _)
    rw [← getElem_toList hlength, toList_removeAt, List.take_left' htake, List.drop_left' htake] at ih
    rw [List.drop_eq_getElem_cons hlength] at h ⊢
    rw [← getElem_toList hlength, ih, keepFirst_filter hlast, keepFirst,
      if_neg (Bool.eq_false_iff.1 (h _ List.mem_cons_self)), hkept]
    intro q hq
    obtain ⟨hmem, hother⟩ := List.mem_filter.1 hq
    rw [hkept, List.any_append, h q (List.mem_cons_of_mem _ hmem)]
    simpa using hother
  | case2 s i hi =>
    have hlength : s.toList.length ≤ i := by simpa using hi
    rw [List.take_of_length_le hlength, List.drop_of_length_le hlength, keepFirst]

@[simp] theorem toList_removeDuplicates [Scalar α] (s : Samples α) :
    s.removeDuplicates.toList = keepFirst [] s.toList :=
  toList_keepFirstFrom s 0 fun _ _ => rfl

@[simp] theorem toList_scale [Scalar α] (s : Samples α) (factor : α) (axes : Axes) :
    (s.scale factor axes).toList = s.toList.map (·.scale factor axes) := by
  have onColumn (chosen : Bool) (column : Array α) (f : Sample α → α) (h : s.toList.map f = column.toList) :
      (if chosen then column.map (· * factor) else column).toList =
        s.toList.map fun p => if chosen then f p * factor else f p := by
    cases chosen <;> simp [← h]
  apply toList_eq
  · rw [List.map_map]
    exact onColumn axes.x s.xs (·.x) (map_x_toList s)
  · rw [List.map_map]
    exact onColumn axes.y s.ys (·.y) (map_y_toList s)
  · rw [List.map_map]
    exact onColumn axes.z s.zs (·.z) (map_z_toList s)

@[simp] theorem toList_mapHeights (s : Samples α) (f : Sample α → α) :
    (s.mapHeights f).toList = s.toList.map fun p => { p with z := f p } := by
  apply toList_eq
  · rw [List.map_map]
    exact (map_x_toList s).symm
  · rw [List.map_map]
    exact (map_y_toList s).symm
  · rw [List.map_map, mapHeights, Array.toList_ofFn, toList, List.map_ofFn]
    rfl

@[simp] theorem toList_addHeights [Scalar α] (s : Samples α) (f : Sample α → α) (c : α) :
    (s.addHeights f c).toList = s.toList.map fun p => { p with z := p.z + c * f p } :=
  toList_mapHeights s _

/-! ## Rules that may fail -/

variable {ε : Type}

/-- The values found, each put in its sample, or the first failure. -/
theorem mapM_eq_evaluate (rule : Sample α → Except ε α) (l : List (Sample α)) :
    (l.mapM fun p => (rule p).map fun z => { p with z := z }) =
      (evaluate rule l).map fun found => (l.zip found.1).map fun c => { c.1 with z := c.2 } := by
  induction l with
  | nil => rfl
  | cons p l ih =>
    rw [List.mapM_cons, ih, evaluate]
    cases rule p with
    | error e => rfl
    | ok z => cases evaluate rule l <;> rfl

/-- A failure at any sample, however late, leaves no values. -/
theorem exists_error_of_mem {rule : Sample α → Except ε α} {l : List (Sample α)} {p : Sample α} {e : ε}
    (hp : p ∈ l) (h : rule p = .error e) : ∃ first, evaluate rule l = .error first := by
  induction l with
  | nil => cases hp
  | cons q l ih =>
    rw [evaluate]
    cases hq : rule q with
    | error first => exact ⟨first, rfl⟩
    | ok z =>
      obtain rfl | hp := List.mem_cons.1 hp
      · cases h.symm.trans hq
      · obtain ⟨first, hfirst⟩ := ih hp
        rw [hfirst]
        exact ⟨first, rfl⟩

theorem exists_mapHeightsOrFail_error {s : Samples α} {rule : Sample α → Except ε α} {p : Sample α}
    {e : ε} (hp : p ∈ s.toList) (h : rule p = .error e) :
    ∃ first, s.mapHeightsOrFail rule = .error first := by
  obtain ⟨first, hfirst⟩ := exists_error_of_mem hp h
  exact ⟨first, by rw [mapHeightsOrFail, hfirst]⟩

/-- A rule that has a value at each sample gives the new heights; otherwise the first failure is
reported. -/
theorem toList_mapHeightsOrFail (s : Samples α) (rule : Sample α → Except ε α) :
    (s.mapHeightsOrFail rule).map toList = s.toList.mapM fun p => (rule p).map fun z => { p with z := z } := by
  rw [mapM_eq_evaluate, mapHeightsOrFail]
  rcases evaluate rule s.toList with e | ⟨zs, hzs⟩
  · rfl
  · have hplaces : (s.toList.zip zs).map Prod.fst = s.toList := List.map_fst_zip (Nat.le_of_eq hzs.symm)
    have hheights : (s.toList.zip zs).map Prod.snd = zs := List.map_snd_zip (Nat.le_of_eq hzs)
    refine congrArg Except.ok (toList_eq ?_ ?_ ?_) <;> rw [List.map_map]
    · have hx := congrArg (List.map (·.x)) hplaces
      rw [List.map_map, map_x_toList] at hx
      exact hx.symm
    · have hy := congrArg (List.map (·.y)) hplaces
      rw [List.map_map, map_y_toList] at hy
      exact hy.symm
    · exact hheights.symm

end Samples

end DelaunaySurface
