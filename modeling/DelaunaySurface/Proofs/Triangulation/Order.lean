import DelaunaySurface.Proofs.Triangulation.Schedule
/-!
# Back and forth through the buckets

The order of insertion is the only one that has every sample once and goes row by row through the buckets, with the columns
backwards in odd rows; a seed takes three samples out of it and leaves the others as they are (`eachOnce_of_size`). Nothing
is assumed of the numbers: whatever the quotient that says how far along a range a coordinate lies, it is cut down to
one of the buckets, also where the range or the quotient is infinite or undefined.
-/

namespace DelaunaySurface

namespace Schedule

/-! ## Buckets -/

/-- The search ends at the first side that is long enough, if its last candidate is. -/
theorem isLeast_bucketSideFrom {n c fuel : Nat} (hlast : n ≤ 4 * (c + fuel) * (c + fuel)) :
    IsLeast {b | c ≤ b ∧ n ≤ 4 * b * b} (bucketSideFrom n c fuel) := by
  induction fuel generalizing c with
  | zero => exact ⟨⟨le_rfl, hlast⟩, fun b hb => hb.1⟩
  | succ fuel ih =>
    rw [bucketSideFrom]
    split
    · exact ⟨⟨le_rfl, ‹_›⟩, fun b hb => hb.1⟩
    · rename_i hshort
      obtain ⟨⟨hmin, hlong⟩, hleast⟩ := ih (c := c + 1) (by rwa [Nat.add_right_comm])
      refine ⟨⟨(Nat.le_succ c).trans hmin, hlong⟩, ?_⟩
      rintro b ⟨hcb, hb⟩
      -- The side that was too short is the only one that the search from the next one leaves out.
      have hne : c ≠ b := fun e => hshort (e ▸ hb)
      exact hleast ⟨lt_of_le_of_ne hcb hne, hb⟩

theorem isLeast_bucketSide (n : Nat) : IsLeast {c | 0 < c ∧ n ≤ 4 * c * c} (bucketSide n) := by
  refine isLeast_bucketSideFrom ?_
  calc n ≤ 1 + n := Nat.le_add_left n 1
    _ ≤ (1 + n) * (1 + n) := Nat.le_mul_self (1 + n)
    _ ≤ 4 * (1 + n) * (1 + n) := Nat.mul_le_mul_right _ (Nat.le_mul_of_pos_left _ (by decide))

section

variable {α : Type} [Scalar α]

theorem bucket_lt {count : Nat} (hcount : 0 < count) (value low extent : α) : bucket count value low extent < count := by
  rw [bucket]
  split
  · exact (Nat.min_le_right _ _).trans_lt (Nat.sub_one_lt_of_lt hcount)
  · exact hcount

/-- The row of the bucket that sample `i` lies in. -/
def row (s : Samples α) (around : Rectangle α) (i : Nat) : Nat :=
  bucket (bucketSide s.size) (s.point i).y around.yMin around.height

/-- The column of the bucket that sample `i` lies in, counted forwards in every row. -/
def column (s : Samples α) (around : Rectangle α) (i : Nat) : Nat :=
  bucket (bucketSide s.size) (s.point i).x around.xMin around.width

/-- Sample `i` lies in one of the buckets, and its key is that bucket's row and column and its own index. In odd rows
the columns are counted from the other end. -/
structure Bucketed (s : Samples α) (around : Rectangle α) (i : Nat) : Prop where
  row_lt : row s around i < bucketSide s.size
  column_lt : column s around i < bucketSide s.size
  key_row : (key s around i).row = row s around i
  forwards : row s around i % 2 = 0 → (key s around i).column = column s around i
  backwards : row s around i % 2 = 1 → (key s around i).column + column s around i + 1 = bucketSide s.size
  key_index : (key s around i).index = i

theorem bucketed (s : Samples α) (around : Rectangle α) (i : Nat) : Bucketed s around i := by
  have hcount : 0 < bucketSide s.size := (isLeast_bucketSide s.size).1.1
  have hcolumn : column s around i < bucketSide s.size := bucket_lt hcount _ _ _
  have hkey : (key s around i).column =
      if row s around i % 2 = 1 then bucketSide s.size - 1 - column s around i else column s around i := rfl
  refine ⟨bucket_lt hcount _ _ _, hcolumn, rfl, fun heven => ?_, fun hodd => ?_, rfl⟩
  · rw [hkey, if_neg (by omega)]
  · rw [hkey, if_pos hodd]
    omega

/-! ## Keys -/

/-- Keys as they are compared: the row, then the column, then the index. -/
def Key.lex (k : Key) : Nat ×ₗ Nat ×ₗ Nat := toLex (k.row, toLex (k.column, k.index))

theorem Key.le_iff (a b : Key) : a.le b = true ↔ a.lex ≤ b.lex := by
  rw [Key.lex, Key.lex, Prod.Lex.toLex_le_toLex, Prod.Lex.toLex_le_toLex, Key.le]
  simp only [Bool.or_eq_true, Bool.and_eq_true, decide_eq_true_eq]

/-- No two samples have the same key, as it ends in their index. -/
theorem lex_key_injective (s : Samples α) (around : Rectangle α) : Function.Injective fun i => (key s around i).lex := by
  intro i j h
  obtain ⟨-, h⟩ := Prod.mk.inj (toLex.injective h)
  exact (Prod.mk.inj (toLex.injective h)).2

/-! ## Order -/

variable {s : Samples α} {around : Rectangle α}

/-- The list has every sample once, in the order of their keys. -/
structure BackAndForth (s : Samples α) (around : Rectangle α) (l : List Nat) : Prop where
  once : l.Perm (List.range s.size)
  sorted : l.Pairwise fun i j => (key s around i).lex < (key s around j).lex

theorem BackAndForth.eq {l l' : List Nat} (h : BackAndForth s around l) (h' : BackAndForth s around l') : l = l' :=
  List.Perm.eq_of_pairwise (fun _ _ _ _ hij hji => absurd hji hij.asymm) h.sorted h'.sorted (h.once.trans h'.once.symm)

/-- Sorting keys and taking their indices is sorting the indices by key. -/
theorem order_eq_mergeSort (hbounds : s.bounds = .ok around) :
    order s = (List.range s.size).mergeSort fun i j => (key s around i).le (key s around j) := by
  have hmap := List.map_mergeSort (f := key s around) (s := Key.le) (l := List.range s.size) fun _ _ _ _ => rfl
  rw [order_eq hbounds rfl, ← hmap, List.map_map]
  exact List.map_id _

theorem backAndForth_order (hbounds : s.bounds = .ok around) : BackAndForth s around (order s) where
  once := order_perm s
  sorted := by
    rw [order_eq_mergeSort hbounds]
    exact strictly_sorted_of_key (fun i j => Key.le_iff (key s around i) (key s around j)) (lex_key_injective s around)
      List.nodup_range

/-- What the schedule of samples within bounds says about them. -/
structure EachOnce (s : Samples α) (tol : Tolerance α) (around : Rectangle α) : Prop where
  /-- There are as few rows and columns as hold all samples, four to a bucket. -/
  side : IsLeast {c | 0 < c ∧ s.size ≤ 4 * c * c} (bucketSide s.size)
  bucketed : ∀ i, Bucketed s around i
  /-- The order of insertion has each sample once, in the order of their keys, and no other list does. -/
  order_iff : ∀ l, l = order s ↔ BackAndForth s around l
  /-- A seed and the samples it leaves are all samples, each once, and those it leaves stay in their order. -/
  seed : ∀ first others, seed tol s (order s) = .ok (first, others) →
    (first.toList ++ others).Perm (List.range s.size) ∧ others.Sublist (order s)

/-- Every one of three samples or more is scheduled once, whatever their coordinates and the tolerance. -/
theorem eachOnce_of_size (s : Samples α) (tol : Tolerance α) (hsize : 3 ≤ s.size) :
    ∃ around, s.bounds = .ok around ∧ EachOnce s tol around := by
  obtain ⟨-, around, hbounds⟩ | ⟨hempty, -⟩ := s.bounds_cases
  · have horder := backAndForth_order hbounds
    have horder_iff : ∀ l, l = order s ↔ BackAndForth s around l := fun l => ⟨fun e => e ▸ horder, fun h => h.eq horder⟩
    refine ⟨around, hbounds, isLeast_bucketSide s.size, bucketed s around, horder_iff, fun first others hseed => ?_⟩
    exact ⟨schedule_perm hseed, seed_sublist hseed⟩
  · have hzero : s.size = 0 := Array.isEmpty_iff_size_eq_zero.1 hempty
    omega

end

/-- Five samples so far apart that the range of their abscissas is infinite. -/
def farApart : Samples Float :=
  .ofList [⟨1.5e308, 4, 0⟩, ⟨-1.5e308, 0, 0⟩, ⟨1e308, 1, 0⟩, ⟨-1.5e308, 0.5, 0⟩, ⟨1.5e308, 1.5, 0⟩]

/-- The quotients of the abscissas are undefined or zero, so all samples are in the first column. The one in the odd row
comes last. -/
theorem eachOnce_of_size_farApart : 3 ≤ farApart.size ∧
    seed .standard farApart (order farApart) = .ok (⟨1, 4, 2⟩, [3, 0]) ∧
    ∃ around, farApart.bounds = .ok around ∧ around.width.isFinite = false ∧ EachOnce farApart .standard around := by
  obtain ⟨around, hbounds, honce⟩ := eachOnce_of_size farApart .standard (by decide)
  have haround : farApart.bounds = .ok ⟨-1.5e308, 1.5e308, 0, 4⟩ := by decide +kernel
  have hkeys : (List.range farApart.size).map (key farApart ⟨-1.5e308, 1.5e308, 0, 4⟩) =
      [⟨1, 1, 0⟩, ⟨0, 0, 1⟩, ⟨0, 0, 2⟩, ⟨0, 0, 3⟩, ⟨0, 0, 4⟩] := by decide +kernel
  have horder : order farApart = [1, 2, 3, 4, 0] := by
    rw [order_eq haround hkeys]
    cbv
  obtain rfl := Except.ok.inj (hbounds.symm.trans haround)
  refine ⟨by decide, ?_, _, hbounds, by decide +kernel, honce⟩
  rw [horder]
  decide +kernel

end Schedule

end DelaunaySurface
