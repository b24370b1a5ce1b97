import DelaunaySurface.Proofs.Double.Equality
import DelaunaySurface.Proofs.Triangulation.Schedule
/-!
# Samples at one place

Samples are sorted by the bits of their coordinates, and only neighbours are compared, by the equality of numbers.
So two samples at one place are found exactly when some two at one place come right after one another
(`duplicate_iff`). The two orders differ in the zeros alone: without a negative zero none is missed
(`duplicate_iff_of_noNegativeZero`), with one a pair can be (`undetected_signedZeros`).
-/

namespace DelaunaySurface

namespace Schedule

/-! ## Twins among sorted samples -/

section Neighbours

variable {α : Type} [Scalar α] {s : Samples α}

/-- What is reported stands side by side in the list, at one place, the lower index first. -/
theorem firstTwins?_eq_some {l : List Nat} {i j : Nat} (h : firstTwins? s l = some (i, j)) :
    ∃ a b, [a, b] <:+: l ∧ (s.point a).same (s.point b) = true ∧ i = min a b ∧ j = max a b := by
  fun_induction firstTwins? s l with
  | case1 a b rest hsame =>
    cases h
    exact ⟨a, b, (List.prefix_append [a, b] rest).isInfix, hsame, rfl, rfl⟩
  | case2 a b rest hsame ih =>
    obtain ⟨c, d, hcd, hsame, hmin, hmax⟩ := ih h
    exact ⟨c, d, hcd.trans (List.suffix_cons a _).isInfix, hsame, hmin, hmax⟩
  | case3 => cases h

/-- Two samples side by side at one place do not go unnoticed. -/
theorem isSome_firstTwins? {l : List Nat} {a b : Nat} (h : [a, b] <:+: l) (hsame : (s.point a).same (s.point b) = true) :
    (firstTwins? s l).isSome = true := by
  fun_induction firstTwins? s l with
  | case1 => rfl
  | case2 c d rest hcd ih =>
    rcases List.infix_cons_iff.1 h with h | h
    · obtain ⟨hc, h⟩ := List.cons_prefix_cons.1 h
      obtain ⟨hd, -⟩ := List.cons_prefix_cons.1 h
      exact absurd (hc ▸ hd ▸ hsame) hcd
    · exact ih h
  | case3 l hl =>
    have hlength := h.length_le
    match l, hl with
    | [], _ | [_], _ => simp at hlength
    | c :: d :: rest, hl => exact (hl c d rest rfl).elim

/-- In a list in strict order, those stand side by side that have nothing between them. -/
theorem infix_iff_of_pairwise {β : Type} {R : β → β → Prop} (hR : ∀ a b, R a b → ¬R b a) {l : List β} (h : l.Pairwise R)
    {a b : β} : [a, b] <:+: l ↔ a ∈ l ∧ b ∈ l ∧ R a b ∧ ∀ k ∈ l, ¬(R a k ∧ R k b) := by
  have hirrefl : ∀ c, ¬R c c := fun c hc => hR c c hc hc
  constructor
  · rintro ⟨p, q, rfl⟩
    rw [List.append_assoc, List.pairwise_append] at h
    obtain ⟨-, hab, hbefore⟩ := h
    obtain ⟨ha, hb⟩ := List.pairwise_cons.1 hab
    refine ⟨by simp, by simp, ha b List.mem_cons_self, fun k hk ⟨hak, hkb⟩ => ?_⟩
    rw [List.append_assoc, List.mem_append] at hk
    rcases hk with hk | hk
    · exact hR a k hak (hbefore k hk a List.mem_cons_self)
    · rcases List.mem_cons.1 hk with rfl | hk
      · exact hirrefl _ hak
      · rcases List.mem_cons.1 hk with rfl | hk
        · exact hirrefl _ hkb
        · exact hR k b hkb ((List.pairwise_cons.1 hb).1 k hk)
  · rintro ⟨ha, hb, hab, hbetween⟩
    obtain ⟨p, q, rfl⟩ := List.append_of_mem ha
    obtain ⟨-, haq, hbefore⟩ := List.pairwise_append.1 h
    -- What comes before `a` or is `a` cannot be `b`.
    have hbq : b ∈ q := by
      rcases List.mem_append.1 hb with hb | hb
      · exact absurd (hbefore b hb a List.mem_cons_self) (hR a b hab)
      · exact (List.mem_cons.1 hb).resolve_left fun e => hirrefl a (e ▸ hab)
    cases q with
    | nil => cases hbq
    | cons c q =>
      obtain ⟨hac, hcq⟩ := List.pairwise_cons.1 haq
      rcases List.mem_cons.1 hbq with rfl | hbq
      · exact ⟨p, q, by simp⟩
      · exact absurd ⟨hac c List.mem_cons_self, (List.pairwise_cons.1 hcq).1 b hbq⟩ (hbetween c (by simp))

end Neighbours

/-! ## Doubles -/

variable {s : Samples Float}

/-- What samples with coordinates in double precision are sorted by. -/
def rankKey (s : Samples Float) (i : Nat) : Int ×ₗ Int ×ₗ Nat :=
  toLex (bitRank (s.point i).x, toLex (bitRank (s.point i).y, i))

theorem placeOrder_eq (i j : Nat) : placeOrder s i j = compare (rankKey s i) (rankKey s j) := rfl

theorem placeOrder_lt_iff {i j : Nat} : placeOrder s i j = .lt ↔ rankKey s i < rankKey s j := by
  rw [placeOrder_eq, compare_lt_iff_lt]

theorem rankKey_injective : Function.Injective (rankKey s) := by
  intro i j h
  rw [rankKey, rankKey, EmbeddingLike.apply_eq_iff_eq, Prod.mk.injEq, EmbeddingLike.apply_eq_iff_eq, Prod.mk.injEq] at h
  exact h.2.2

/-- The samples in the order of their places. -/
def byPlace (s : Samples Float) : List Nat := (List.range s.size).mergeSort fun i j => placeOrder s i j != .gt

theorem mem_byPlace {i : Nat} : i ∈ byPlace s ↔ i < s.size := by
  rw [byPlace, List.mem_mergeSort, List.mem_range]

theorem byPlace_sorted : (byPlace s).Pairwise fun i j => placeOrder s i j = .lt := by
  have hle : ∀ i j, (placeOrder s i j != .gt) = true ↔ rankKey s i ≤ rankKey s j := fun i j => by
    rw [bne_iff_ne, placeOrder_eq, compare_le_iff_le]
  exact (strictly_sorted_of_key hle rankKey_injective List.nodup_range).imp placeOrder_lt_iff.2

/-- Sample `j` comes right after sample `i` in the order of places. -/
def Successive (s : Samples Float) (i j : Nat) : Prop :=
  placeOrder s i j = .lt ∧ ∀ k < s.size, ¬(placeOrder s i k = .lt ∧ placeOrder s k j = .lt)

instance (i j : Nat) : Decidable (Successive s i j) :=
  inferInstanceAs (Decidable (_ ∧ _))

theorem infix_byPlace_iff {i j : Nat} : [i, j] <:+: byPlace s ↔ i < s.size ∧ j < s.size ∧ Successive s i j := by
  have hasymm : ∀ i j, placeOrder s i j = .lt → ¬placeOrder s j i = .lt := fun i j h h' =>
    lt_asymm (placeOrder_lt_iff.1 h) (placeOrder_lt_iff.1 h')
  rw [infix_iff_of_pairwise hasymm byPlace_sorted, mem_byPlace, mem_byPlace, Successive]
  simp only [mem_byPlace]

theorem twins?_isSome_iff : (twins? s).isSome = true ↔
    ∃ i < s.size, ∃ j < s.size, Successive s i j ∧ (s.point i).same (s.point j) = true := by
  constructor
  · intro h
    obtain ⟨⟨i, j⟩, h⟩ := Option.isSome_iff_exists.1 h
    obtain ⟨a, b, hab, hsame, -⟩ := firstTwins?_eq_some h
    obtain ⟨ha, hb, hnext⟩ := infix_byPlace_iff.1 hab
    exact ⟨a, ha, b, hb, hnext, hsame⟩
  · rintro ⟨i, hi, j, hj, hnext, hsame⟩
    exact isSome_firstTwins? (infix_byPlace_iff.2 ⟨hi, hj, hnext⟩) hsame

theorem isFinite_of_notFinite? (h : notFinite? s = none) {i : Nat} (hi : i < s.size) :
    (s.point i).x.isFinite = true ∧ (s.point i).y.isFinite = true := by
  have := List.find?_eq_none.1 h i (List.mem_range.2 hi)
  rw [Bool.or_eq_true, not_or, Bool.not_eq_true', Bool.not_eq_false, Bool.not_eq_true', Bool.not_eq_false] at this
  exact this

/-- Finite points are the same place when their coordinates have one place in the order of bits or are zeros. -/
theorem same_iff_bitRank {p q : Point Float} (hp : p.x.isFinite = true ∧ p.y.isFinite = true)
    (hq : q.x.isFinite = true ∧ q.y.isFinite = true) : p.same q = true ↔
      (bitRank p.x = bitRank q.x ∨ Double.IsZero p.x ∧ Double.IsZero q.x) ∧
        (bitRank p.y = bitRank q.y ∨ Double.IsZero p.y ∧ Double.IsZero q.y) := by
  rw [Point.same, Bool.and_eq_true]
  exact and_congr (Double.beq_iff_bitRank hp.1 hq.1) (Double.beq_iff_bitRank hp.2 hq.2)

theorem same_symm (hfinite : notFinite? s = none) {i j : Nat} (hi : i < s.size) (hj : j < s.size)
    (h : (s.point i).same (s.point j) = true) : (s.point j).same (s.point i) = true := by
  have hfi := isFinite_of_notFinite? hfinite hi
  have hfj := isFinite_of_notFinite? hfinite hj
  exact (same_iff_bitRank hfj hfi).2 (((same_iff_bitRank hfi hfj).1 h).imp (.imp Eq.symm And.symm) (.imp Eq.symm And.symm))

/-- What is found are two samples at one place, the lower index first. -/
theorem same_of_twins? (hfinite : notFinite? s = none) {i j : Nat} (h : twins? s = some (i, j)) :
    i < j ∧ j < s.size ∧ (s.point i).same (s.point j) = true := by
  obtain ⟨a, b, hab, hsame, rfl, rfl⟩ := firstTwins?_eq_some h
  obtain ⟨ha, hb, hnext, -⟩ := infix_byPlace_iff.1 hab
  have hne : a ≠ b := by
    rintro rfl
    exact lt_irrefl _ (placeOrder_lt_iff.1 hnext)
  rcases lt_or_gt_of_ne hne with hlt | hlt
  · rw [min_eq_left hlt.le, max_eq_right hlt.le]
    exact ⟨hlt, hb, hsame⟩
  · rw [min_eq_right hlt.le, max_eq_left hlt.le]
    exact ⟨hlt, ha, same_symm hfinite ha hb hsame⟩

theorem validate_duplicate_iff (hfinite : notFinite? s = none) (hsize : 3 ≤ s.size) {i j : Nat} :
    validate s = .error (.duplicate i j) ↔ twins? s = some (i, j) := by
  rw [validate, hfinite, if_neg (by omega)]
  cases twins? s with
  | none => constructor <;> rintro ⟨⟩
  | some found => exact ⟨fun h => by cases h; rfl, fun h => by cases h; rfl⟩

/-- Without a negative zero among the coordinates, two samples at one place have two that come right after one another. -/
theorem exists_successive (hfinite : notFinite? s = none)
    (hzero : ∀ i < s.size, bitRank (s.point i).x ≠ -1 ∧ bitRank (s.point i).y ≠ -1) {i j : Nat} (hi : i < s.size)
    (hj : j < s.size) (hij : rankKey s i < rankKey s j) (hsame : (s.point i).same (s.point j) = true) :
    ∃ k < s.size, Successive s i k ∧ (s.point i).same (s.point k) = true := by
  have hsame := (same_iff_bitRank (isFinite_of_notFinite? hfinite hi) (isFinite_of_notFinite? hfinite hj)).1 hsame
  have hrank : ∀ {a b : Float}, bitRank a ≠ -1 → bitRank b ≠ -1 → bitRank a = bitRank b ∨ Double.IsZero a ∧ Double.IsZero b →
      bitRank a = bitRank b := fun {a b} ha hb h => by
    unfold Double.IsZero at h
    omega
  have hx := hrank (hzero i hi).1 (hzero j hj).1 hsame.1
  have hy := hrank (hzero i hi).2 (hzero j hj).2 hsame.2
  -- The first sample after `i` lies between `i` and `j`, so it has the coordinates of both.
  obtain ⟨k, hk, hfirst⟩ := ((Finset.range s.size).filter fun k => rankKey s i < rankKey s k).exists_min_image (rankKey s)
    ⟨j, by simp [hj, hij]⟩
  simp only [Finset.mem_filter, Finset.mem_range] at hk hfirst
  have hik := hk.2
  have hkj := hfirst j ⟨hj, hij⟩
  refine ⟨k, hk.1, ⟨placeOrder_lt_iff.2 hik, fun l hl ⟨hil, hlk⟩ => ?_⟩, ?_⟩
  · exact (hfirst l ⟨hl, placeOrder_lt_iff.1 hil⟩).not_gt (placeOrder_lt_iff.1 hlk)
  · rw [rankKey, rankKey, Prod.Lex.toLex_lt_toLex, Prod.Lex.toLex_lt_toLex] at hik
    rw [rankKey, rankKey, Prod.Lex.toLex_le_toLex, Prod.Lex.toLex_le_toLex] at hkj
    rw [same_iff_bitRank (isFinite_of_notFinite? hfinite hi) (isFinite_of_notFinite? hfinite hk.1)]
    simp only at hik hkj
    exact ⟨.inl (by omega), .inl (by omega)⟩

end Schedule

namespace Triangulation

variable {s : Samples Float} {settings : BuildSettings Float}

theorem build_duplicate_iff (hfinite : Schedule.notFinite? s = none) (hsize : 3 ≤ s.size) {i j : Nat} :
    build settings s = .error (.duplicate i j) ↔ Schedule.twins? s = some (i, j) := by
  rw [← Schedule.validate_duplicate_iff hfinite hsize]
  constructor
  · intro h
    rcases build_error h with h | h | ⟨k, h⟩ | h
    · exact h
    all_goals cases h
  · intro h
    rw [build, mesh, h]
    rfl

theorem exists_duplicate_iff (hfinite : Schedule.notFinite? s = none) (hsize : 3 ≤ s.size) :
    (∃ i j, build settings s = .error (.duplicate i j)) ↔
      ∃ i < s.size, ∃ j < s.size, Schedule.Successive s i j ∧ (s.point i).same (s.point j) = true := by
  rw [← Schedule.twins?_isSome_iff, Option.isSome_iff_exists]
  simp only [build_duplicate_iff hfinite hsize, Prod.exists]

/-- A build reports only samples at one place, the lower index first, and it reports some exactly when among the
samples some two at one place come right after one another in the order of places. -/
theorem duplicate_iff (hfinite : Schedule.notFinite? s = none) (hsize : 3 ≤ s.size) :
    (∀ i j, build settings s = .error (.duplicate i j) → i < j ∧ j < s.size ∧ (s.point i).same (s.point j) = true) ∧
    ((∃ i j, build settings s = .error (.duplicate i j)) ↔
      ∃ i < s.size, ∃ j < s.size, Schedule.Successive s i j ∧ (s.point i).same (s.point j) = true) :=
  ⟨fun _ _ h => Schedule.same_of_twins? hfinite ((build_duplicate_iff hfinite hsize).1 h), exists_duplicate_iff hfinite hsize⟩

/-- Two samples at one place of which one has a negative zero, and nothing between them. -/
def signedTwins : Samples Float := .ofList [⟨-0, 1, 0⟩, ⟨1, 0, 0⟩, ⟨0, 1, 0⟩]

theorem duplicate_iff_signedTwins : Schedule.notFinite? signedTwins = none ∧ 3 ≤ signedTwins.size ∧
    (∀ i j, build .standard signedTwins = .error (.duplicate i j) →
      i < j ∧ j < signedTwins.size ∧ (signedTwins.point i).same (signedTwins.point j) = true) ∧
    ∃ i j, build .standard signedTwins = .error (.duplicate i j) := by
  have hfinite : Schedule.notFinite? signedTwins = none := by decide +kernel
  have hsize : 3 ≤ signedTwins.size := by decide
  have hiff := @duplicate_iff signedTwins .standard hfinite hsize
  exact ⟨hfinite, hsize, hiff.1, hiff.2.2 ⟨0, by decide, 2, by decide, by decide +kernel, by decide +kernel⟩⟩

/-- Without a negative zero among the coordinates, a build reports a duplicate whenever two samples are at one place. -/
theorem duplicate_iff_of_noNegativeZero (hfinite : Schedule.notFinite? s = none) (hsize : 3 ≤ s.size)
    (hzero : ∀ i < s.size, bitRank (s.point i).x ≠ -1 ∧ bitRank (s.point i).y ≠ -1) :
    (∃ i j, build settings s = .error (.duplicate i j)) ↔ ∃ i j, i < j ∧ j < s.size ∧ (s.point i).same (s.point j) = true := by
  refine ⟨fun ⟨i, j, h⟩ => ⟨i, j, Schedule.same_of_twins? hfinite ((build_duplicate_iff hfinite hsize).1 h)⟩,
    fun ⟨i, j, hij, hj, hsame⟩ => (exists_duplicate_iff hfinite hsize).2 ?_⟩
  have hi : i < s.size := hij.trans hj
  rcases lt_or_gt_of_ne (Schedule.rankKey_injective.ne hij.ne) with hlt | hlt
  · obtain ⟨k, hk, hnext, hsame⟩ := Schedule.exists_successive hfinite hzero hi hj hlt hsame
    exact ⟨i, hi, k, hk, hnext, hsame⟩
  · obtain ⟨k, hk, hnext, hsame⟩ := Schedule.exists_successive hfinite hzero hj hi hlt
      (Schedule.same_symm hfinite hi hj hsame)
    exact ⟨j, hj, k, hk, hnext, hsame⟩

/-! ## A pair that is missed -/

/-- Samples 0 and 2 are at one place; sample 1, with the negative zero of sample 0, comes between them. -/
def signedZeros : Samples Float := .ofList [⟨-0, 1, 0⟩, ⟨-0, 2, 0⟩, ⟨0, 1, 0⟩, ⟨1, 0, 0⟩]

theorem order_signedZeros : Schedule.order signedZeros = [0, 1, 2, 3] := by
  have hbounds : signedZeros.bounds = .ok ⟨0, 1, 0, 2⟩ := by decide +kernel
  have hkeys : (List.range signedZeros.size).map (Schedule.key signedZeros ⟨0, 1, 0, 2⟩) =
      [⟨0, 0, 0⟩, ⟨0, 0, 1⟩, ⟨0, 0, 2⟩, ⟨0, 0, 3⟩] := by decide +kernel
  rw [Schedule.order_eq hbounds hkeys]
  cbv

theorem undetected_signedZeros : Schedule.notFinite? signedZeros = none ∧ 3 ≤ signedZeros.size ∧
    (signedZeros.point 0).same (signedZeros.point 2) = true ∧ ∃ t, build .standard signedZeros = .ok t := by
  have hfinite : Schedule.notFinite? signedZeros = none := by decide +kernel
  have htwins : Schedule.twins? signedZeros = none := by
    rw [← Option.not_isSome_iff_eq_none, Schedule.twins?_isSome_iff]
    decide +kernel
  have hvalid : Schedule.validate signedZeros = .ok () := Schedule.validate_ok_iff.2 ⟨hfinite, by decide, htwins⟩
  have hseed : Schedule.seed .standard signedZeros (Schedule.order signedZeros) = .ok (⟨0, 3, 1⟩, [2]) := by
    rw [order_signedZeros]
    decide +kernel
  obtain ⟨m, hm⟩ : ∃ m, (Mesh.seed ⟨0, 3, 1⟩).insertAll 100000 (verdicts .standard signedZeros) [2] = .ok m :=
    exists_of_isOk (by decide +kernel)
  exact ⟨hfinite, by decide, by decide +kernel, _, build_eq_ok.2 ⟨m, mesh_eq_ok.2 ⟨hvalid, _, _, hseed, hm⟩, rfl⟩⟩

end Triangulation

end DelaunaySurface
