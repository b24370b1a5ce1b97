import DelaunaySurface.Proofs.Double.Equality
/-!
# Sides of zero

On which side of zero sums, differences and products of doubles lie, infinite and undefined ones included. Rounding
treats both sides alike, so a difference taken the other way round lies on the other side (`side_sub`), and what is at
least zero stays so in sums and products (`add_nonneg`, `mul_nonneg`).
-/

namespace DelaunaySurface.Double

open Float.Model Float.Model.UnpackedFloat Float.Model.Format

variable {x y : Float} {u v : UnpackedFloat} {s : Sign}

/-- What the bits of a double stand for. -/
def value (x : Float) : UnpackedFloat := UnpackedFloat.unpack binary64 x.toBits.toBitVec

/-- What is left of an unpacked number when it has been put into bits. -/
def reread (u : UnpackedFloat) : UnpackedFloat := UnpackedFloat.unpack binary64 (UnpackedFloat.pack binary64 u)

theorem value_add (x y : Float) : value (x + y) = reread (add binary64 (value x) (value y)) := rfl

theorem value_sub (x y : Float) : value (x - y) = reread (sub binary64 (value x) (value y)) := rfl

theorem value_mul (x y : Float) : value (x * y) = reread (mul binary64 (value x) (value y)) := rfl

theorem value_abs (x : Float) : value x.abs = reread (value x).abs := rfl

/-! ## Comparison with zero -/

/-- On which side of zero a number lies; none for one that is undefined. -/
def sideOf : UnpackedFloat → Option Ordering
  | .notANumber => none
  | .zero _ => some .eq
  | .finite .positive .. | .infinity .positive => some .gt
  | .finite .negative .. | .infinity .negative => some .lt

def side (x : Float) : Option Ordering := sideOf (value x)

theorem compare_zero (u : UnpackedFloat) (s : Sign) : u.compare (.zero s) = sideOf u := by
  cases u with
  | notANumber => rfl
  | zero t => rfl
  | infinity t => cases t <;> rfl
  | finite t => cases t <;> rfl

theorem zero_compare (s : Sign) (u : UnpackedFloat) : (UnpackedFloat.zero s).compare u = (sideOf u).map Ordering.swap := by
  cases u with
  | notANumber => rfl
  | zero t => rfl
  | infinity t => cases t <;> rfl
  | finite t => cases t <;> rfl

theorem lt_iff_compare : x < y ↔ (value x).compare (value y) = some .lt := by
  change decide (((value x).compare (value y) == some .lt) = true) = true ↔ _
  rw [decide_eq_true_iff, beq_iff_eq]

theorem le_iff_compare : x ≤ y ↔ ((value x).compare (value y)).any (·.isLE) = true := by
  change decide (((value x).compare (value y)).any (·.isLE) = true) = true ↔ _
  rw [decide_eq_true_iff]

theorem pos_iff : 0 < x ↔ side x = some .gt := by
  rw [lt_iff_compare]
  change (UnpackedFloat.zero .positive).compare (value x) = _ ↔ _
  rw [zero_compare, side]
  cases sideOf (value x) with
  | none => simp
  | some o => cases o <;> simp

theorem nonneg_iff : 0 ≤ x ↔ side x = some .gt ∨ side x = some .eq := by
  rw [le_iff_compare]
  change ((UnpackedFloat.zero .positive).compare (value x)).any _ = _ ↔ _
  rw [zero_compare, side]
  cases sideOf (value x) with
  | none => simp
  | some o => cases o <;> simp

theorem nonpos_iff : x ≤ 0 ↔ side x = some .lt ∨ side x = some .eq := by
  rw [le_iff_compare]
  change ((value x).compare (UnpackedFloat.zero .positive)).any _ = _ ↔ _
  rw [compare_zero, side]
  cases sideOf (value x) with
  | none => simp
  | some o => cases o <;> simp

/-! ## Signs in bits -/

theorem unpackSign_packComponents (s : Sign) (e : BitVec 11) (m : BitVec 52) :
    Sign.ofBitVec (unpackSign (packComponents binary64 s e m)) = s := by
  have hbit : unpackSign (packComponents binary64 s e m) = s.toBitVec := by
    ext i hi
    simp [unpackSign, packComponents]
    grind
  rw [hbit]
  cases s <;> rfl

/-- Bits that differ in the sign alone stand for numbers that do. -/
theorem unpack_packComponents_neg (e : BitVec 11) (m : BitVec 52) :
    UnpackedFloat.unpack binary64 (packComponents binary64 (-s) e m) =
      (UnpackedFloat.unpack binary64 (packComponents binary64 s e m)).neg := by
  simp only [UnpackedFloat.unpack, unpackSign_packComponents, unpackExponent_packComponents, unpackMantissa_packComponents]
  split
  · split <;> rfl
  · split
    · split <;> rfl
    · rfl

theorem reread_zero (s : Sign) : reread (.zero s) = .zero s := by
  cases s <;> rfl

theorem reread_notANumber : reread .notANumber = .notANumber := by
  simp [reread, UnpackedFloat.pack]

theorem reread_neg (u : UnpackedFloat) : reread u.neg = (reread u).neg := by
  cases u with
  | notANumber => rfl
  | infinity s => exact unpack_packComponents_neg _ _
  | zero s => exact unpack_packComponents_neg _ _
  | finite s m e hm =>
    simp only [reread, UnpackedFloat.neg, UnpackedFloat.pack]
    split
    · exact unpack_packComponents_neg _ _
    · split
      · exact unpack_packComponents_neg _ _
      · exact unpack_packComponents_neg _ _

theorem sideOf_neg (u : UnpackedFloat) : sideOf u.neg = (sideOf u).map Ordering.swap := by
  cases u with
  | notANumber => rfl
  | zero s => rfl
  | infinity s => cases s <;> rfl
  | finite s => cases s <;> rfl

/-! ## Differences the other way round -/

theorem roundWithAccuracy_neg (spec : Format) (s : Sign) (m : Nat) (e : Int) (a : Accuracy) :
    roundWithAccuracy spec (-s) m e a = (roundWithAccuracy spec s m e a).neg := by
  simp only [roundWithAccuracy]
  split <;> rfl

theorem round_neg (spec : Format) (s : Sign) (m : Nat) (e : Int) :
    UnpackedFloat.round spec (-s) m e = (UnpackedFloat.round spec s m e).neg :=
  roundWithAccuracy_neg ..

/-- Numbers that differ in the sign alone, two zeros in any signs. -/
def Opposite (u v : UnpackedFloat) : Prop := v = u.neg ∨ (∃ s, u = .zero s) ∧ ∃ s, v = .zero s

theorem Opposite.reread (h : Opposite u v) : Opposite (reread u) (reread v) := by
  obtain rfl | ⟨⟨s, rfl⟩, t, rfl⟩ := h
  · exact .inl (reread_neg u)
  · exact .inr ⟨⟨s, reread_zero s⟩, t, reread_zero t⟩

theorem Opposite.sideOf (h : Opposite u v) : sideOf v = (sideOf u).map .swap := by
  obtain rfl | ⟨⟨s, rfl⟩, t, rfl⟩ := h
  · exact sideOf_neg u
  · rfl

theorem opposite_normalize (spec : Format) (n e : Int) :
    Opposite (UnpackedFloat.normalize spec n e .positive) (UnpackedFloat.normalize spec (-n) e .positive) := by
  rcases Int.lt_trichotomy n 0 with h | h | h
  · have hn : compare n 0 = .lt := Int.compare_eq_lt.2 h
    have hneg : compare (-n) 0 = .gt := Int.compare_eq_gt.2 (by omega)
    rw [UnpackedFloat.normalize, UnpackedFloat.normalize, hn, hneg]
    exact .inl (round_neg _ .negative _ _)
  · subst h
    exact .inr ⟨⟨_, rfl⟩, _, rfl⟩
  · have hn : compare n 0 = .gt := Int.compare_eq_gt.2 h
    have hneg : compare (-n) 0 = .lt := Int.compare_eq_lt.2 (by omega)
    rw [UnpackedFloat.normalize, UnpackedFloat.normalize, hn, hneg, neg_neg]
    exact .inl (round_neg _ .positive _ _)

theorem opposite_sub (u v : UnpackedFloat) : Opposite (UnpackedFloat.sub binary64 u v) (UnpackedFloat.sub binary64 v u) := by
  cases u <;> cases v
  case finite.finite s m e hm t n f hn =>
    simp only [UnpackedFloat.sub]
    rw [min_comm f e, ← neg_sub (s.apply _)]
    exact opposite_normalize ..
  case zero.zero s t => cases s <;> cases t <;> exact .inr ⟨⟨_, rfl⟩, _, rfl⟩
  case infinity.infinity s t => cases s <;> cases t <;> exact .inl rfl
  case zero.infinity t => cases t <;> exact .inl rfl
  case zero.finite t _ _ _ => cases t <;> exact .inl rfl
  case finite.infinity t => cases t <;> exact .inl rfl
  all_goals exact .inl rfl

theorem side_sub (x y : Float) : side (y - x) = (side (x - y)).map .swap :=
  (opposite_sub (value x) (value y)).reread.sideOf

theorem mul_swap (u v : UnpackedFloat) : UnpackedFloat.mul binary64 u v = UnpackedFloat.mul binary64 v u := by
  have hsign : ∀ s t : Sign, s * t = t * s := fun s t => by cases s <;> cases t <;> rfl
  cases u <;> cases v
  case finite.finite s m e hm t n f hn =>
    simp only [UnpackedFloat.mul]
    rw [hsign, Nat.mul_comm, Int.add_comm]
  all_goals simp only [UnpackedFloat.mul, hsign]

/-- Products are the same both ways, down to the bits. -/
theorem product_comm (x y : Float) : x * y = y * x :=
  congrArg (fun u => Float.ofModel (Float.Model.pack u)) (mul_swap (value x) (value y))

/-! ## Numbers of at least zero -/

/-- Zero in either sign, a positive number or the positive infinity. -/
inductive Nonneg : UnpackedFloat → Prop
  | zero (s : Sign) : Nonneg (.zero s)
  | finite (m : Nat) (e : Int) (hm : 0 < m) : Nonneg (.finite .positive m e hm)
  | infinity : Nonneg (.infinity .positive)

theorem nonneg_iff_sideOf (u : UnpackedFloat) : Nonneg u ↔ sideOf u = some .gt ∨ sideOf u = some .eq := by
  constructor
  · rintro (_ | _ | _) <;> simp [sideOf]
  · intro h
    cases u with
    | notANumber => simp [sideOf] at h
    | zero s => exact .zero s
    | finite s m e hm => cases s with
      | positive => exact .finite m e hm
      | negative => simp [sideOf] at h
    | infinity s => cases s with
      | positive => exact .infinity
      | negative => simp [sideOf] at h

theorem nonneg_iff_value : 0 ≤ x ↔ Nonneg (value x) :=
  nonneg_iff.trans (nonneg_iff_sideOf _).symm

theorem nonneg_unpack {e : BitVec 11} (he : e ≠ -1#11) (m : BitVec 52) :
    Nonneg (UnpackedFloat.unpack binary64 (packComponents binary64 .positive e m)) := by
  simp only [UnpackedFloat.unpack, unpackSign_packComponents, unpackExponent_packComponents, unpackMantissa_packComponents]
  rw [if_neg he]
  split
  · split
    · exact .zero _
    · exact .finite _ _ _
  · exact .finite _ _ _

theorem Nonneg.reread (h : Nonneg u) : Nonneg (reread u) := by
  cases h with
  | zero s => rw [reread_zero]; exact .zero s
  | infinity => exact .infinity
  | finite m e hm =>
    simp only [Double.reread, UnpackedFloat.pack]
    split
    · exact .infinity
    · rename_i hexp
      split
      · apply nonneg_unpack
        intro h
        have hmax := congrArg BitVec.toNat h
        rw [BitVec.toNat_ofNat] at hmax
        change _ = 2047 at hmax
        change ¬ 2 ^ 11 ≤ _ at hexp
        omega
      · exact nonneg_unpack (by decide) _

theorem nonneg_abs (h : sideOf u ≠ none) : Nonneg u.abs := by
  cases u with
  | notANumber => exact absurd rfl h
  | zero s => exact .zero _
  | finite s m e hm => exact .finite _ _ _
  | infinity s => exact .infinity

theorem nonneg_roundWithAccuracy (spec : Format) (m : Nat) (e : Int) (a : Accuracy) :
    Nonneg (roundWithAccuracy spec .positive m e a) := by
  simp only [roundWithAccuracy]
  split
  · exact .zero _
  · exact .finite _ _ _

theorem nonneg_normalize (spec : Format) (n : Nat) (e : Int) : Nonneg (UnpackedFloat.normalize spec n e .positive) := by
  rcases n.eq_zero_or_pos with rfl | hn
  · exact .zero _
  · have hcompare : compare (n : Int) 0 = .gt := Int.compare_eq_gt.2 (by omega)
    rw [UnpackedFloat.normalize, hcompare]
    exact nonneg_roundWithAccuracy ..

theorem Nonneg.add (hu : Nonneg u) (hv : Nonneg v) : Nonneg (UnpackedFloat.add binary64 u v) := by
  cases hu <;> cases hv
  case finite.finite m e hm n f hn => exact nonneg_normalize binary64 _ _
  case zero.zero s t => cases s <;> cases t <;> exact .zero _
  all_goals constructor

theorem Nonneg.mul (m : Nat) (e : Int) (hm : 0 < m) (hv : Nonneg v) :
    Nonneg (UnpackedFloat.mul binary64 (.finite .positive m e hm) v) := by
  cases hv with
  | zero s => exact .zero _
  | finite n f hn => exact nonneg_roundWithAccuracy ..
  | infinity => exact .infinity

/-! ## Differences against a tolerance -/

theorem not_nonpos_of_pos (h : 0 < x) : ¬ x ≤ 0 := by
  rw [nonpos_iff, pos_iff.1 h]
  simp

theorem finite_of_pos (hfin : x.isFinite = true) (h : 0 < x) : ∃ m e hm, value x = .finite .positive m e hm := by
  change (value x).isFinite = true at hfin
  rw [pos_iff, side] at h
  cases hv : value x <;> rw [hv] at h hfin
  case finite s m e hm => cases s with
    | positive => exact ⟨m, e, hm, rfl⟩
    | negative => cases h
  all_goals first | cases h | cases hfin

theorem value_of_side_eq (h : side x = some .eq) : ∃ s, value x = .zero s := by
  rw [side] at h
  cases hv : value x <;> rw [hv] at h
  case zero s => exact ⟨s, rfl⟩
  case notANumber => cases h
  case finite s m e hm => cases s <;> cases h
  case infinity s => cases s <;> cases h

theorem sideOf_eq_none (h : sideOf u = none) : u = .notANumber := by
  cases u with
  | notANumber => rfl
  | zero s => cases h
  | finite s m e hm => cases s <;> cases h
  | infinity s => cases s <;> cases h

/-- Only of numbers the difference is one. -/
theorem defined_of_sub (h : side (x - y) ≠ none) : sideOf (value x) ≠ none ∧ sideOf (value y) ≠ none := by
  constructor
  · intro hx
    apply h
    rw [side, value_sub, sideOf_eq_none hx, UnpackedFloat.sub, reread_notANumber]
    rfl
  · intro hy
    apply h
    have hsub : UnpackedFloat.sub binary64 (value x) .notANumber = .notANumber := by cases value x <;> rfl
    rw [side, value_sub, sideOf_eq_none hy, hsub, reread_notANumber]
    rfl

variable {eps : Float}

theorem nonneg_mul_add_abs (hfin : eps.isFinite = true) (hpos : 0 < eps) (h : side (x - y) ≠ none) :
    0 ≤ eps * (x.abs + y.abs) := by
  obtain ⟨m, e, hm, hv⟩ := finite_of_pos hfin hpos
  obtain ⟨hx, hy⟩ := defined_of_sub h
  rw [nonneg_iff_value, value_mul, value_add, value_abs, value_abs, hv]
  exact (Nonneg.mul m e hm ((nonneg_abs hx).reread.add (nonneg_abs hy).reread).reread).reread

theorem abs_sub_le (hfin : eps.isFinite = true) (hpos : 0 < eps) (h : side (x - y) = some .eq) :
    (x - y).abs ≤ eps * (x.abs + y.abs) := by
  obtain ⟨s, hs⟩ := value_of_side_eq h
  have hzero : value (x - y).abs = .zero .positive := by
    rw [value_abs, hs]
    exact reread_zero .positive
  have hsize := nonneg_iff.1 (nonneg_mul_add_abs hfin hpos (by rw [h]; simp))
  rw [le_iff_compare, hzero, zero_compare]
  rw [side] at hsize
  obtain hsize | hsize := hsize <;> rw [hsize] <;> rfl

/-- A difference too large to vanish and not positive is positive the other way round. -/
theorem not_nonpos_swap (hfin : eps.isFinite = true) (hpos : 0 < eps) (hlarge : ¬ (x - y).abs ≤ eps * (x.abs + y.abs))
    (h : ¬ 0 < x - y) : ¬ y - x ≤ 0 := by
  intro hle
  rw [nonpos_iff, side_sub] at hle
  rw [pos_iff] at h
  cases hside : side (x - y) with
  | none => simp [hside] at hle
  | some o => cases o with
    | lt => simp [hside] at hle
    | eq => exact hlarge (abs_sub_le hfin hpos hside)
    | gt => exact h hside

end DelaunaySurface.Double
