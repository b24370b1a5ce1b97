import DelaunaySurface.Proofs.Double.Side
/-!
# The order of scalars

What choosing the least of some numbers needs of `<` and `≤`, and finding equal ones of `==`, and no more: doubles have it too,
though not all of them compare (`lawful_float`, `definedOrder_float`, `lawfulEquality_float`). Exact numbers have it all the more
(`lawful_rat`).
-/

namespace DelaunaySurface

/-- The laws of order that rounded numbers keep. -/
structure Scalar.LawfulOrder (α : Type) [Scalar α] : Prop where
  irrefl : ∀ a : α, ¬a < a
  trans : ∀ {a b c : α}, a < b → b < c → a < c
  neg_lt : ∀ {a b : α}, a < 0 → 0 ≤ b → a < b
  undefined : ∀ {a b : α}, Scalar.isUndefined a = true → ¬a < b
  nonneg : ∀ {a : α}, Scalar.isUndefined a = false → ¬a < 0 → 0 ≤ a

namespace Scalar.LawfulOrder

variable {α : Type} [Scalar α] {a b : α}

theorem not_neg (h : LawfulOrder α) (ha : 0 ≤ a) : ¬a < 0 := fun hneg => h.irrefl a (h.neg_lt hneg ha)

/-- If the lesser of two numbers is not below zero, neither is, undefined or not. -/
theorem not_neg_of_lesser (h : LawfulOrder α) (hlesser : ¬lesser a b < 0) : ¬a < 0 ∧ ¬b < 0 := by
  rw [lesser] at hlesser
  split at hlesser
  · rename_i hundefined
    exact ⟨hlesser, h.undefined hundefined⟩
  · rename_i hdefined
    split at hlesser
    · rename_i hlt
      exact ⟨hlesser, fun hb => hlesser (h.trans hlt hb)⟩
    · rename_i hge
      exact ⟨fun ha => hge (h.neg_lt ha (h.nonneg (Bool.eq_false_iff.2 hdefined) hlesser)), hlesser⟩

end Scalar.LawfulOrder

/-- The laws of order among defined numbers. -/
structure Scalar.DefinedOrder (α : Type) [Scalar α] : Prop where
  refl : ∀ {a : α}, Scalar.isUndefined a = false → a ≤ a
  trans : ∀ {a b c : α}, a ≤ b → b ≤ c → a ≤ c
  le_of_lt : ∀ {a b : α}, a < b → a ≤ b
  /-- Of two defined numbers one comes before the other. -/
  total : ∀ {a b : α}, Scalar.isUndefined a = false → Scalar.isUndefined b = false → ¬b < a → a ≤ b

namespace Scalar.DefinedOrder

variable {α : Type} [Scalar α] {a b : α}

/-- The lesser of two defined numbers is one of them and before both. -/
theorem lesser_spec (h : DefinedOrder α) (ha : isUndefined a = false) (hb : isUndefined b = false) :
    (lesser a b = a ∨ lesser a b = b) ∧ lesser a b ≤ a ∧ lesser a b ≤ b := by
  rw [lesser, if_neg (Bool.not_eq_true _ ▸ hb)]
  split
  · exact ⟨.inl rfl, h.refl ha, h.le_of_lt ‹_›⟩
  · exact ⟨.inr rfl, h.total hb ha ‹_›, h.refl hb⟩

theorem greater_spec (h : DefinedOrder α) (ha : isUndefined a = false) (hb : isUndefined b = false) :
    (greater a b = a ∨ greater a b = b) ∧ a ≤ greater a b ∧ b ≤ greater a b := by
  rw [greater, if_neg (Bool.not_eq_true _ ▸ hb)]
  split
  · exact ⟨.inl rfl, h.refl ha, h.le_of_lt ‹_›⟩
  · exact ⟨.inr rfl, h.total ha hb ‹_›, h.refl hb⟩

end Scalar.DefinedOrder

/-- The laws of equality that rounded numbers keep: an undefined one does not equal itself. -/
structure Scalar.LawfulEquality (α : Type) [Scalar α] : Prop where
  symm : ∀ {a b : α}, (a == b) = true → (b == a) = true
  trans : ∀ {a b c : α}, (a == b) = true → (b == c) = true → (a == c) = true

/-! ## Exact numbers -/

theorem Scalar.lawful_rat : Scalar.LawfulOrder Rat where
  irrefl a := lt_irrefl a
  trans hab hbc := lt_trans hab hbc
  neg_lt ha hb := lt_of_lt_of_le ha hb
  undefined ha := nomatch ha
  nonneg _ h := not_lt.1 h

/-! ## Doubles -/

namespace Double

open Float.Model

variable {u v : UnpackedFloat}

/-- The place of a number in the order: first by its sign, with the infinities outermost, then by its exponent, then by its
mantissa. -/
def rank : UnpackedFloat → Int ×ₗ Int ×ₗ Int
  | .notANumber | .zero _ => toLex (0, toLex (0, 0))
  | .finite .positive m e _ => toLex (1, toLex (e, (m : Int)))
  | .finite .negative m e _ => toLex (-1, toLex (-e, -(m : Int)))
  | .infinity .positive => toLex (2, toLex (0, 0))
  | .infinity .negative => toLex (-2, toLex (0, 0))

theorem then_eq_lt_iff (m n : Nat) (e f : Int) : (compare e f).then (compare m n) = .lt ↔ e < f ∨ e = f ∧ m < n := by
  rw [Ordering.then_eq_lt, Int.compare_eq_lt, Int.compare_eq_eq, Nat.compare_eq_lt]

theorem then_eq_gt_iff (m n : Nat) (e f : Int) : (compare e f).then (compare m n) = .gt ↔ f < e ∨ e = f ∧ n < m := by
  rw [Ordering.then_eq_gt, Int.compare_eq_gt, Int.compare_eq_eq, Nat.compare_eq_gt]

theorem compare_sign_eq_lt_iff (s t : UnpackedFloat.Sign) : compare s t = .lt ↔ s = .negative ∧ t = .positive := by
  cases s <;> cases t <;> simp +decide

/-- Numbers compare by their places. -/
theorem compare_eq_lt_iff : u.compare v = some .lt ↔ u ≠ .notANumber ∧ v ≠ .notANumber ∧ rank u < rank v := by
  cases u with
  | notANumber => simp [UnpackedFloat.compare]
  | zero s => cases v with
    | notANumber | zero => simp [UnpackedFloat.compare, rank]
    | infinity t | finite t => cases t <;> simp [UnpackedFloat.compare, rank, Prod.Lex.toLex_lt_toLex]
  | infinity s => cases v with
    | notANumber => cases s <;> simp [UnpackedFloat.compare]
    | zero t => cases s <;> simp [UnpackedFloat.compare, rank, Prod.Lex.toLex_lt_toLex]
    | infinity t =>
      cases s <;> cases t <;> simp [UnpackedFloat.compare, compare_sign_eq_lt_iff, rank, Prod.Lex.toLex_lt_toLex]
    | finite t => cases s <;> cases t <;> simp [UnpackedFloat.compare, rank, Prod.Lex.toLex_lt_toLex]
  | finite s m e hm => cases v with
    | notANumber => cases s <;> simp [UnpackedFloat.compare]
    | zero t => cases s <;> simp [UnpackedFloat.compare, rank, Prod.Lex.toLex_lt_toLex]
    | infinity t => cases s <;> cases t <;> simp [UnpackedFloat.compare, rank, Prod.Lex.toLex_lt_toLex]
    | finite t n f hn =>
      cases s <;> cases t
      case negative.negative => simp [UnpackedFloat.compare, then_eq_gt_iff, rank, Prod.Lex.toLex_lt_toLex]
      case positive.positive => simp [UnpackedFloat.compare, then_eq_lt_iff, rank, Prod.Lex.toLex_lt_toLex]
      all_goals simp [UnpackedFloat.compare, rank, Prod.Lex.toLex_lt_toLex]

/-- Numbers at one place compare equal. -/
theorem compare_eq_eq_iff : u.compare v = some .eq ↔ u ≠ .notANumber ∧ v ≠ .notANumber ∧ rank u = rank v := by
  have hkey (m n : Nat) (e f : Int) : (compare e f).then (compare m n) = .eq ↔ e = f ∧ m = n := by
    rw [Ordering.then_eq_eq, Int.compare_eq_eq, Nat.compare_eq_eq]
  cases u with
  | notANumber => simp [UnpackedFloat.compare]
  | zero s => cases v with
    | notANumber | zero => simp [UnpackedFloat.compare, rank]
    | infinity t | finite t => cases t <;> simp [UnpackedFloat.compare, rank]
  | infinity s => cases v with
    | notANumber => cases s <;> simp [UnpackedFloat.compare]
    | zero t => cases s <;> simp [UnpackedFloat.compare, rank]
    | infinity t => cases s <;> cases t <;> simp +decide
    | finite t => cases s <;> cases t <;> simp [UnpackedFloat.compare, rank]
  | finite s m e hm => cases v with
    | notANumber => cases s <;> simp [UnpackedFloat.compare]
    | zero t => cases s <;> simp [UnpackedFloat.compare, rank]
    | infinity t => cases s <;> cases t <;> simp [UnpackedFloat.compare, rank]
    | finite t n f hn => cases s <;> cases t <;> simp [UnpackedFloat.compare, hkey, rank]

theorem lt_iff_rank {x y : Float} : x < y ↔ value x ≠ .notANumber ∧ value y ≠ .notANumber ∧ rank (value x) < rank (value y) :=
  lt_iff_compare.trans compare_eq_lt_iff

theorem le_iff_rank {x y : Float} : x ≤ y ↔ value x ≠ .notANumber ∧ value y ≠ .notANumber ∧ rank (value x) ≤ rank (value y) := by
  have hany (o : Option Ordering) : o.any (·.isLE) = true ↔ o = some .lt ∨ o = some .eq := by
    cases o with
    | none => simp
    | some o => cases o <;> simp
  rw [le_iff_compare, hany, compare_eq_lt_iff, compare_eq_eq_iff, le_iff_lt_or_eq]
  tauto

theorem beq_iff_rank {x y : Float} :
    (x == y) = true ↔ value x ≠ .notANumber ∧ value y ≠ .notANumber ∧ rank (value x) = rank (value y) := by
  change ((value x).compare (value y) == some .eq) = true ↔ _
  rw [beq_iff_eq, compare_eq_eq_iff]

theorem isNaN_iff {x : Float} : x.isNaN = true ↔ value x = .notANumber := by
  change (value x).isNaN = true ↔ _
  cases value x <;> simp [UnpackedFloat.isNaN]

theorem neg_iff {x : Float} : x < 0 ↔ side x = some .lt := by
  rw [lt_iff_compare]
  change (value x).compare (.zero .positive) = _ ↔ _
  rw [compare_zero, side]

theorem compare_of_sides (hu : sideOf u = some .lt) (hv : Nonneg v) : u.compare v = some .lt := by
  cases u with
  | notANumber | zero => cases hu
  | infinity s | finite s =>
    cases s <;> cases hu
    cases hv <;> rfl

/-- Doubles keep the laws, infinite and undefined ones included. -/
theorem lawful_float : Scalar.LawfulOrder Float where
  irrefl _ h := lt_irrefl _ (lt_iff_rank.1 h).2.2
  trans hab hbc := by
    rw [lt_iff_rank] at hab hbc ⊢
    exact ⟨hab.1, hbc.2.1, hab.2.2.trans hbc.2.2⟩
  neg_lt {a b} ha hb := by
    rw [neg_iff] at ha
    rw [nonneg_iff_value] at hb
    exact lt_iff_compare.2 (compare_of_sides ha hb)
  undefined ha h := (lt_iff_rank.1 h).1 (isNaN_iff.1 ha)
  nonneg {a} ha h := by
    rw [neg_iff, side] at h
    rw [nonneg_iff, side]
    have hdefined : sideOf (value a) ≠ none := fun hnone => Bool.eq_false_iff.1 ha (isNaN_iff.2 (sideOf_eq_none hnone))
    cases ho : sideOf (value a) with
    | none => exact absurd ho hdefined
    | some o => cases o with
      | lt => exact absurd ho h
      | eq => exact .inr rfl
      | gt => exact .inl rfl

theorem isNaN_eq_false_iff {x : Float} : x.isNaN = false ↔ value x ≠ .notANumber := by
  rw [← Bool.not_eq_true, isNaN_iff]

theorem definedOrder_float : Scalar.DefinedOrder Float where
  refl ha := le_iff_rank.2 ⟨isNaN_eq_false_iff.1 ha, isNaN_eq_false_iff.1 ha, le_refl _⟩
  trans hab hbc := by
    rw [le_iff_rank] at hab hbc ⊢
    exact ⟨hab.1, hbc.2.1, hab.2.2.trans hbc.2.2⟩
  le_of_lt h := by
    rw [lt_iff_rank] at h
    exact le_iff_rank.2 ⟨h.1, h.2.1, h.2.2.le⟩
  total ha hb h := by
    rw [lt_iff_rank] at h
    have ha := isNaN_eq_false_iff.1 ha
    have hb := isNaN_eq_false_iff.1 hb
    exact le_iff_rank.2 ⟨ha, hb, not_lt.1 fun hlt => h ⟨hb, ha, hlt⟩⟩

theorem lawfulEquality_float : Scalar.LawfulEquality Float where
  symm h := by
    rw [beq_iff_rank] at h ⊢
    exact ⟨h.2.1, h.1, h.2.2.symm⟩
  trans hab hbc := by
    rw [beq_iff_rank] at hab hbc ⊢
    exact ⟨hab.1, hbc.2.1, hab.2.2.trans hbc.2.2⟩

end Double

end DelaunaySurface
