import Mathlib
import DelaunaySurface.Scalar
/-!
# Equality of doubles

The bits of a double as a sign, an exponent and a mantissa, and what they say about its order: two finite doubles
compare equal exactly when they have one place in the order of bits, or are both zeros (`beq_iff_bitRank`).
-/

namespace DelaunaySurface.Double

open Float.Model Float.Model.UnpackedFloat Float.Model.Format

variable {b c : BitVec 64}

/-! ## Fields -/

def signBit (b : BitVec 64) : BitVec 1 := @unpackSign binary64 b

def exponentField (b : BitVec 64) : BitVec 11 := @unpackExponent binary64 b

def fraction (b : BitVec 64) : BitVec 52 := @unpackMantissa binary64 b

theorem toNat_fields (b : BitVec 64) :
    b.toNat = (signBit b).toNat * 2 ^ 63 + (exponentField b).toNat * 2 ^ 52 + (fraction b).toNat := by
  have := b.isLt
  simp [signBit, exponentField, fraction, unpackSign, unpackExponent, unpackMantissa, BitVec.extractLsb_toNat,
    Nat.shiftRight_eq_div_pow]
  omega

/-- What the fields of a finite double stand for: a zero, a number below all normal ones, or a normal one. -/
theorem unpack_cases (h : (UnpackedFloat.unpack binary64 b).isFinite = true) :
    (exponentField b).toNat = 0 ∧ (fraction b).toNat = 0 ∧
        UnpackedFloat.unpack binary64 b = .zero (.ofBitVec (signBit b)) ∨
      (∃ hm, (exponentField b).toNat = 0 ∧
        UnpackedFloat.unpack binary64 b = .finite (.ofBitVec (signBit b)) (fraction b).toNat (-1074) hm) ∨
      ∃ hm, (exponentField b).toNat ≠ 0 ∧ UnpackedFloat.unpack binary64 b =
        .finite (.ofBitVec (signBit b)) (2 ^ 52 + (fraction b).toNat) ((exponentField b).toNat - 1075) hm := by
  have happend : (1#1 ++ fraction b).toNat = 2 ^ 52 + (fraction b).toNat := by
    rw [BitVec.toNat_append, Nat.shiftLeft_eq, Nat.mul_comm, ← Nat.two_pow_add_eq_or_of_lt (fraction b).isLt]
    rfl
  have hbias : (binary64.exponentBias : Int) + (52 : Nat) = 1075 := rfl
  have hzero : ∀ {n} (v : BitVec n), v = 0#n ↔ v.toNat = 0 := fun v => by rw [← BitVec.toNat_inj]; rfl
  simp only [UnpackedFloat.unpack, hbias] at h ⊢
  change UnpackedFloat.isFinite (if exponentField b = -1#11 then _ else _) = true at h
  split at h
  · split at h <;> cases h
  · rename_i hexp
    change _ ∧ _ ∧ (if exponentField b = -1#11 then _ else _) = _ ∨ (∃ hm, _ ∧ (if exponentField b = -1#11 then _ else _) = _) ∨
      ∃ hm, _ ∧ (if exponentField b = -1#11 then _ else _) = _
    simp only [if_neg hexp]
    split_ifs with h0 hm
    · exact .inl ⟨(hzero _).1 h0, (hzero _).1 hm, rfl⟩
    · have hexponent : (exponentField b).toNat = 0 := (hzero _).1 h0
      refine .inr (.inl ⟨Nat.pos_of_ne_zero fun e => hm ((hzero _).2 e), hexponent, ?_⟩)
      rw [finite.injEq]
      change _ ∧ _ ∧ ((exponentField b).toNat : Int) - 1075 + 1 = -1074
      exact ⟨rfl, rfl, by omega⟩
    · refine .inr (.inr ⟨by omega, fun h => h0 ((hzero _).2 h), ?_⟩)
      rw [finite.injEq]
      exact ⟨rfl, happend, rfl⟩

/-- A finite double is determined by what it stands for. -/
theorem unpack_inj (h : UnpackedFloat.unpack binary64 b = UnpackedFloat.unpack binary64 c)
    (hb : (UnpackedFloat.unpack binary64 b).isFinite = true) : b = c := by
  have hsign : ∀ v w : BitVec 1, Sign.ofBitVec v = Sign.ofBitVec w → v = w := fun v w e =>
    (by decide : ∀ v w : BitVec 1, (Sign.ofBitVec v == Sign.ofBitVec w) = true → v = w) v w
      (by rw [e]; cases Sign.ofBitVec w <;> rfl)
  have hb' := toNat_fields b
  have hc' := toNat_fields c
  have hbf := (fraction b).isLt
  have hcf := (fraction c).isLt
  apply BitVec.eq_of_toNat_eq
  rcases unpack_cases hb with ⟨_, _, hu⟩ | ⟨_, _, hu⟩ | ⟨_, _, hu⟩ <;>
    rcases unpack_cases (h ▸ hb) with ⟨_, _, hv⟩ | ⟨_, _, hv⟩ | ⟨_, _, hv⟩ <;>
    rw [hu, hv] at h <;> simp only [zero.injEq, finite.injEq, reduceCtorEq] at h
  · rw [hsign _ _ h] at hb'
    omega
  all_goals
    rw [hsign _ _ h.1] at hb'
    omega

/-- The zeros are the two doubles whose bits but the sign are all zero. -/
theorem unpack_zero_iff (h : (UnpackedFloat.unpack binary64 b).isFinite = true) :
    (∃ s, UnpackedFloat.unpack binary64 b = .zero s) ↔ b.toNat = 0 ∨ b.toNat = 2 ^ 63 := by
  have hb := toNat_fields b
  have hs := (signBit b).isLt
  rcases unpack_cases h with ⟨_, _, hu⟩ | ⟨_, _, hu⟩ | ⟨_, _, hu⟩ <;> rw [hu]
  · exact iff_of_true ⟨_, rfl⟩ (by omega)
  · exact iff_of_false nofun (by omega)
  · exact iff_of_false nofun (by omega)

/-! ## Comparison -/

theorem compare_finite (s s' : Sign) (m n : Nat) (e f : Int) (hm : 0 < m) (hn : 0 < n) :
    (finite s m e hm).compare (finite s' n f hn) = some .eq ↔ s = s' ∧ m = n ∧ e = f := by
  have hkey : (compare e f).then (compare m n) = .eq ↔ m = n ∧ e = f := by
    rw [Ordering.then_eq_eq, Int.compare_eq_eq, Nat.compare_eq_eq, and_comm]
  cases s <;> cases s' <;> simp [UnpackedFloat.compare, hkey]

theorem compare_eq_iff {u v : UnpackedFloat} (hu : u.isFinite = true) (hv : v.isFinite = true) :
    u.compare v = some .eq ↔ u = v ∨ (∃ s, u = .zero s) ∧ ∃ s, v = .zero s := by
  cases u with
  | infinity | notANumber => cases hu
  | zero s =>
    cases v with
    | infinity | notANumber => cases hv
    | zero s' => simp [UnpackedFloat.compare]
    | finite s' n f hn => cases s' <;> simp [UnpackedFloat.compare]
  | finite s m e hm =>
    cases v with
    | infinity | notANumber => cases hv
    | zero s' => cases s <;> simp [UnpackedFloat.compare]
    | finite s' n f hn => simp [compare_finite]

/-- Zero and negative zero, by their places in the order of bits. -/
def IsZero (a : Float) : Prop := bitRank a = 0 ∨ bitRank a = -1

/-- Finite doubles compare equal exactly when they have one place in the order of bits or are both zeros. -/
theorem beq_iff_bitRank {x y : Float} (hx : x.isFinite = true) (hy : y.isFinite = true) :
    (x == y) = true ↔ bitRank x = bitRank y ∨ IsZero x ∧ IsZero y := by
  have hrank : ∀ {a : Float}, (bitRank a = 0 ∨ bitRank a = -1) ↔ a.toBits.toBitVec.toNat = 0 ∨ a.toBits.toBitVec.toNat = 2 ^ 63 :=
    fun {a} => by
      have := a.toBits.toBitVec.isLt
      rw [bitRank]
      change a.toBits.toNat < 2 ^ 64 at this
      change _ ↔ a.toBits.toNat = 0 ∨ a.toBits.toNat = 2 ^ 63
      split <;> omega
  have hinj : bitRank x = bitRank y ↔ x.toBits.toBitVec = y.toBits.toBitVec := by
    rw [← BitVec.toNat_inj, bitRank, bitRank]
    change _ ↔ x.toBits.toNat = y.toBits.toNat
    split <;> split <;> omega
  change (UnpackedFloat.unpack binary64 x.toBits.toBitVec).isFinite = true at hx
  change (UnpackedFloat.unpack binary64 y.toBits.toBitVec).isFinite = true at hy
  change ((UnpackedFloat.unpack binary64 x.toBits.toBitVec).compare (UnpackedFloat.unpack binary64 y.toBits.toBitVec) ==
    some .eq) = true ↔ _
  rw [beq_iff_eq, compare_eq_iff hx hy, unpack_zero_iff hx, unpack_zero_iff hy, IsZero, IsZero, hrank, hrank, hinj]
  exact or_congr_left ⟨fun h => unpack_inj h hx, fun h => by rw [h]⟩

end DelaunaySurface.Double
