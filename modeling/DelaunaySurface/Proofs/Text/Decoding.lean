import DelaunaySurface.Text.Blank
import DelaunaySurface.Text.Utf8
import Mathlib.Data.List.Basic
import Mathlib.Data.List.TakeWhile
import Mathlib.Tactic.SplitIfs
/-!
# Decoding bytes

A character that has begun only ever waits for a byte outside ASCII. So an ASCII byte stands for itself wherever it comes, also
after bytes that are no character (`decode_concat`).
-/

namespace DelaunaySurface.Text

/-! ## ASCII bytes -/

namespace Decoder

/-- The character that has begun, if any, goes on with a byte outside ASCII. -/
def Waits (d : Decoder) : Prop := ∀ l ∈ d.pending, 0x80 ≤ l.low

theorem low_of_lead? {b : Nat} {l : Lead} (h : lead? b = some l) : 0x80 ≤ l.low := by
  rw [lead?] at h
  split_ifs at h
  all_goals
    obtain rfl := Option.some.inj h
    exact Nat.le_of_ble_eq_true rfl

theorem waits_first (done : List Char) (b : Nat) : (first done b).Waits := by
  rw [first]
  split
  · exact nofun
  · next l hl =>
    split
    · exact nofun
    · exact fun m hm => Option.some.inj hm ▸ low_of_lead? hl

theorem Waits.feed {d : Decoder} (b : UInt8) : (d.feed b).Waits := by
  rw [Decoder.feed]
  split
  · exact waits_first _ _
  · dsimp only
    split
    · split
      · exact nofun
      · exact fun m hm => Option.some.inj hm ▸ Nat.le_refl _
    · exact waits_first _ _

theorem waits_foldl (bytes : List UInt8) : (bytes.foldl Decoder.feed start).Waits :=
  List.foldlRecOn bytes _ nofun fun _ _ b _ => Waits.feed b

/-- An ASCII byte breaks off what has begun and stands for itself. -/
theorem finish_feed {d : Decoder} (h : d.Waits) {b : UInt8} (hb : b.toNat < 0x80) :
    (d.feed b).finish = d.finish ++ [Char.ofNat b.toNat] := by
  have hfirst (done : List Char) : first done b.toNat = ⟨Char.ofNat b.toNat :: done, none⟩ := by
    rw [first, lead?, if_pos hb]
    rfl
  obtain ⟨done, pending⟩ := d
  cases pending with
  | none =>
    change (first done b.toNat).finish = _
    rw [hfirst]
    exact List.reverse_cons
  | some l =>
    -- The byte is below all that the character waits for.
    have hlow : 0x80 ≤ l.low := h l rfl
    change (if l.low ≤ b.toNat ∧ b.toNat ≤ l.high then _ else first (replacement :: done) b.toNat).finish = _
    rw [if_neg (by omega), hfirst]
    exact List.reverse_cons

end Decoder

theorem decode_concat (bytes : List UInt8) {b : UInt8} (hb : b.toNat < 0x80) :
    decode (bytes ++ [b]) = decode bytes ++ [Char.ofNat b.toNat] := by
  rw [decode, List.foldl_concat]
  exact Decoder.finish_feed (Decoder.waits_foldl bytes) hb

/-! ## Blank text -/

variable {p q : Char → Bool}

theorem dropEndWhile_concat {c : Char} (hc : p c = true) (cs : List Char) : dropEndWhile p (cs ++ [c]) = dropEndWhile p cs := by
  rw [dropEndWhile, List.reverse_concat, List.dropWhile_cons_of_pos hc, dropEndWhile]

theorem isEmpty_dropWhile (cs : List Char) : (cs.dropWhile p).isEmpty = cs.all p := by
  rw [Bool.eq_iff_iff, List.isEmpty_iff, List.dropWhile_eq_nil_iff, List.all_eq_true]

theorem all_dropWhile (h : ∀ c, p c = true → q c = true) (cs : List Char) : (cs.dropWhile p).all q = cs.all q := by
  induction cs with
  | nil => rfl
  | cons c cs ih =>
    rw [List.dropWhile_cons]
    split
    · next hc => rw [ih, List.all_cons, h c hc, Bool.true_and]
    · rfl

theorem all_dropEndWhile (h : ∀ c, p c = true → q c = true) (cs : List Char) : (dropEndWhile p cs).all q = cs.all q := by
  rw [dropEndWhile, List.all_reverse, all_dropWhile h, List.all_reverse]

/-- Nothing is left of a text exactly when all of it is blank. -/
theorem isEmpty_trim (cs : List Char) : (trim cs).isEmpty = cs.all isBlank := by
  rw [trim, dropEndWhile, List.isEmpty_reverse, isEmpty_dropWhile, List.all_reverse, all_dropWhile fun _ => id]

end DelaunaySurface.Text
