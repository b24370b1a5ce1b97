/-!
# Decoding UTF-8

Bytes become characters; each stretch that cannot begin or continue a character is replaced by one
U+FFFD. Such a stretch is as long as it still agrees with the beginning of some character.
-/

namespace DelaunaySurface.Text

/-- What the first byte of a character announces. -/
structure Lead where
  /-- The bits it contributes. -/
  bits : Nat
  /-- How many bytes follow. -/
  more : Nat
  /-- Least value of the next byte. -/
  low : Nat
  /-- Greatest value of the next byte. -/
  high : Nat

/-- Reads a first byte. The bounds on the next one rule out overlong forms, surrogates and code
points past U+10FFFF. -/
def lead? (b : Nat) : Option Lead :=
  if b < 0x80 then some ⟨b, 0, 0x80, 0xBF⟩
  else if 0xC2 ≤ b ∧ b ≤ 0xDF then some ⟨b - 0xC0, 1, 0x80, 0xBF⟩
  else if b = 0xE0 then some ⟨0, 2, 0xA0, 0xBF⟩
  else if b = 0xED then some ⟨0xD, 2, 0x80, 0x9F⟩
  else if 0xE1 ≤ b ∧ b ≤ 0xEF then some ⟨b - 0xE0, 2, 0x80, 0xBF⟩
  else if b = 0xF0 then some ⟨0, 3, 0x90, 0xBF⟩
  else if 0xF1 ≤ b ∧ b ≤ 0xF3 then some ⟨b - 0xF0, 3, 0x80, 0xBF⟩
  else if b = 0xF4 then some ⟨4, 3, 0x80, 0x8F⟩
  else none

def replacement : Char := '\uFFFD'

/-- A decoder between two bytes. -/
structure Decoder where
  /-- The characters so far, the last one first. -/
  done : List Char
  /-- The character that has begun; its bits are those read so far. -/
  pending : Option Lead

namespace Decoder

def start : Decoder := ⟨[], none⟩

/-- Takes a byte as the first one of a character. -/
def first (d : List Char) (b : Nat) : Decoder :=
  match lead? b with
  | none => ⟨replacement :: d, none⟩
  | some l => if l.more = 0 then ⟨Char.ofNat l.bits :: d, none⟩ else ⟨d, some l⟩

/-- Takes the next byte. One that cannot continue the character that has begun breaks it off, and is
looked at again as a first byte. -/
def feed (d : Decoder) (byte : UInt8) : Decoder :=
  let b := byte.toNat
  match d.pending with
  | none => first d.done b
  | some l =>
    if l.low ≤ b ∧ b ≤ l.high then
      let bits := l.bits * 64 + (b - 0x80)
      if l.more = 1 then ⟨Char.ofNat bits :: d.done, none⟩
      else { d with pending := some ⟨bits, l.more - 1, 0x80, 0xBF⟩ }
    else first (replacement :: d.done) b

/-- All characters, with a replacement for one that has only begun. -/
def finish (d : Decoder) : List Char :=
  match d.pending with
  | none => d.done.reverse
  | some _ => (replacement :: d.done).reverse

end Decoder

/-- Decodes bytes, putting one replacement character for each stretch that is no character. -/
def decode (bytes : List UInt8) : List Char :=
  (bytes.foldl Decoder.feed Decoder.start).finish

end DelaunaySurface.Text
