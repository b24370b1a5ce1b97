/-!
# Blank characters

The characters with the Unicode property `White_Space`, and what is done with them: taking them off
both ends, and splitting text into parts.
-/

namespace DelaunaySurface.Text

/-- The code points with the property `White_Space`, as closed ranges. -/
def blankRanges : List (Nat × Nat) :=
  [(0x09, 0x0D), (0x20, 0x20), (0x85, 0x85), (0xA0, 0xA0), (0x1680, 0x1680), (0x2000, 0x200A),
    (0x2028, 0x2029), (0x202F, 0x202F), (0x205F, 0x205F), (0x3000, 0x3000)]

def isBlank (c : Char) : Bool :=
  blankRanges.any fun r => r.1 ≤ c.toNat && c.toNat ≤ r.2

/-- The text without the characters of a kind at its end. -/
def dropEndWhile (p : Char → Bool) (cs : List Char) : List Char :=
  (cs.reverse.dropWhile p).reverse

/-- The text without blanks at both ends. -/
def trim (cs : List Char) : List Char :=
  dropEndWhile isBlank (cs.dropWhile isBlank)

/-- The parts between separators; there is one more part than separators. -/
def split (separates : Char → Bool) (cs : List Char) : List (List Char) :=
  cs.foldr (fun c parts =>
    match parts with
    | part :: rest => if separates c then [] :: parts else (c :: part) :: rest
    | [] => [[c]]) [[]]

/-- The parts between separators, trimmed, without those that are blank. -/
def tokens (separates : Char → Bool) (cs : List Char) : List (List Char) :=
  ((split separates cs).map trim).filter (!·.isEmpty)

end DelaunaySurface.Text
