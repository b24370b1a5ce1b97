import DelaunaySurface.PointFile.Layout
import DelaunaySurface.Samples.Basic
import DelaunaySurface.Text.Utf8
/-!
# Reading point files

One sample a line. Each line is judged on its own: blank lines do not count, and lines without three
finite numbers in the chosen columns are skipped and reported by their numbers.
-/

namespace DelaunaySurface.PointFile

/-- What a line holds. -/
inductive Line
  | blank
  | accepted (p : Sample Float)
  | skipped

def Line.sample? : Line → Option (Sample Float)
  | accepted p => some p
  | _ => none

def Line.isSkipped : Line → Bool
  | skipped => true
  | _ => false

/-- Splits bytes into lines, each with the line feed that ends it. -/
def lines (bytes : List UInt8) : List (List UInt8) :=
  bytes.foldr (fun b ls =>
    match ls with
    | l :: rest => if b = 0x0A then [b] :: ls else (b :: l) :: rest
    | [] => [[b]]) []

/-- Splitting into lines loses nothing. -/
theorem flatten_lines (bytes : List UInt8) : (lines bytes).flatten = bytes := by
  induction bytes with
  | nil => rfl
  | cons b bytes ih =>
    change (match lines bytes with
      | l :: rest => if b = 0x0A then [b] :: lines bytes else (b :: l) :: rest
      | [] => [[b]]).flatten = b :: bytes
    split
    · next l rest h =>
      rw [h] at ih ⊢
      split <;> simp_all
    · next h =>
      rw [h] at ih
      simp_all

/-- The finite number that a token stands for. -/
def finite? (token : List Char) : Option Float :=
  (Double.read? token).filter Float.isFinite

def judge (l : Layout) (bytes : List UInt8) : Line :=
  let text := Text.dropEndWhile (fun c => c = '\n' || c = '\r') (Text.decode bytes)
  if (Text.trim text).isEmpty then .blank
  else
    let tokens := Text.tokens l.separates text
    let value (column : Nat) := tokens[column]?.bind finite?
    match value l.columns.fst, value l.columns.snd, value l.columns.trd with
    | some x, some y, some z => .accepted ⟨x, y, z⟩
    | _, _, _ => .skipped

/-- What was read. -/
structure Reading where
  /-- The samples of accepted lines in order. -/
  samples : Samples Float
  accepted : Nat
  skipped : Nat
  /-- The numbers of skipped lines, counted from one over all lines. -/
  skippedLines : List Nat

/-- Sums up judged lines. -/
def Reading.ofLines (ls : List Line) : Reading :=
  let samples := ls.filterMap Line.sample?
  let skippedLines := ls.zipIdx.filterMap fun (l, i) => if l.isSkipped then some (i + 1) else none
  { samples := Samples.ofList samples
    accepted := samples.length
    skipped := skippedLines.length
    skippedLines }

def readBytes (l : Layout) (bytes : List UInt8) : Except Problem Reading := do
  l.check
  return Reading.ofLines ((lines bytes).map (judge l))

/-- Reads points from a file. A directory can be opened, so that a faulty layout is reported before it. -/
def readFile (l : Layout) : Except FileFault (List UInt8) → Except Problem Reading
  | .ok bytes => readBytes l bytes
  | .error .directory => do
    l.check
    throw (.file .directory)
  | .error fault => .error (.file fault)

end DelaunaySurface.PointFile
