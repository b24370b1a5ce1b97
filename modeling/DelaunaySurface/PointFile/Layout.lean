import DelaunaySurface.Double.Numeral
import DelaunaySurface.Text.Blank
import DelaunaySurface.Triple
/-!
# The layout of point files

How lines are split and which columns hold the coordinates, and what can be wrong with that or with
the file.
-/

namespace DelaunaySurface.PointFile

/-- What is wrong with a choice of columns. -/
inductive ColumnFault
  /-- This part of the list is no column number. -/
  | notANumber (part : String)
  /-- The list names another number of columns than three. -/
  | count (n : Nat)
  /-- Two columns are the same. -/
  | repeated (columns : Triple Nat)
  deriving DecidableEq, Repr

/-- Why a file has no bytes to read. -/
inductive FileFault
  | missing
  | directory
  /-- Anything else, as the system reports it. -/
  | other (report : String)
  deriving DecidableEq, Repr

def FileFault.message : FileFault → String
  | .missing => "No such file or directory (os error 2)"
  | .directory => "Is a directory (os error 21)"
  | .other report => report

/-- Why points were not read. -/
inductive Problem
  | file (fault : FileFault)
  /-- The set of delimiters is empty. -/
  | noDelimiters
  | columns (fault : ColumnFault)
  deriving DecidableEq, Repr

/-- The report of a problem. Columns are counted from one. -/
def Problem.message : Problem → String
  | .file fault => "I/O error: " ++ fault.message
  | .noDelimiters => "invalid delimiter set: no delimiter characters given"
  | .columns (.notANumber part) => s!"invalid column selection: '{part}' is not a column number"
  | .columns (.count n) => s!"invalid column selection: expected three columns, got {n}"
  | .columns (.repeated c) =>
    s!"invalid column selection: columns must differ, got {c.fst + 1}, {c.snd + 1}, {c.trd + 1}"

/-- How points are laid out in a file. -/
structure Layout where
  /-- The characters between tokens, any number of them; blanks when not given. -/
  delimiters : Option (List Char)
  /-- The tokens that hold x, y and z, counted from zero. -/
  columns : Triple Nat
  deriving DecidableEq, Repr

/-- Blanks between tokens, and the first three tokens. -/
def Layout.standard : Layout := ⟨none, ⟨0, 1, 2⟩⟩

def checkColumns (c : Triple Nat) : Except Problem Unit :=
  if c.fst = c.snd ∨ c.snd = c.trd ∨ c.fst = c.trd then .error (.columns (.repeated c)) else .ok ()

/-- Reads column numbers, counted from one, up to the first part that is none. -/
def readColumnNumbers : List (List Char) → Except Problem (List Nat)
  | [] => .ok []
  | part :: rest =>
    match readCount? (Text.trim part) with
    | some (n + 1) => (readColumnNumbers rest).map (n :: ·)
    | _ => .error (.columns (.notANumber (String.ofList part)))

/-- Reads a list such as `3,1,2` of three different columns, counted from one. -/
def readColumns (text : String) : Except Problem (Triple Nat) := do
  let columns ← readColumnNumbers (Text.split (· = ',') text.toList)
  match columns with
  | [x, y, z] =>
    checkColumns ⟨x, y, z⟩
    return ⟨x, y, z⟩
  | _ => throw (.columns (.count columns.length))

/-- Accepts different columns and, where delimiters are given, at least one. -/
def Layout.check (l : Layout) : Except Problem Unit := do
  checkColumns l.columns
  if l.delimiters = some [] then throw .noDelimiters

def Layout.separates (l : Layout) (c : Char) : Bool :=
  match l.delimiters with
  | none => Text.isBlank c
  | some ds => ds.contains c

end DelaunaySurface.PointFile
