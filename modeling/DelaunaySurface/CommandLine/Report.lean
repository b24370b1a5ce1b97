import DelaunaySurface.CommandLine.Arguments
import DelaunaySurface.Double.Shortest
import DelaunaySurface.PointFile.Reader
import DelaunaySurface.Surface.Basic
/-!
# The answer to a command

A run ends with an exit code and what it wrote: the answer on one stream, or one report on the other.
Writing is held back in lines until the command is done or fails.
-/

namespace DelaunaySurface.CommandLine

/-- How a run ends. -/
structure Outcome where
  /-- Zero on success. -/
  exit : Nat
  stdout : String
  stderr : String
  deriving DecidableEq, Repr

/-- How writing ended. -/
inductive Ending
  | complete
  /-- It failed, with this report. -/
  | failed (report : String)
  /-- A point outside found no hull, and the run broke off. -/
  | lost
  deriving DecidableEq, Repr

/-- The lines written, and how writing them ended. -/
structure Written where
  lines : List String
  ending : Ending
  deriving DecidableEq, Repr

namespace Written

def all (lines : List String) : Written := ⟨lines, .complete⟩

def failed (report : String) : Written := ⟨[], .failed report⟩

/-- Nothing was written before the run broke off. -/
def lost : Written := ⟨[], .lost⟩

def after (line : String) (w : Written) : Written := { w with lines := line :: w.lines }

/-- The end of a run: what was written goes out in any case. Code 1 comes with a report, code 101 means
that the run broke off. -/
def outcome (w : Written) : Outcome :=
  let stdout := String.join (w.lines.map (· ++ "\n"))
  match w.ending with
  | .complete => ⟨0, stdout, ""⟩
  | .failed report => ⟨1, stdout, "graph2d_cli error: " ++ report ++ "\n"⟩
  | .lost => ⟨101, stdout, ""⟩

end Written

/-- Numbers with one blank between them. -/
def row (numbers : List Float) : String :=
  " ".intercalate (numbers.map Double.render)

/-- The histogram: its range, if it has one, and a line for each cell. -/
def writeRaster (r : Raster Float) : List String :=
  let range := match r.least, r.greatest with
    | some low, some high => ["# min " ++ Double.render low ++ " max " ++ Double.render high]
    | _, _ => []
  let f := r.frame
  range ++ (List.range f.ny).flatMap fun j =>
    (List.range f.nx).map fun i => row [f.xCentre i, f.yCentre j, r.value i j]

/-- Heights at points one after the other; each costs the surface its place of the last answer. -/
def writeValues (s : Surface Float) : List (Point Float) → Written
  | [] => .all []
  | p :: rest =>
    match s.value? p with
    | (none, _) => .lost
    | (some (.error failure), _) => .failed failure.message
    | (some (.ok z), s) => (writeValues s rest).after (row [p.x, p.y, z])

/-- Triangles by the indices of their corners. -/
def writeTriangles (t : Triangulation) : List String :=
  t.triangles.toList.map fun c => s!"{c.fst} {c.snd} {c.trd}"

def writeHull (t : Triangulation) (s : Samples Float) : List String :=
  t.hull.map fun i =>
    let p := s.point i
    s!"{i} " ++ row [p.x, p.y]

/-- Lines at a level, each under a heading with its number, its kind and its length. -/
def writeIsolines (lines : List (Isoline Float)) : List String :=
  lines.zipIdx.flatMap fun (l, i) =>
    let kind := if l.closed then "closed" else "open"
    s!"# line {i} {kind} {l.points.length} point(s)" :: l.points.map fun p => row [p.x, p.y]

def execute (r : Request) (s : Surface Float) : Written :=
  let orReport {β : Type} (result : Except Failure β) (write : β → List String) : Written :=
    match result with
    | .ok b => .all (write b)
    | .error failure => .failed failure.message
  match r.command with
  | .sample =>
    match s.histogram? with
    | (none, _) => .lost
    | (some result, _) => orReport result writeRaster
  | .value =>
    if r.options.queries.isEmpty then .failed "value needs at least one --at x,y"
    else writeValues s r.options.queries
  | .triangles => orReport s.triangulation.1 writeTriangles
  | .hull => orReport s.triangulation.1 fun t => writeHull t s.samples
  | .contour =>
    match r.options.level with
    | none => .failed "contour needs --level"
    | some level => orReport (s.isolines level).1 writeIsolines

/-- Carries out a request, given what its file holds. -/
def answer (r : Request) (content : Except PointFile.FileFault (List UInt8)) : Outcome :=
  match PointFile.readFile r.options.layout content with
  | .error problem => (Written.failed (r.path ++ ": " ++ problem.message)).outcome
  | .ok reading =>
    let samples := if r.options.dedup then reading.samples.removeDuplicates else reading.samples
    (execute r (Surface.fresh samples r.options.settings)).outcome

/-- The end of a run that does not come to a command. -/
def stopped : Stop → Outcome
  | .help => (Written.all [usage]).outcome
  | .fault f => (Written.failed f.message).outcome

/-- A whole run, given the arguments and what files hold. -/
def run (arguments : List String) (file : String → Except PointFile.FileFault (List UInt8)) : Outcome :=
  match readArguments arguments with
  | .error stop => stopped stop
  | .ok r => answer r (file r.path)

end DelaunaySurface.CommandLine
