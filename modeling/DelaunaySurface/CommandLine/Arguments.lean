import DelaunaySurface.PointFile.Layout
import DelaunaySurface.Surface.Settings
/-!
# Arguments

What the command line asks for: a command, a file of points and options, or a reason to stop.
-/

namespace DelaunaySurface.CommandLine

def usage : String :=
"graph2d_cli (graph2d-engine)

USAGE:
  graph2d_cli <command> <points-file> [options]

COMMANDS:
  sample      Interpolate on the npx x npy histogram grid (\"x y z\" per cell)
  value       Interpolate at the points given with --at
  triangles   List the Delaunay triangles as point indices
  hull        List the convex hull vertices, counter-clockwise
  contour     Trace the contour lines at --level

OPTIONS:
  --npx <n>               Bins along x (4..=500, default 40)
  --npy <n>               Bins along y (4..=500, default 40)
  --margin <f>            Fraction of the data range added on each side (0..=1)
  --margin-value <f>      Value outside the convex hull (default 0)
  --engine <name>         delaunay (walking locator) or legacy (scan)
  --delimiters <chars>    Characters separating the columns (default whitespace)
  --columns <a,b,c>       One-based columns holding x, y and z (default 1,2,3)
  --dedup                 Drop points whose (x, y) repeats an earlier one
  --max-iter <n>          Cavity operations allowed for the whole build
  --level <f>             Contour level (contour only)
  --at <x,y>              Query point (value only; repeatable)
  -h, --help              Show this help

Set RUST_LOG (e.g. RUST_LOG=debug) for diagnostics on stderr.
"

/-- What is to be written. -/
inductive Command
  | sample
  /-- Heights at given points. -/
  | value
  | triangles
  | hull
  | contour
  deriving DecidableEq, Repr

def Command.ofName? : String → Option Command
  | "sample" => some sample
  | "value" => some value
  | "triangles" => some triangles
  | "hull" => some hull
  | "contour" => some contour
  | _ => none

/-- What is wrong with the arguments. -/
inductive Fault
  | unknownCommand (name : String)
  | noFile
  | unknownOption (name : String)
  | noValue (option : String)
  | badValue (text option : String)
  | badPair (text : String)
  | unknownStrategy (name : String)
  | columns (problem : PointFile.Problem)

def Fault.message : Fault → String
  | .unknownCommand name => s!"unknown command `{name}`\n\n" ++ usage
  | .noFile => "missing points file"
  | .unknownOption name => s!"unknown option `{name}`\n\n" ++ usage
  | .noValue option => s!"missing value for {option}"
  | .badValue text option => s!"invalid value `{text}` for {option}"
  | .badPair text => s!"expected x,y but got `{text}`"
  | .unknownStrategy name => Strategy.unknownName name
  | .columns problem => problem.message

/-- Why arguments do not lead to a command. -/
inductive Stop
  | help
  | fault (f : Fault)

/-- All that options choose. -/
structure Options where
  /-- How points are laid out in the file. -/
  layout : PointFile.Layout
  settings : Settings Float
  /-- Later points at a place are dropped. -/
  dedup : Bool
  level : Option Float
  /-- Where heights are asked for. -/
  queries : List (Point Float)

def Options.standard : Options := ⟨.standard, .standard, false, none, []⟩

def countValue (text option : String) : Except Stop Nat :=
  match readCount? (Text.trim text.toList) with
  | some n => .ok n
  | none => .error (.fault (.badValue text option))

def numberValue (text option : String) : Except Stop Float :=
  match Double.read? (Text.trim text.toList) with
  | some a => .ok a
  | none => .error (.fault (.badValue text option))

/-- Reads two numbers with a comma between them; the first comma counts. -/
def pairValue (text option : String) : Except Stop (Point Float) :=
  let cs := text.toList
  match cs.dropWhile (· ≠ ',') with
  | [] => .error (.fault (.badPair text))
  | _ :: rest => do
    let x ← numberValue (String.ofList (cs.takeWhile (· ≠ ','))) option
    let y ← numberValue (String.ofList rest) option
    return ⟨x, y⟩

/-- The options that take a value, with what the value does. -/
def withValue? (name : String) : Option (Options → String → Except Stop Options) :=
  match name with
  | "--npx" => some fun o v => do
    let n ← countValue v name
    return { o with settings.histogram := o.settings.histogram.withColumns n }
  | "--npy" => some fun o v => do
    let n ← countValue v name
    return { o with settings.histogram := o.settings.histogram.withRows n }
  | "--margin" => some fun o v => do
    let a ← numberValue v name
    return { o with settings.histogram := o.settings.histogram.withMargin a }
  | "--margin-value" => some fun o v => do
    let a ← numberValue v name
    return { o with settings.marginValue := ⟨a, 0⟩ }
  | "--engine" => some fun o v =>
    match Strategy.ofName v with
    | .ok s => .ok { o with settings.strategy := s }
    | .error other => .error (.fault (.unknownStrategy other))
  | "--delimiters" => some fun o v => .ok { o with layout.delimiters := some v.toList }
  | "--columns" => some fun o v =>
    match PointFile.readColumns v with
    | .ok columns => .ok { o with layout.columns := columns }
    | .error problem => .error (.fault (.columns problem))
  | "--max-iter" => some fun o v => do
    let n ← countValue v name
    return { o with settings.build.budget := n }
  | "--level" => some fun o v => do
    let a ← numberValue v name
    return { o with level := some a }
  | "--at" => some fun o v => do
    let p ← pairValue v name
    return { o with queries := o.queries ++ [p] }
  | _ => none

/-- Reads options from left to right; the first fault or call for help counts. -/
def readOptions (o : Options) : List String → Except Stop Options
  | [] => .ok o
  | name :: rest =>
    match withValue? name with
    | some apply =>
      match rest with
      | [] => .error (.fault (.noValue name))
      | value :: rest =>
        match apply o value with
        | .ok o => readOptions o rest
        | .error stop => .error stop
    | none =>
      if name = "--dedup" then readOptions { o with dedup := true } rest
      else if name = "-h" ∨ name = "--help" then .error .help
      else .error (.fault (.unknownOption name))

structure Request where
  command : Command
  path : String
  options : Options

def readArguments : List String → Except Stop Request
  | [] => .error .help
  | name :: rest =>
    if name = "-h" ∨ name = "--help" ∨ name = "help" then .error .help
    else
      match Command.ofName? name, rest with
      | none, _ => .error (.fault (.unknownCommand name))
      | some _, [] => .error (.fault .noFile)
      | some command, path :: rest =>
        match readOptions .standard rest with
        | .ok options => .ok ⟨command, path, options⟩
        | .error stop => .error stop

end DelaunaySurface.CommandLine
