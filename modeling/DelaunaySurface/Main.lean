import DelaunaySurface.CommandLine.Report
/-!
# The program

Reads the file that the arguments name and writes the answer.
-/

namespace DelaunaySurface.CommandLine

/-- The bytes of a file, or why there are none. -/
def contentOf (path : String) : IO (Except PointFile.FileFault (List UInt8)) := do
  try
    let bytes ← IO.FS.readBinFile path
    return .ok bytes.toList
  catch
    | .noFileOrDirectory .. => return .error .missing
    | .inappropriateType _ 21 _ => return .error .directory
    | .inappropriateType .. => return .error (.other "Not a directory (os error 20)")
    | .permissionDenied .. => return .error (.other "Permission denied (os error 13)")
    | other => return .error (.other other.toString)

def outcomeOf (arguments : List String) : IO Outcome := do
  match readArguments arguments with
  | .error stop => return stopped stop
  | .ok r => return answer r (← contentOf r.path)

end DelaunaySurface.CommandLine

open DelaunaySurface.CommandLine in
def main (arguments : List String) : IO UInt32 := do
  let outcome ← outcomeOf arguments
  (← IO.getStdout).putStr outcome.stdout
  (← IO.getStdout).flush
  (← IO.getStderr).putStr outcome.stderr
  return outcome.exit.toUInt32
