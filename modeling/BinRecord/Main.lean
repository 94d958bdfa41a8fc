/-
The program: it looks up the paths that its arguments name, runs the command on what is there, and
puts out how the run ends. Arguments are read under the rules as they are now, and texts with the
standard codecs.
-/
import BinRecord.Command.Run
import BinRecord.Text.StandardCodecs

namespace BinRecord

/-- Looks a path up among the files of the system. -/
def lookUp (path : String) : IO (Except PathFault FileEntry) := do
  try
    let content ← IO.FS.readBinFile path
    return .ok (.file content.toList)
  catch
    | .noFileOrDirectory .. => return .error .missing
    | .inappropriateType _ code _ =>
      return if code.toNat = PathFault.isDirectory.number then .ok .directory
        else .error .notDirectory
    | other => throw other

/-- Looks up the paths that some arguments name. -/
def lookUpAll (arguments : List String) : IO Lookup := do
  match Invocation.ofArguments .later arguments with
  | .error _ => return fun _ => .error .missing
  | .ok invocation =>
    let found ← invocation.paths.mapM fun path => return (path, ← lookUp path)
    return fun path => (found.lookup path).getD (.error .missing)

/-- Puts out how a run ends, and gives its exit code. -/
def Outcome.putOut (outcome : Outcome) : IO UInt32 := do
  let out ← IO.getStdout
  let err ← IO.getStderr
  out.putStr outcome.output
  out.flush
  if let some (path, content) := outcome.written then
    IO.FS.writeFile path content
  for line in outcome.report.allLines do
    err.putStrLn line
  return UInt32.ofNat outcome.exitCode

end BinRecord

/-- Runs the program. -/
def main (arguments : List String) : IO UInt32 := do
  let look ← BinRecord.lookUpAll arguments
  (BinRecord.Invocation.runArguments .later look arguments).putOut
