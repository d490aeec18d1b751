import DesignVars.Command.Execution

/-!
# The program

Files are those of the system, and a run ends as its transcript says.
-/

namespace DesignVars

/-- The reason for which the system refuses access to a file. -/
def FileError.ofSystem : IO.Error → FileError
  | .noFileOrDirectory .. => .notFound
  | .inappropriateType _ 20 _ => .notDirectory
  | .inappropriateType _ 21 _ => .isDirectory
  | e => .other (toString e)

/-- Holds unless the reason is that there is no such file. -/
def FileError.isThere : FileError → Bool
  | .notFound | .notDirectory => false
  | _ => true

/-- The files of the system. -/
instance : FileAccess IO where
  contains path := do
    try
      IO.FS.withFile path .read fun _ => return true
    catch e => return (FileError.ofSystem e).isThere
  read path := do
    try
      match String.fromUTF8? (← IO.FS.readBinFile path) with
      | some text => return .ok text
      | none => return .error .notText
    catch e => return .error (.ofSystem e)
  write path text := do
    try
      IO.FS.writeFile path text
      return .ok ()
    catch e => return .error (.ofSystem e)

/-- Holds when the standard output is a terminal that shows colors. -/
def showsColors : IO Bool := do
  if (← IO.getEnv "NO_COLOR").isSome || (← IO.getEnv "TERM") == some "dumb" then return false
  (← IO.getStdout).isTty

end DesignVars

open DesignVars in
/-- Runs the program on its arguments. -/
def main (args : List String) : IO UInt32 := do
  let run : Transcript ← runProgram (← showsColors) args
  IO.print run.output
  IO.eprint run.errors
  return run.exitCode
