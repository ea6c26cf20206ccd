import HtmlTemplate.CommandLine

/-!
# The program
-/

namespace HtmlTemplate

/-- Why a file could not be read, as the system says it. -/
def readFailure : IO.Error → String
  | .noFileOrDirectory _ code details => details ++ " (os error " ++ code.toNat.repr ++ ")"
  | .permissionDenied _ code details => details ++ " (os error " ++ code.toNat.repr ++ ")"
  | .inappropriateType _ code details => details ++ " (os error " ++ code.toNat.repr ++ ")"
  | e => e.toString

def readFile (path : String) : IO (String × Except String String) := do
  try
    return (path, .ok (← IO.FS.readFile path))
  catch e =>
    return (path, .error (readFailure e))

end HtmlTemplate

open HtmlTemplate in
def main (arguments : List String) : IO UInt32 := do
  let files ← (CommandLine.filesOf arguments).mapM readFile
  let outcome := CommandLine.run arguments fun path =>
    (files.lookup path).getD (.error "No such file or directory (os error 2)")
  (← IO.getStdout).putStr outcome.stdout
  (← IO.getStderr).putStr outcome.stderr
  return outcome.status.toUInt32
