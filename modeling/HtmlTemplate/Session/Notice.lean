import HtmlTemplate.Code.Procedure
import HtmlTemplate.CodeFrame
import HtmlTemplate.Template.Compile

/-!
# Notices

What a call for procedures tells an outlet: the errors of the compile, its tips, and the pieces of
code that gave no procedure.
-/

namespace HtmlTemplate.Session

open Template (Compiled)
open Code (Failed)

/-- Something that takes notices. All that is known of it is which one it is. -/
structure Outlet where
  number : Nat
  deriving DecidableEq, Repr, Inhabited

structure Notice where
  /-- Where the notice goes. -/
  outlet : Outlet
  severity : Severity
  message : String
  /-- The caller, if it gave a name. -/
  caller : Option String
  deriving DecidableEq, Repr, Inhabited

/-- The frame of an error; a side of its range that is not known is that of the template. -/
def errorFrame (template : String) (r : Report) : String :=
  CodeFrame.frame template (r.range.start.getD 0) (r.range.stop.getD template.utf8ByteSize)

def framedError (template : String) (r : Report) : String :=
  "Error compiling template:\n\n" ++ r.message ++ "\n\n" ++ errorFrame template r

def listedErrors (template : String) (errors : List Report) : String :=
  "Error compiling template:\n\n" ++ template ++ "\n\n" ++
    "\n".intercalate (errors.map fun r => "- " ++ r.message) ++ "\n"

/-- The messages about errors: with positions one for each, else one for all. -/
def errorMessages (givePositions : Bool) (template : String) (errors : List Report) :
    List String :=
  if givePositions then errors.map (framedError template)
  else if errors.isEmpty then []
  else [listedErrors template errors]

def failedMessage (f : Failed) : String := f.error.message ++ " in\n\n" ++ f.code ++ "\n"

/-- The message about pieces that gave no procedure, unless errors explain them. -/
def failureMessages (errors : List Report) (failed : List Failed) : List String :=
  if errors.isEmpty && !failed.isEmpty then
    ["Failed to generate render function:\n\n" ++ "\n".intercalate (failed.map failedMessage)]
  else []

/-- All that is to be said after a compile, in order. -/
def messages (givePositions : Bool) (template : String) (compiled : Compiled)
    (failed : List Failed) : List (Severity × String) :=
  (errorMessages givePositions template compiled.errors).map (Severity.error, ·) ++
    compiled.tips.map (fun r => (Severity.tip, r.message)) ++
    (failureMessages compiled.errors failed).map (Severity.error, ·)

/-- What is said where no procedures can be built. -/
def advisory : String :=
  "It seems you are using the standalone build of the template " ++
    "compiler in an environment that does not allow constructing render procedures at runtime. " ++
    "The template compiler cannot work in this environment. Consider relaxing the policy to " ++
    "allow runtime code construction, or pre-compiling your templates into render procedures."

/-- A record of the log, which takes notices where a session is given no other outlet. -/
structure LogRecord where
  level : String
  target : String
  text : String
  deriving DecidableEq, Repr

def Notice.logRecord (n : Notice) : LogRecord where
  level := match n.severity with
    | .error => "WARN"
    | .tip => "INFO"
  target := "template.compiler"
  text := n.message ++ match n.caller with
    | some name => "\n\nfound in <" ++ name ++ ">"
    | none => ""

end HtmlTemplate.Session
