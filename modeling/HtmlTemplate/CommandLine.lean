import HtmlTemplate.Json.Reader
import HtmlTemplate.Session.Basic

/-!
# The command line

`tplc TEMPLATE [DATA]` compiles the template of a file, prints its code, and prints what it renders
if there is a file of data. Arguments that make no sense end the program with status 2.
-/

namespace HtmlTemplate.CommandLine

open Template (Delimiters Overrides Compiler)

/-- What the arguments ask for. -/
structure Invocation where
  template : String
  data : Option String
  ranges : Bool
  comments : Bool
  noOptimize : Bool
  delimiters : Option Delimiters
  deriving DecidableEq, Repr, Inhabited

/-- What arguments come to. -/
inductive Parsed where
  | run (i : Invocation)
  | help
  | version
  | refused
  deriving DecidableEq, Repr, Inhabited

/-- The arguments taken so far. -/
structure Taken where
  positional : List String := []
  ranges : Bool := false
  comments : Bool := false
  noOptimize : Bool := false
  delimiters : List String := []

/-- Whether an argument has the form of an option; a dash alone has not. -/
def isOptionLike (argument : String) : Bool :=
  match argument.toList with
  | '-' :: _ :: _ => true
  | _ => false

/-- One more argument that is no option; there is room for two, and neither may be empty. -/
def Taken.positional? (t : Taken) (argument : String) : Option Taken :=
  if argument.isEmpty || 2 ≤ t.positional.length then none
  else some { t with positional := t.positional ++ [argument] }

/-- A pair of delimiters; other numbers of them do not count. -/
def pair? : List String → Option Delimiters
  | [opening, closing] => some ⟨opening, closing⟩
  | _ => none

def Taken.finish (t : Taken) : Parsed :=
  match t.positional with
  | [] => .refused
  | template :: more =>
    .run ⟨template, more.head?, t.ranges, t.comments, t.noOptimize, pair? t.delimiters⟩

/-- Arguments behind `--`. -/
def takePositional (t : Taken) : List String → Parsed
  | [] => t.finish
  | argument :: rest =>
    match t.positional? argument with
    | some t => takePositional t rest
    | none => .refused

/-- Takes the arguments one by one. An option that is a flag may be given once. -/
def take (t : Taken) : List String → Parsed
  | [] => t.finish
  | "--" :: rest => takePositional t rest
  | "--ranges" :: rest => if t.ranges then .refused else take { t with ranges := true } rest
  | "--comments" :: rest => if t.comments then .refused else take { t with comments := true } rest
  | "--no-optimize" :: rest =>
    if t.noOptimize then .refused else take { t with noOptimize := true } rest
  | "--delimiters" :: opening :: closing :: rest =>
    if isOptionLike opening || isOptionLike closing then .refused
    else take { t with delimiters := t.delimiters ++ [opening, closing] } rest
  | argument :: rest =>
    match argument.toList with
    | '-' :: 'h' :: _ => .help
    | '-' :: 'V' :: _ => .version
    | _ =>
      if argument == "--help" then .help
      else if argument == "--version" then .version
      else if isOptionLike argument then .refused
      else
        match t.positional? argument with
        | some t => take t rest
        | none => .refused

def parse (arguments : List String) : Parsed := take {} arguments

/-- What the program leaves behind. -/
structure Outcome where
  status : Nat
  stdout : String
  stderr : String
  deriving DecidableEq, Repr, Inhabited

def Invocation.overrides (i : Invocation) : Overrides :=
  { givePositions := some i.ranges
    keepComments := some i.comments
    optimize := some !i.noOptimize
    delimiters := i.delimiters }

/-- Why a run ends with status 1. -/
inductive Trouble where
  | unreadable (path reason : String)
  | invalidData (path reason : String)
  | errors (count : Nat)
  | render (e : Code.RenderFailure)
  deriving DecidableEq, Repr, Inhabited

def Trouble.message : Trouble → String
  | .unreadable path reason => "cannot read " ++ path ++ ": " ++ reason
  | .invalidData path reason => "invalid JSON in " ++ path ++ ": " ++ reason
  | .errors count => "template has " ++ count.repr ++ " error(s)"
  | .render e => "render failed: " ++ e.message

def line (text : String) : String := text ++ "\n"

def codeLines (code : Template.Code) : String :=
  line ("render: " ++ code.main) ++
    String.join (code.statics.mapIdx fun i c => line ("static[" ++ i.repr ++ "]: " ++ c))

def noticeLine (n : Session.Notice) : String :=
  let label := match n.severity with
    | .error => "[error] "
    | .tip => "[tip] "
  line (label ++ (match n.caller with
    | some name => name ++ ": "
    | none => "") ++ n.message)

/-- The rendered data, if there is a file of data. -/
def renderData (f : Code.Functions) (data : Option (String × Except String String)) :
    Except Trouble String :=
  match data with
  | none => .ok ""
  | some (path, .error reason) => .error (.unreadable path reason)
  | some (path, .ok text) =>
    match Json.parse text with
    | .error reason => .error (.invalidData path reason)
    | .ok value =>
      match f.render value with
      | .error e => .error (.render e)
      | .ok html => .ok (line html)

/-- Ends a run that has written `stdout` and `stderr`. -/
def conclude (stdout stderr : String) : Except Trouble String → Outcome
  | .ok html => ⟨0, stdout ++ html, stderr⟩
  | .error t => ⟨1, stdout, stderr ++ line ("tplc: " ++ t.message)⟩

/-- The stream on which a run says what is wrong. -/
def standardError : Session.Outlet := ⟨2⟩

/-- What a run works with. -/
def setup : Session.Setup := ⟨Compiler.web, Code.interpreter, standardError⟩

/-- The request for the procedures of the template, which brings no outlet of its own. -/
def Invocation.request (i : Invocation) (template : String) : Session.Request :=
  ⟨template, i.overrides, some i.template, none⟩

/-- Runs an invocation, given what its files hold or why they cannot be read. -/
def Invocation.run (i : Invocation) (read : String → Except String String) : Outcome :=
  match read i.template with
  | .error reason => conclude "" "" (.error (.unreadable i.template reason))
  | .ok template =>
    let compiled := setup.compiler.compile i.overrides template
    let (functions, _, notices) := Session.State.functions setup (i.request template) {}
    let stderr := String.join (notices.map noticeLine)
    let errors := (notices.filter fun n => n.severity == .error).length
    conclude (codeLines compiled.code) stderr
      (if 0 < errors then .error (.errors errors)
      else renderData functions (i.data.map fun path => (path, read path)))

def usage : String :=
  "Compile a template to render code and optionally render it with data\n\n" ++
    "Usage: tplc [OPTIONS] <TEMPLATE> [DATA]\n"

/-- Runs the program. -/
def run (arguments : List String) (read : String → Except String String) : Outcome :=
  match parse arguments with
  | .run i => i.run read
  | .help => ⟨0, usage, ""⟩
  | .version => ⟨0, "tplc 0.1.0\n", ""⟩
  | .refused => ⟨2, "", usage⟩

/-- The files that a run may read. -/
def filesOf (arguments : List String) : List String :=
  match parse arguments with
  | .run i => i.template :: i.data.toList
  | _ => []

end HtmlTemplate.CommandLine
