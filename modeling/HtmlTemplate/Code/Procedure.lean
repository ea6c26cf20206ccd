import HtmlTemplate.Code.Eval

/-!
# Procedures

A procedure is code that was checked, or a stand-in that renders nothing. A main procedure runs
together with static ones, which it and they may call by index, up to 64 of them at a time.
-/

namespace HtmlTemplate.Code

inductive Procedure where
  /-- Renders nothing, in place of code that gives no procedure. -/
  | blank
  | code (e : Expr)
  deriving Repr, Inhabited

def Procedure.run (data : Json.Value) (callStatic : Nat → Except RenderFailure String) :
    Procedure → Except RenderFailure String
  | .blank => .ok ""
  | .code e => e.render data callStatic

/-- How many static procedures may be running at once. -/
def staticNestingLimit : Nat := 64

/-- Runs the static procedure of an index, while so many more may be running. -/
def runStatic (statics : List Procedure) (data : Json.Value) : (more index : Nat) →
    Except RenderFailure String
  | 0, index =>
    match statics[index]? with
    | none => .error (.missingStatic index)
    | some _ => .error (.tooDeep staticNestingLimit)
  | more + 1, index =>
    match statics[index]? with
    | none => .error (.missingStatic index)
    | some p => p.run data fun i => runStatic statics data more i

/-- A main procedure with its static ones. -/
structure Functions where
  main : Procedure
  statics : List Procedure
  deriving Repr, Inhabited

def Functions.render (f : Functions) (data : Json.Value) : Except RenderFailure String :=
  f.main.run data (runStatic f.statics data staticNestingLimit)

/-- Renders one static procedure on its own. -/
def Functions.renderStatic (f : Functions) (data : Json.Value) (index : Nat) :
    Except RenderFailure String :=
  runStatic f.statics data staticNestingLimit index

/-- A way to build procedures from code. -/
abbrev Builder := String → Except BuildError Procedure

/-- Reads code and checks its calls. -/
def interpret : Builder := fun code =>
  match parse code with
  | .error e => .error (.malformed e)
  | .ok e =>
    match e.checkCalls with
    | .error f => .error f
    | .ok () => .ok (.code e)

/-- A builder for surroundings that allow no procedures to be built. -/
def refuse : Builder := fun _ => .error .restricted

/-- Code of which every builder should make a procedure. -/
def probeCode : String := "_e()"

/-- What the surroundings of a session offer: a way to build procedures, and an answer to whether
procedures can be built at all, which a try tells unless they know better. -/
structure Materializer where
  build : Builder
  probe : Except BuildError Unit := (build probeCode).map fun _ => ()

def interpreter : Materializer := { build := interpret }

def restrictedInterpreter : Materializer := { build := refuse }

def BuildError.message : BuildError → String
  | .restricted => "constructing render procedures is not allowed in this environment"
  | .malformed e => "SyntaxError: " ++ e.message ++ " at offset " ++ e.offset.repr
  | .unknownHelper name offset =>
    "ReferenceError: " ++ name ++ " is not a render helper (offset " ++ offset.repr ++ ")"
  | .wrongArity name expected found =>
    "TypeError: " ++ name ++ " expects " ++ expected ++ " argument(s), got " ++ found.repr

/-- Code that gave no procedure. -/
structure Failed where
  error : BuildError
  code : String
  deriving DecidableEq, Repr, Inhabited

/-- A procedure for a piece of code, a blank one if it gives none. -/
def buildOrBlank (build : Builder) (code : String) : Procedure × Option Failed :=
  match build code with
  | .ok p => (p, none)
  | .error e => (.blank, some ⟨e, code⟩)

/-- Procedures for a main piece of code and static ones. -/
def buildFunctions (build : Builder) (main : String) (statics : List String) : Functions :=
  ⟨(buildOrBlank build main).1, statics.map fun code => (buildOrBlank build code).1⟩

/-- The pieces that give no procedure, the main one first. -/
def failedPieces (build : Builder) (main : String) (statics : List String) : List Failed :=
  (main :: statics).filterMap fun code => (buildOrBlank build code).2

end HtmlTemplate.Code
