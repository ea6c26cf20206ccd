import HtmlTemplate.Session.Notice
import HtmlTemplate.Session.Store

/-!
# Sessions

A session turns templates into procedures and keeps them. A call never fails: what is wrong goes
out as notices, and code that gives no procedure is stood in for by a blank one. A call whose
template and delimiters were seen before is answered from the store and says nothing; only the
advisory about surroundings that allow no procedures comes with the very first call, seen before or
not.
-/

namespace HtmlTemplate.Session

open Template (Compiler Overrides)
open Code (Functions Materializer)

/-- What a session works with. -/
structure Setup where
  compiler : Compiler
  materializer : Materializer
  /-- Takes the notices of calls that bring no outlet along. -/
  outlet : Outlet

/-- A request for the procedures of a template. -/
structure Request where
  template : String
  overrides : Overrides
  /-- The caller's name for the sake of notices. -/
  caller : Option String
  /-- The outlet that the call brings along. -/
  outlet : Option Outlet

def Request.key (r : Request) : String := Session.key r.template r.overrides.delimiters

/-- The outlet of a call: its own, else that of the session. -/
def Setup.outletFor (setup : Setup) (r : Request) : Outlet := r.outlet.getD setup.outlet

/-- What is said on behalf of a request. -/
def Setup.notice (setup : Setup) (r : Request) (said : Severity × String) : Notice :=
  ⟨setup.outletFor r, said.1, said.2, r.caller⟩

structure State where
  store : Store := {}
  /-- Whether a call has found out if procedures can be built. -/
  probed : Bool := false

/-- The advisory, if the surroundings do not allow procedures to be built. -/
def probe (setup : Setup) (r : Request) : List Notice :=
  match setup.materializer.probe with
  | .error .restricted => [setup.notice r (.error, advisory)]
  | _ => []

/-- Compiles the template of a request and builds its procedures. -/
def produce (setup : Setup) (r : Request) : Functions × List Notice :=
  let compiled := setup.compiler.compile r.overrides r.template
  let givePositions := (setup.compiler.optionsFor r.overrides).givePositions
  let build := setup.materializer.build
  let failed := Code.failedPieces build compiled.code.main compiled.code.statics
  (Code.buildFunctions build compiled.code.main compiled.code.statics,
    (messages givePositions r.template compiled failed).map (setup.notice r))

/-- Answers a request for procedures. -/
def State.functions (setup : Setup) (r : Request) (s : State) : Functions × State × List Notice :=
  let advice := if s.probed then [] else probe setup r
  match s.store.find? r.key with
  | some found => (found, { s with probed := true }, advice)
  | none =>
    let (f, notices) := produce setup r
    (f, ⟨s.store.insert r.key f, true⟩, advice ++ notices)

/-- Puts procedures into the store, unless there are some under the key; gives those that are there
then. -/
def State.put (key : String) (f : Functions) (s : State) : Functions × State :=
  let store := s.store.insert key f
  ((store.find? key).getD f, { s with store })

end HtmlTemplate.Session
