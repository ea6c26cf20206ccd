import HtmlTemplate.Span

/-!
# Reports of a compile

A stage of the compiler gives its reports in the order in which it makes them, with positions in
the text that it was given. The caller's template may have had blanks before that text, and may
not have asked for positions: `relocate` settles both.
-/

namespace HtmlTemplate

inductive Severity where
  | error
  | tip
  deriving DecidableEq, Repr, Inhabited

structure Report where
  severity : Severity
  message : String
  range : Locus
  deriving DecidableEq, Repr, Inhabited

namespace Report

def error (message : String) (range : Locus) : Report := ⟨.error, message, range⟩

def tip (message : String) (range : Locus) : Report := ⟨.tip, message, range⟩

def isError (r : Report) : Bool := r.severity == .error

/-- Moves a report behind the blanks that were taken off the template. Without a count of blanks
no positions were asked for, and the report loses its own. -/
def relocate (leading : Option Nat) (r : Report) : Report :=
  match leading with
  | some n => { r with range := r.range.shift n }
  | none => { r with range := .unknown }

end Report

/-- The reports of a compile: errors and tips, each in the order in which they were made. -/
structure Diagnostics where
  errors : List Report
  tips : List Report
  deriving DecidableEq, Repr, Inhabited

def Diagnostics.of (leading : Option Nat) (reports : List Report) : Diagnostics :=
  let moved := reports.map (Report.relocate leading)
  ⟨moved.filter Report.isError, moved.filter fun r => !r.isError⟩

end HtmlTemplate
