import HtmlTemplate.Template.Compile

/-!
# Templates that are render code

A backend for templates that hold render code rather than markup: a main piece and static
ones, with a mark between. Other marks in the template call for a report each.
-/

namespace HtmlTemplate.Template

open Text

/-- The pieces of a text between the occurrences of a mark. -/
def piecesFrom (mark : List Char) (nonempty : mark ≠ []) (s : List Char) : List (List Char) :=
  match h : cut? mark s with
  | none => [s]
  | some (before, rest) =>
    have := length_lt_of_cut? nonempty h
    before :: piecesFrom mark nonempty rest
termination_by s.length

/-- The position of the first occurrence of a mark. -/
def positionOf? (mark template : String) : Option Nat :=
  (cut? mark.toList template.toList).map fun found => extent found.1

/-- A report at the first occurrence of a mark, if there is one. -/
def reportAt (mark template : String) (report : Nat → Report) : List Report :=
  ((positionOf? mark template).map report).toList

def markReports (template : String) : List Report :=
  reportAt "!err" template (fun p => .error "bad marker" (.ofSpan ⟨p, 4⟩)) ++
    reportAt "!open" template (fun p => .error "open marker" (.startingAt p)) ++
    reportAt "!bare" template (fun _ => .error "bare marker" .unknown) ++
    reportAt "!tip" template (fun _ => .tip "consider this" .unknown)

/-- Takes a template for the code it holds. -/
def literalBackend : Backend := fun _ template =>
  let code : Code :=
    match piecesFrom ['@', '@'] (by simp) template.toList with
    | [] => ⟨template, []⟩
    | main :: statics => ⟨String.ofList main, statics.map String.ofList⟩
  (⟨none, code⟩, markReports template)

/-- A compiler for templates that hold render code. -/
def Compiler.literal : Compiler := ⟨.plain, literalBackend, none⟩

end HtmlTemplate.Template
