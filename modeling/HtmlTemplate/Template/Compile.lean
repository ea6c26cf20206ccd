import HtmlTemplate.Template.Check
import HtmlTemplate.Template.RenderCode
import HtmlTemplate.Template.Static
import HtmlTemplate.Template.Tree

/-!
# Compiling templates

A compiler is a set of options, a way to turn a template without outer blanks into code, and
possibly a check of the tree that this leaves behind. Compiling never fails: what is wrong comes
back as errors beside the code.
-/

namespace HtmlTemplate.Template

open Text

/-- What a template is turned into. -/
structure Output where
  tree : Option Element
  code : Code
  deriving Repr, Inhabited

/-- A way to turn a template without outer blanks into code, with what there is to report. -/
abbrev Backend := Options → String → Output × List Report

structure Compiler where
  options : Options
  backend : Backend
  check : Option (Element → List Report)

/-- The outcome of a compile. -/
structure Compiled where
  tree : Option Element
  code : Code
  errors : List Report
  tips : List Report
  deriving Repr, Inhabited

/-- The backend for the web: the tree, its static parts if asked for, and its code. -/
def webBackend : Backend := fun o template =>
  match tree o template with
  | (none, reports) => (⟨none, emptyCode⟩, reports)
  | (some root, reports) =>
    let root := if o.optimize then root.optimize o.effectiveStaticKeys else root
    (⟨some root, root.code o⟩, reports)

namespace Compiler

/-- The compiler for the web, which checks all expressions. -/
def web : Compiler := ⟨.web, webBackend, some Element.check⟩

def webUnchecked : Compiler := ⟨.web, webBackend, none⟩

/-- The backend for the web under plain options. -/
def plain : Compiler := ⟨.plain, webBackend, none⟩

/-- The options of one call. -/
def optionsFor (c : Compiler) (v : Overrides) : Options := c.options.override v

def compile (c : Compiler) (v : Overrides) (template : String) : Compiled :=
  let o := c.optionsFor v
  let (output, reports) := c.backend o (trim template)
  let checked := match c.check, output.tree with
    | some check, some root => check root
    | _, _ => []
  let leading :=
    if o.givePositions then some (extent (leadingBlanks template.toList)) else none
  let diagnostics := Diagnostics.of leading (reports ++ checked)
  ⟨output.tree, output.code, diagnostics.errors, diagnostics.tips⟩

end Compiler

end HtmlTemplate.Template
