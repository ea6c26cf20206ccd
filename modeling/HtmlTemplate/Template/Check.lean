import HtmlTemplate.Code.Reader
import HtmlTemplate.Template.Options

/-!
# Checking expressions

Expressions of a template are literals, arrays and paths; calls are left to render code, and a path
may not begin with a keyword. Each expression that is anything else is reported with the place in
the template where it was written.
-/

namespace HtmlTemplate.Template

open Text

def keywords : List String :=
  ["do", "if", "for", "let", "new", "try", "var", "case", "else", "with", "await", "break",
    "catch", "class", "const", "super", "throw", "while", "yield", "delete", "export", "import",
    "return", "switch", "default", "extends", "finally", "continue", "debugger", "function",
    "arguments", "typeof", "instanceof", "in"]

/-- Directives whose values are not plain expressions. -/
def uncheckedDirectives : List String := ["on", "for", "slot", "else", "once", "pre", "cloak"]

mutual

/-- Why an expression that could be read does not belong in a template. -/
def fault? : Code.Expr → Option String
  | .literal _ => none
  | .path [] => none
  | .path (first :: _) =>
    if keywords.contains first then some ("unexpected keyword \x60" ++ first ++ "\x60") else none
  | .array items => faultIn? items
  | .call helper _ _ => some ("call to \x60" ++ helper ++ "\x60 is not allowed")

def faultIn? : List Code.Expr → Option String
  | [] => none
  | e :: rest =>
    match fault? e with
    | some reason => some reason
    | none => faultIn? rest

end

/-- Why a text is no expression for a template; none if it is one. -/
def expressionFault? (expression : String) : Option String :=
  match Code.parse expression with
  | .error e => some e.message
  | .ok e => fault? e

def isKeywordPart (c : Char) : Bool := c.isAlphanum || c == '_' || c == '$'

def isLiteralQuote (c : Char) : Bool := c == '"' || c == '\'' || c == '\x60'

/-- The words of a text outside literals. A literal ends at the next quote like its first that does
not come right after a backslash. `inside` is the quote of the literal one is in, `previous` the
last character, and `word` the word begun, in reverse. -/
def bareWordsFrom (inside : Option Char) (previous : Char) (word : List Char) :
    List Char → List (List Char)
  | [] => [word.reverse]
  | c :: rest =>
    match inside with
    | some quote =>
      bareWordsFrom (if c == quote && previous != '\\' then none else some quote) c word rest
    | none =>
      if isLiteralQuote c then word.reverse :: bareWordsFrom (some c) c [] rest
      else if isKeywordPart c then bareWordsFrom none c (c :: word) rest
      else word.reverse :: bareWordsFrom none c [] rest

def bareWords (s : List Char) : List (List Char) := bareWordsFrom none '\x00' [] s

/-- The first keyword among the words of a text outside literals. -/
def keyword? (expression : String) : Option String :=
  ((bareWords expression.toList).map String.ofList).find? keywords.contains

/-- What is said about an expression, with the text in which it was written. -/
def faultMessage (reason expression written : String) : String :=
  match keyword? expression with
  | some keyword =>
    "avoid using JavaScript keyword as property name: \"" ++ keyword ++ "\"\n  Raw expression: " ++
      trim written
  | none =>
    "invalid expression: " ++ reason ++ " in\n\n    " ++ expression ++ "\n\n  Raw expression: " ++
      trim written ++ "\n"

def checkExpression (expression written : String) (span : Option Span) : List Report :=
  match expressionFault? expression with
  | none => []
  | some reason => [.error (faultMessage reason expression written) (.ofSpan? span)]

def asWritten (name value : String) : String := name ++ "=\"" ++ value ++ "\""

def Binding.check (b : Binding) : List Report :=
  let written := asWritten b.written b.expression
  (if b.isComputed then checkExpression b.name written b.span else []) ++
    checkExpression b.expression written b.span

def Directive.check (d : Directive) : List Report :=
  if uncheckedDirectives.contains d.name || d.value.isEmpty then []
  else checkExpression d.value (asWritten d.written d.value) d.span

def Head.checkCondition (head : Head) : List Report :=
  match head.condition with
  | none => []
  | some condition =>
    checkExpression condition (asWritten "v-if" condition)
      ((head.written? "v-if").bind fun a => a.span)

def Head.check (head : Head) : List Report :=
  head.bindings.flatMap Binding.check ++ head.checkCondition ++
    head.directives.flatMap Directive.check

def TextRun.check (run : TextRun) : List Report :=
  run.parts.flatMap fun
    | .fixed _ => []
    | .expression code => checkExpression code run.text run.span

mutual

def Node.check : Node → List Report
  | .element head children => head.check ++ checkAll children
  | .text run => run.check
  | .comment .. => []

def checkAll : List Node → List Report
  | [] => []
  | node :: rest => node.check ++ checkAll rest

end

/-- The reports about all expressions of a tree, in the order of the template. -/
def Element.check (e : Element) : List Report := e.toNode.check

end HtmlTemplate.Template
