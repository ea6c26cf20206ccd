import HtmlTemplate.Markup.Event
import HtmlTemplate.Template.Interpolation

/-!
# The element tree

What a template says once its markup is read: elements with their attributes sorted by purpose,
text split into parts, and comments.
-/

namespace HtmlTemplate.Template

open Text Markup

/-- An attribute whose value is an expression, `:name` or `v-bind:name`. The name itself is an
expression when it was written in brackets. -/
structure Binding where
  name : String
  written : String
  isComputed : Bool
  expression : String
  span : Option Span
  deriving DecidableEq, Repr, Inhabited

/-- Any other `v-name:argument.modifier`. -/
structure Directive where
  name : String
  written : String
  argument : Option String
  modifiers : List String
  value : String
  span : Option Span
  deriving DecidableEq, Repr, Inhabited

/-- An element without its children. -/
structure Head where
  name : String
  /-- All attributes as they stand in the start tag. -/
  written : List Attribute
  /-- The attributes that are neither bindings nor directives nor taken by a module. -/
  plain : List (String × String)
  bindings : List Binding
  condition : Option String
  directives : List Directive
  fixedClass : Option String
  fixedStyle : Option String
  unary : Bool
  span : Span
  /-- Renders alike whatever the data are. -/
  isStatic : Bool
  /-- Is rendered by a procedure of its own. -/
  isStaticRoot : Bool
  deriving DecidableEq, Repr, Inhabited

/-- Text with the parts that it was split into. -/
structure TextRun where
  text : String
  parts : List Part
  span : Option Span
  deriving DecidableEq, Repr, Inhabited

inductive Node where
  | element (head : Head) (children : List Node)
  | text (run : TextRun)
  | comment (content : String) (span : Span)
  deriving Repr, Inhabited

/-- An element with its children. -/
structure Element where
  head : Head
  children : List Node
  deriving Repr, Inhabited

def Element.toNode (e : Element) : Node := .element e.head e.children

namespace Head

/-- The head of an element that a start tag opens, before its attributes are sorted. -/
def ofTag (name : String) (written : List Attribute) (unary : Bool) (span : Span) : Head where
  name := name
  written := written
  plain := []
  bindings := []
  condition := none
  directives := []
  fixedClass := none
  fixedStyle := none
  unary := unary
  span := span
  isStatic := false
  isStaticRoot := false

/-- The first attribute of a name as it stands in the start tag. -/
def written? (head : Head) (name : String) : Option Attribute :=
  head.written.find? (·.name == name)

/-- Where the first attribute of a name is. -/
def rangeOf (head : Head) (name : String) : Locus :=
  match head.written? name with
  | some a => .ofSpan? a.span
  | none => .unknown

def plain? (head : Head) (name : String) : Option String :=
  (head.plain.find? (·.1 == name)).map Prod.snd

/-- Takes the first plain attribute of a name away. -/
def dropPlain (head : Head) (name : String) : Head :=
  { head with plain := head.plain.eraseP (·.1 == name) }

/-- The features that an element has, by the names under which options list them. -/
def features (head : Head) : List String :=
  ["tag", "children"] ++
    (if head.plain.isEmpty then [] else ["attrs"]) ++
    (if head.fixedClass.isNone then [] else ["staticClass"]) ++
    (if head.fixedStyle.isNone then [] else ["staticStyle"]) ++
    (if head.bindings.isEmpty then [] else ["bindings"]) ++
    (if head.condition.isNone then [] else ["if"]) ++
    (if head.directives.isEmpty then [] else ["directives"])

end Head

namespace TextRun

def isStatic (t : TextRun) : Bool := t.parts.all Part.isFixed

def isBlank (t : TextRun) : Bool :=
  t.parts.all fun
    | .fixed text => allBlank text
    | .expression _ => false

end TextRun

/-- Whether a node says of itself that it is static. -/
def Node.isStatic : Node → Bool
  | .element head _ => head.isStatic
  | .text run => run.isStatic
  | .comment .. => true

end HtmlTemplate.Template
