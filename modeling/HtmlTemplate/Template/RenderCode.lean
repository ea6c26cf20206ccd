import HtmlTemplate.Json.Literal
import HtmlTemplate.Template.Options

/-!
# Render code of a tree

The code of an element is one call with its name, its attributes and its children. Expressions of
the template stand in it as they were written. The body of a static root goes into a list of its
own, and its place is taken by a call with its index there.
-/

namespace HtmlTemplate.Template

open Json (literal)

def commaSeparated (codes : List String) : String := ",".intercalate codes

def bracketedList (codes : List String) : String := "[" ++ commaSeparated codes ++ "]"

def Part.code : Part → String
  | .fixed text => literal text
  | .expression code => "_s(" ++ code ++ ")"

def textCode (parts : List Part) : String :=
  match parts.map Part.code with
  | [] => "_v(\"\")"
  | [single] => "_v(" ++ single ++ ")"
  | many => "_v(_j(" ++ commaSeparated many ++ "))"

def commentCode (content : String) : String := "_cm(" ++ literal content ++ ")"

def attributeCode (nameCode valueCode : String) : String :=
  "_a(" ++ nameCode ++ "," ++ valueCode ++ ")"

/-- The first binding of a name that is not computed. -/
def Head.binding? (head : Head) (name : String) : Option Binding :=
  head.bindings.find? fun b => !b.isComputed && b.name == name

/-- One attribute for a fixed value, a bound one, or both with a separator between. -/
def mergedCode (name : String) (fixed : Option String) (bound : Option Binding)
    (separator : String) : List String :=
  match fixed, bound with
  | some value, some b =>
    [attributeCode (literal name)
      ("_j(" ++ literal (value ++ separator) ++ ",_s(" ++ b.expression ++ "))")]
  | some value, none => [attributeCode (literal name) (literal value)]
  | none, some b => [attributeCode (literal name) b.expression]
  | none, none => []

/-- A binding that is not merged with a class or a style. -/
def Binding.codes (b : Binding) : List String :=
  if b.isComputed then [attributeCode b.name b.expression]
  else if b.name == "class" || b.name == "style" then []
  else [attributeCode (literal b.name) b.expression]

def Head.attributeCodes (head : Head) : List String :=
  mergedCode "class" head.fixedClass (head.binding? "class") " " ++
    mergedCode "style" head.fixedStyle (head.binding? "style") "" ++
    head.plain.map (fun (name, value) => attributeCode (literal name) (literal value)) ++
    head.bindings.flatMap Binding.codes

/-- The code of the children that the first directive with such code gives. -/
def Head.directiveChildren? (directives : OrderedMap ChildrenCode) (head : Head) : Option String :=
  head.directives.findSome? fun d => (directives.find? d.name).bind fun code => code d

/-- The call for an element; without children it gets no third argument. -/
def Head.code (head : Head) (children : Option String) : String :=
  "_c(" ++ literal head.name ++ "," ++ bracketedList head.attributeCodes ++
    (match children with
      | some code => "," ++ code
      | none => "") ++ ")"

def conditionCode (condition code : String) : String := "_i(" ++ condition ++ "," ++ code ++ ")"

def staticCode (index : Nat) : String := "_m(" ++ index.repr ++ ")"

/-- Code with the bodies of the static roots that it refers to. -/
structure Code where
  main : String
  statics : List String
  deriving DecidableEq, Repr, Inhabited

/-- What stands for an element whose call is `body`, where `first` is the index of the next static
body. -/
def Head.wrap (head : Head) (first : Nat) (body : Code) : Code :=
  if head.isStaticRoot then
    ⟨staticCode (first + body.statics.length), body.statics ++ [body.main]⟩
  else
    match head.condition with
    | some condition => ⟨conditionCode condition body.main, body.statics⟩
    | none => body

mutual

def Node.code (directives : OrderedMap ChildrenCode) (first : Nat) : Node → Code
  | .element head children =>
    match head.directiveChildren? directives with
    | some code => head.wrap first ⟨head.code (some code), []⟩
    | none =>
      if head.unary then head.wrap first ⟨head.code none, []⟩
      else
        let (codes, statics) := codeAll directives first children
        head.wrap first ⟨head.code (some (bracketedList codes)), statics⟩
  | .text run => ⟨textCode run.parts, []⟩
  | .comment content _ => ⟨commentCode content, []⟩

/-- The codes of several nodes, and their static bodies together. -/
def codeAll (directives : OrderedMap ChildrenCode) (first : Nat) :
    List Node → List String × List String
  | [] => ([], [])
  | node :: rest =>
    let code := node.code directives first
    let (codes, statics) := codeAll directives (first + code.statics.length) rest
    (code.main :: codes, code.statics ++ statics)

end

def Element.code (o : Options) (e : Element) : Code := e.toNode.code o.directives 0

/-- The code of a template without a root. -/
def emptyCode : Code := ⟨"_e()", []⟩

end HtmlTemplate.Template
