import HtmlTemplate.Template.Options
import HtmlTemplate.Text.Fields
import HtmlTemplate.Text.Replace

/-!
# Modules and directives of the web

The class and style modules take the plain attributes of their names and keep them in a normal
form; the text and markup directives replace the children of their element by code.
-/

namespace HtmlTemplate.Template

open Text

/-- What is said about an interpolation in the value of an attribute; `instead` is the name that
the advice uses. -/
def interpolatedAttribute (name value instead : String) (range : Locus) : Report :=
  .error (name ++ "=\"" ++ value ++ "\": Interpolation inside attributes has been removed. " ++
    "Use v-bind or the colon shorthand instead. For example, instead of <div " ++ instead ++
    "=\"\x7b\x7b val \x7d\x7d\">, use <div :" ++ instead ++ "=\"val\">.") range

/-- Classes in order with one space between. -/
def normalClass (s : String) : String :=
  String.ofList ([' '].intercalate (words s.toList))

/-- The declarations of a style, which `;` ends outside parentheses; the first one continues one
begun before, kept in reverse. -/
def declarationsFrom (depth : Nat) (begun : List Char) : List Char → List (List Char)
  | [] => [begun.reverse]
  | c :: rest =>
    if c == ';' && depth == 0 then begun.reverse :: declarationsFrom 0 [] rest
    else
      let depth := if c == '(' then depth + 1 else if c == ')' then depth - 1 else depth
      declarationsFrom depth (c :: begun) rest

/-- `property:value;` without blanks around either; without a property it is nothing. -/
def normalDeclaration (s : List Char) : List Char :=
  match splitOnce? ':' s with
  | none => []
  | some (property, value) =>
    if (trimChars property).isEmpty then []
    else trimChars property ++ ':' :: trimChars value ++ [';']

def normalStyleChars (s : List Char) : List Char :=
  (declarationsFrom 0 [] s).flatMap normalDeclaration

def normalStyle (s : String) : String := String.ofList (normalStyleChars s.toList)

/-- Takes the plain attribute `name` and hands its value to `keep`. -/
def takePlain (name : String) (keep : Head → String → Head) (d : Delimiters) (head : Head) :
    Head × List Report :=
  match head.plain? name with
  | none => (head, [])
  | some value =>
    let reports :=
      if d.interpolates value then [interpolatedAttribute name value name (head.rangeOf name)]
      else []
    (keep (head.dropPlain name) value, reports)

/-- A module that reworks the head of an element, and adds what it has to say to the reports. -/
def Module.ofHead (staticKeys : List String) (rework : Settings → Head → Head × List Report) :
    Module where
  staticKeys := staticKeys
  transform := fun s e reports =>
    let (head, said) := rework s e.head
    (⟨head, e.children⟩, said.reverse ++ reports)

/-- A module that takes the plain attribute `name`. -/
def takingModule (staticKeys : List String) (name : String) (keep : Head → String → Head) :
    Module :=
  .ofHead staticKeys fun s => takePlain name keep s.delimiters

def classModule : Module :=
  takingModule ["staticClass"] "class" fun head value =>
    { head with fixedClass := some (normalClass value) }

def styleModule : Module :=
  takingModule ["staticStyle"] "style" fun head value =>
    { head with fixedStyle := some (normalStyle value) }

def droppedAttribute (name value : String) (d : Delimiters) (range : Locus) : Report :=
  .tip ("dropped " ++ name ++ "=" ++ value ++ " at " ++ d.display) range

/-- Removes plain attributes of the given names, one for each mention of a name, with a tip. -/
def dropAttributes (d : Delimiters) : List String → Head → Head × List Report
  | [], head => (head, [])
  | name :: names, head =>
    match head.plain? name with
    | none => dropAttributes d names head
    | some value =>
      let (final, reports) := dropAttributes d names (head.dropPlain name)
      (final, droppedAttribute name value d (head.rangeOf name) :: reports)

/-- A module that removes plain attributes. -/
def droppingModule (staticKeys names : List String) : Module :=
  .ofHead staticKeys fun s => dropAttributes s.delimiters names

/-- The children are the text of the value. -/
def textDirective : ChildrenCode := fun d => some ("[_v(_s(" ++ d.value ++ "))]")

/-- The children are the value as markup. -/
def markupDirective : ChildrenCode := fun d => some ("[_h(" ++ d.value ++ ")]")

/-- A directive that leaves the children alone. -/
def silentDirective : ChildrenCode := fun _ => none

/-- Children written as a pattern in which `{value}` and then `{arg}` stand for the value and the
argument. -/
def patternDirective (pattern : String) : ChildrenCode := fun d =>
  some (replace "\x7barg\x7d" (d.argument.getD "") (replace "\x7bvalue\x7d" d.value pattern))

/-- The options of a compiler for the web. -/
def Options.web : Options :=
  { Options.plain with
    implicitClose := true
    isVoid := Markup.isVoidElement
    mayBeLeftOpen := Markup.mayBeLeftOpen
    isPreformatted := Markup.isPreformatted
    staticKeys := orderedSet ["tag", "children", "attrs"]
    modules := [classModule, styleModule]
    directives := OrderedMap.ofList [("text", textDirective), ("html", markupDirective)] }

end HtmlTemplate.Template
