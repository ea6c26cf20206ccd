import HtmlTemplate.Template.Options
import HtmlTemplate.Text.Fields

/-!
# Sorting attributes

Each attribute of a start tag is a binding, the condition, a directive or plain. Only the first of
several attributes of one name counts; the others are errors.
-/

namespace HtmlTemplate.Template

open Text Markup

/-- A name of an attribute cut behind its last `]`: modifiers come after that place. -/
def splitAtBracket (name : List Char) : List Char × List Char :=
  let tail := (name.reverse.takeWhile (· != ']')).reverse
  (name.take (name.length - tail.length), tail)

/-- A name without its modifiers. -/
def withoutModifiers (name : List Char) : List Char :=
  let (head, tail) := splitAtBracket name
  head ++ tail.takeWhile (· != '.')

/-- The modifiers of a name, each behind a `.`; empty ones do not count. -/
def modifierNames (name : List Char) : List (List Char) :=
  ((fields '.' (splitAtBracket name).2).drop 1).filter fun m => !m.isEmpty

/-- What a name says after `v-bind:` or `:`. -/
def bindingArgument? : List Char → Option (List Char)
  | 'v' :: '-' :: 'b' :: 'i' :: 'n' :: 'd' :: ':' :: rest => some rest
  | ':' :: rest => some rest
  | _ => none

def isDirectiveName : List Char → Bool
  | 'v' :: '-' :: _ => true
  | '@' :: _ => true
  | '#' :: _ => true
  | _ => false

/-- What a name in brackets holds. -/
def bracketed? (name : List Char) : Option (List Char) :=
  match name with
  | '[' :: rest => if rest.getLast? == some ']' then some rest.dropLast else none
  | _ => none

def Binding.ofAttribute (argument : List Char) (a : Attribute) : Binding where
  name := String.ofList ((bracketed? argument).getD argument)
  written := a.name
  isComputed := (bracketed? argument).isSome
  expression := trim a.value
  span := a.span

/-- The name and the argument of a directive whose modifiers are taken off. -/
def directiveParts : List Char → List Char × Option (List Char)
  | '@' :: argument => (['o', 'n'], some argument)
  | '#' :: argument => (['s', 'l', 'o', 't'], some argument)
  | 'v' :: '-' :: body =>
    match splitOnce? ':' body with
    | some (name, argument) => (name, some argument)
    | none => (body, none)
  | body =>
    match splitOnce? ':' body with
    | some (name, argument) => (name, some argument)
    | none => (body, none)

def Directive.ofAttribute (a : Attribute) : Directive :=
  let (name, argument) := directiveParts (withoutModifiers a.name.toList)
  { name := String.ofList name
    written := a.name
    argument := (argument.filter fun s => !s.isEmpty).map String.ofList
    modifiers := (modifierNames a.name.toList).map String.ofList
    value := trim a.value
    span := a.span }

/-- What an attribute is for. -/
inductive Purpose where
  | binding (b : Binding)
  | condition (expression : String)
  | directive (d : Directive)
  | plain (name value : String)
  deriving DecidableEq, Repr

def Purpose.of (a : Attribute) : Purpose :=
  match bindingArgument? a.name.toList with
  | some argument => .binding (.ofAttribute (withoutModifiers argument) a)
  | none =>
    if a.name == "v-if" then .condition (trim a.value)
    else if isDirectiveName a.name.toList then .directive (.ofAttribute a)
    else .plain a.name a.value

def emptyBinding (argument : String) (range : Locus) : Report :=
  .error ("The value for a v-bind expression cannot be empty. Found in \"v-bind:" ++ argument ++
    "\"") range

def unknownDirective (written : String) (range : Locus) : Report :=
  .tip ("Directive \"" ++ written ++ "\" has no code generator here and will be ignored.") range

def duplicateAttribute (name : String) (range : Locus) : Report :=
  .error ("duplicate attribute: " ++ name) range

/-- What is to be said about an attribute that counts. -/
def Purpose.reports (registered : String → Bool) (a : Attribute) : Purpose → List Report
  | .binding b =>
    if b.expression.isEmpty then
      [emptyBinding (if b.isComputed then "[" ++ b.name ++ "]" else b.name) (.ofSpan? a.span)]
    else []
  | .directive d =>
    if registered d.name then [] else [unknownDirective a.name (.ofSpan? a.span)]
  | _ => []

/-- The attributes of a start tag, sorted, with the reports about them. -/
structure Sorted where
  plain : List (String × String) := []
  bindings : List Binding := []
  condition : Option String := none
  directives : List Directive := []
  reports : List Report := []

/-- Puts an attribute before those that follow it in the start tag. -/
def Sorted.cons (p : Purpose) (reports : List Report) (s : Sorted) : Sorted :=
  let s := { s with reports := reports ++ s.reports }
  match p with
  | .binding b => { s with bindings := b :: s.bindings }
  | .condition expression => { s with condition := some expression }
  | .directive d => { s with directives := d :: s.directives }
  | .plain name value => { s with plain := (name, value) :: s.plain }

/-- Sorts attributes that follow others with the names `seen`. -/
def sortAfter (registered : String → Bool) (seen : List String) : List Attribute → Sorted
  | [] => {}
  | a :: more =>
    if seen.contains a.name then
      let rest := sortAfter registered seen more
      { rest with reports := duplicateAttribute a.name (.ofSpan? a.span) :: rest.reports }
    else
      let p := Purpose.of a
      (sortAfter registered (a.name :: seen) more).cons p (p.reports registered a)

def sortAttributes (registered : String → Bool) (attributes : List Attribute) : Sorted :=
  sortAfter registered [] attributes

/-- The head with its attributes sorted. -/
def Head.sorted (registered : String → Bool) (head : Head) : Head × List Report :=
  let s := sortAttributes registered head.written
  ({ head with
      plain := s.plain
      bindings := s.bindings
      condition := s.condition
      directives := s.directives }, s.reports)

end HtmlTemplate.Template
