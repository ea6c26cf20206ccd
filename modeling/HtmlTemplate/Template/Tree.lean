import HtmlTemplate.Markup.Trace
import HtmlTemplate.Template.Module
import HtmlTemplate.Template.Sorting

/-!
# Growing the tree

The events of the markup are taken one by one. Open elements stand in frames, innermost first,
whose children are kept newest first. A template has one root; what stands outside it, elements
that templates may not hold and elements below the deepest level are reported and left out.
-/

namespace HtmlTemplate.Template

open Text Markup

/-- The most elements that may be open at once. -/
def nestingLimit : Nat := 128

inductive Place where
  | root
  | child
  /-- Built for the sake of reports and then dropped. -/
  | detached
  deriving DecidableEq, Repr

structure Frame where
  head : Head
  /-- Newest first. -/
  children : List Node
  placement : Place

structure Growth where
  root : Option Element := none
  rootSeen : Bool := false
  /-- Open elements, innermost first. -/
  frames : List Frame := []
  /-- How many of them are preformatted. -/
  preformatted : Nat := 0
  /-- Something was said about the root; it is said once. -/
  complained : Bool := false
  /-- Open elements that are too deep. -/
  skipped : Nat := 0
  skippedOnce : Bool := false
  /-- Newest first. -/
  reports : List Report := []

namespace Growth

def report (r : Report) (g : Growth) : Growth := { g with reports := r :: g.reports }

/-- Says something about the root, unless something was said before. -/
def complain (r : Report) (g : Growth) : Growth :=
  if g.complained then g else { g.report r with complained := true }

def tooDeeplyNested (span : Span) : Report :=
  .error "Elements nested deeper than 128 levels are ignored." (.ofSpan span)

def sideEffects (head : Head) : Report :=
  .error ("Templates should only be responsible for mapping the state to the UI. " ++
    "Avoid placing tags with side-effects in your templates, such as <" ++ head.name ++
    ">, as they will not be parsed.") (.ofSpan head.span)

def secondRoot (span : Span) : Report :=
  .error "Component template should contain exactly one root element." (.ofSpan span)

def unfitRoot (head : Head) : Report :=
  .error ("Cannot use <" ++ head.name ++
    "> as component root element because it may contain multiple nodes.")
    (.startingAt head.span.start)

def textForRoot (range : Locus) : Report :=
  .error "Component template requires a root element, rather than just text." range

def textOutsideRoot (text : String) (range : Locus) : Report :=
  .error ("text \"" ++ trim text ++ "\" outside root element will be ignored.") range

/-- Elements that act rather than show: styles, and scripts that a browser would run. -/
def hasSideEffects (head : Head) : Bool :=
  head.name == "style" ||
    head.name == "script" && match head.plain? "type" with
      | none => true
      | some type => type.isEmpty || type == "text/javascript"

/-- An element too deep to be kept. -/
def skip (unary : Bool) (span : Span) (g : Growth) : Growth :=
  let g := if g.skippedOnce then g else { g.report (tooDeeplyNested span) with skippedOnce := true }
  if unary then g else { g with skipped := g.skipped + 1 }

/-- Where an element that starts now belongs. -/
def place (head : Head) (g : Growth) : Place × Growth :=
  let forbidden := hasSideEffects head
  let g := if forbidden then g.report (sideEffects head) else g
  if !g.frames.isEmpty then (if forbidden then .detached else .child, g)
  else if g.rootSeen then (.detached, g.complain (secondRoot head.span))
  else
    let g := { g with rootSeen := true }
    let unfit := head.name == "slot" || head.name == "template"
    (.root, if unfit then g.complain (unfitRoot head) else g)

/-- Text that is one space. -/
def isSpace : Node → Bool
  | .text run => run.text == " "
  | _ => false

/-- Closes an element that is no longer among the frames. -/
def close (o : Options) (frame : Frame) (g : Growth) : Growth :=
  let children :=
    if g.preformatted == 0 then frame.children.dropWhile isSpace else frame.children
  let g :=
    if o.isPreformatted frame.head.name then { g with preformatted := g.preformatted - 1 } else g
  match frame.placement, g.frames with
  | .root, _ => { g with root := some ⟨frame.head, children.reverse⟩ }
  | .child, parent :: outer =>
    { g with frames :=
        { parent with children := .element frame.head children.reverse :: parent.children } ::
          outer }
  | .child, [] => g
  | .detached, _ => g

/-- Applies the modules one after the other. -/
def transform (s : Settings) : List Module → Element → List Report → Element × List Report
  | [], e, reports => (e, reports)
  | m :: more, e, reports =>
    let (e, reports) := m.transform s e reports
    transform s more e reports

/-- Errors for plain attributes that hold an interpolation. -/
def plainReports (d : Delimiters) (head : Head) : List Report :=
  head.plain.filterMap fun (name, value) =>
    if d.interpolates value then some (interpolatedAttribute name value "id" (head.rangeOf name))
    else none

def start (o : Options) (name : String) (attributes : List Attribute) (unary : Bool) (span : Span)
    (g : Growth) : Growth :=
  if g.skipped > 0 || g.frames.length ≥ nestingLimit then g.skip unary span
  else
    let (head, sorting) :=
      (Head.ofTag name attributes unary span).sorted fun d => (o.directives.find? d).isSome
    let (e, reports) := transform o.toSettings o.modules ⟨head, []⟩ (sorting.reverse ++ g.reports)
    let g := { g with reports := (plainReports o.delimiters e.head).reverse ++ reports }
    let (placement, g) := g.place e.head
    let g := if o.isPreformatted name then { g with preformatted := g.preformatted + 1 } else g
    let frame : Frame := ⟨e.head, e.children.reverse, placement⟩
    if unary then g.close o frame else { g with frames := frame :: g.frames }

def finish (o : Options) (span : Span) (g : Growth) : Growth :=
  if g.skipped > 0 then { g with skipped := g.skipped - 1 }
  else
    match g.frames with
    | [] => g
    | frame :: outer =>
      let head := { frame.head with span := .between frame.head.span.start span.stop }
      { g with frames := outer }.close o { frame with head := head }

/-- Elements whose text is taken as it stands. -/
def keepsReferences (name : String) : Bool := name == "script" || name == "style"

/-- The text that a text event adds to an element, if it adds any. Outside preformatted elements a
run of blanks is one space, and none at the beginning of the element. -/
def textFor (preformatted : Bool) (frame : Frame) (text : String) : Option String :=
  if preformatted || !allBlank text then
    some (if keepsReferences frame.head.name then text else decodeContent text)
  else if frame.children.isEmpty then none
  else some " "

/-- Adds a run of text after the other children; a space is not added to a space. -/
def addText (d : Delimiters) (text : String) (span : Option Span) (frame : Frame) : Frame :=
  if text == " " then
    match frame.children with
    | [] => { frame with children := [.text ⟨text, [.fixed text], span⟩] }
    | last :: _ =>
      if isSpace last then frame
      else { frame with children := .text ⟨text, [.fixed text], span⟩ :: frame.children }
  else { frame with children := .text ⟨text, d.split text, span⟩ :: frame.children }

def text (template : String) (o : Options) (content : String) (span : Option Span) (g : Growth) :
    Growth :=
  if g.skipped > 0 then g
  else
    match g.frames with
    | [] =>
      if content == template then g.complain (textForRoot (.ofSpan? span))
      else if allBlank content then g
      else g.complain (textOutsideRoot content (.ofSpan? span))
    | frame :: outer =>
      match textFor (g.preformatted > 0) frame content with
      | none => g
      | some text => { g with frames := addText o.delimiters text span frame :: outer }

def comment (content : String) (span : Span) (g : Growth) : Growth :=
  if g.skipped > 0 then g
  else
    match g.frames with
    | [] => g
    | frame :: outer =>
      let frame := { frame with children := .comment content span :: frame.children }
      { g with frames := frame :: outer }

def step (template : String) (o : Options) (g : Growth) : Event → Growth
  | .startTag name attributes unary span => g.start o name attributes unary span
  | .endTag _ span => g.finish o span
  | .text content span => g.text template o content span
  | .comment content span => g.comment content span
  | .warning message range => g.report (.error message range)

def ofEvents (template : String) (o : Options) (events : List Event) : Growth :=
  events.foldl (step template o) {}

end Growth

/-- The tree of a template that has no blanks at its ends, and what there is to report. -/
def tree (o : Options) (template : String) : Option Element × List Report :=
  let g := Growth.ofEvents template o (parse o.markup template)
  (g.root, g.reports.reverse)

end HtmlTemplate.Template
