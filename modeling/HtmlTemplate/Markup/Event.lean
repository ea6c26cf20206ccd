import HtmlTemplate.Span

/-!
# Events of markup

What reading markup reports, in the order of the source. The tags need not match in the source;
the events always do.
-/

namespace HtmlTemplate.Markup

/-- An attribute of a start tag with its value decoded. The span, which leaves out the blanks
before the name, is there only on request. -/
structure Attribute where
  name : String
  value : String
  span : Option Span
  deriving DecidableEq, Repr, Inhabited

inductive Event where
  | startTag (name : String) (attributes : List Attribute) (unary : Bool) (span : Span)
  | endTag (name : String) (span : Span)
  /-- Text; the content of a raw-text element has no span. -/
  | text (content : String) (span : Option Span)
  | comment (content : String) (span : Span)
  | warning (message : String) (range : Locus)
  deriving DecidableEq, Repr, Inhabited

namespace Event

def text? : Event → Option String
  | .text content _ => some content
  | _ => none

def isWarning : Event → Bool
  | .warning .. => true
  | _ => false

end Event

/-- All text of a list of events. -/
def textOf (events : List Event) : String := String.join (events.filterMap Event.text?)

end HtmlTemplate.Markup
