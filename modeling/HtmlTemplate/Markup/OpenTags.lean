import HtmlTemplate.Markup.Event
import HtmlTemplate.Text.Lowercase

/-!
# Open tags

The elements that are open at a place, innermost first, and what an end tag does to them. An end
tag closes the innermost element of its name, compared in small letters, and with a warning each
every element inside that one. An end tag of no open element is passed over, except that `</br>`
stands for `<br>` and `</p>` for an empty `p`.
-/

namespace HtmlTemplate.Markup

open Text

structure OpenTag where
  name : String
  /-- The name in small letters. -/
  folded : String
  /-- Where the start tag is. -/
  span : Span
  deriving DecidableEq, Repr

def OpenTag.named (name : String) (span : Span) : OpenTag := ⟨name, lowercase name, span⟩

def OpenTag.missingEnd (t : OpenTag) : Event :=
  .warning ("tag <" ++ t.name ++ "> has no matching end tag.") (.ofSpan t.span)

/-- Closes an element that has no end tag of its own. -/
def OpenTag.abandon (span : Span) (t : OpenTag) : List Event :=
  [t.missingEnd, .endTag t.name span]

/-- What an end tag stands for that belongs to no open element. -/
def strayEndTag (name : String) (span : Span) : List Event :=
  if lowercase name == "br" then [.startTag name [] true span]
  else if lowercase name == "p" then [.startTag name [] false span, .endTag name span]
  else []

/-- What the end tag of a name does: its events and the elements that stay open. -/
def closeNamed (opened : List OpenTag) (name : String) (span : Span) :
    List Event × List OpenTag :=
  match opened.span fun t => t.folded != lowercase name with
  | (inner, t :: outer) => (inner.flatMap (OpenTag.abandon span) ++ [.endTag t.name span], outer)
  | (_, []) => (strayEndTag name span, opened)

/-- What the end of the markup does. -/
def closeAll (opened : List OpenTag) (position : Nat) : List Event :=
  opened.flatMap (OpenTag.abandon (.empty position))

end HtmlTemplate.Markup
