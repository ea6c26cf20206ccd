import HtmlTemplate.Text.Lowercase

/-!
# Element vocabularies

The sets of element names that reading and compiling consult. Membership is exact unless a set
says that it disregards the case of ASCII letters.
-/

namespace HtmlTemplate.Markup

open Text

/-- A yes-or-no test over element names. -/
abbrev NameTest := String → Bool

def NameTest.none : NameTest := fun _ => false

/-- Exact membership in a list of names. -/
def NameTest.among (names : List String) : NameTest := fun name => names.contains name

def isOneOfIgnoringCase (names : List String) (name : String) : Bool :=
  names.any fun n => eqIgnoringAsciiCase name.toList n.toList

/-- Elements whose content is raw text up to their own end tag, in any case of letters. -/
def hasRawText : NameTest := isOneOfIgnoringCase ["script", "style", "textarea"]

/-- Raw-text elements whose content passes untouched; the others lose comment and character-data
wrappers. -/
def keepsWrappers (name : String) : Bool :=
  hasRawText name || name == "noscript"

/-- Elements that drop a line feed right after their start tag, in any case of letters. -/
def dropsFirstLineFeed : NameTest := isOneOfIgnoringCase ["pre", "textarea"]

/-- Elements that may not stand in an open `p`. -/
def endsParagraph : NameTest := NameTest.among
  ["address", "article", "aside", "base", "blockquote", "body", "caption", "col", "colgroup",
    "dd", "details", "dialog", "div", "dl", "dt", "fieldset", "figcaption", "figure", "footer",
    "form", "h1", "h2", "h3", "h4", "h5", "h6", "head", "header", "hgroup", "hr", "html",
    "legend", "li", "menuitem", "meta", "optgroup", "option", "param", "rp", "rt", "source",
    "style", "summary", "tbody", "td", "tfoot", "th", "thead", "title", "tr", "track"]

/-- The void elements of the web. -/
def isVoidElement : NameTest := NameTest.among
  ["area", "base", "br", "col", "embed", "frame", "hr", "img", "input", "isindex", "keygen",
    "link", "meta", "param", "source", "track", "wbr"]

/-- Elements whose end tag may be left out. -/
def mayBeLeftOpen : NameTest := NameTest.among
  ["colgroup", "dd", "dt", "li", "options", "p", "td", "tfoot", "th", "thead", "tr", "source"]

/-- The element that keeps its blanks. -/
def isPreformatted : NameTest := NameTest.among ["pre"]

end HtmlTemplate.Markup
