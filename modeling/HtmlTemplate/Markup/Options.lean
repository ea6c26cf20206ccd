import HtmlTemplate.Markup.Vocabulary

/-!
# Options of reading markup
-/

namespace HtmlTemplate.Markup

structure Options where
  /-- Close `p` and elements that may be left open where the rules of the web say so. -/
  implicitClose : Bool
  isVoid : NameTest
  mayBeLeftOpen : NameTest
  isRawText : NameTest
  keepComments : Bool
  /-- Decode the references of line feed and tab in attribute values. -/
  decodeLineFeeds : Bool
  /-- The same for the `href` of an `a`. -/
  decodeLineFeedsInLinks : Bool
  /-- Give every attribute its span. -/
  attributeSpans : Bool

/-- Nothing is void or may be left open; the plain-text elements have raw text. -/
def Options.plain : Options where
  implicitClose := false
  isVoid := NameTest.none
  mayBeLeftOpen := NameTest.none
  isRawText := hasRawText
  keepComments := false
  decodeLineFeeds := false
  decodeLineFeedsInLinks := false
  attributeSpans := false

end HtmlTemplate.Markup
