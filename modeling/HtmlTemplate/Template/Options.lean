import HtmlTemplate.Markup.Options
import HtmlTemplate.OrderedMap
import HtmlTemplate.Report
import HtmlTemplate.Template.Node

/-!
# Options of a compile

Options come in two layers: those of a compiler, which are complete, and those of one call, which
replace or extend them (`Options.override`).
-/

namespace HtmlTemplate.Template

open Markup

/-- The code of the children that a directive gives its element, if it gives any. -/
abbrev ChildrenCode := Directive → Option String

/-- All options but the modules. -/
structure Settings where
  implicitClose : Bool
  isVoid : NameTest
  mayBeLeftOpen : NameTest
  isRawText : NameTest
  isPreformatted : NameTest
  decodeLineFeeds : Bool
  decodeLineFeedsInLinks : Bool
  givePositions : Bool
  keepComments : Bool
  delimiters : Delimiters
  /-- Give static subtrees procedures of their own. -/
  optimize : Bool
  /-- Features that leave an element static. -/
  staticKeys : List String
  directives : OrderedMap ChildrenCode

/-- A transformation of elements that a compile applies once the attributes are sorted, with the
features whose elements it leaves static. It is handed an element that has no children yet and what
was reported so far, newest first, and may do with both as it likes. -/
structure Module where
  staticKeys : List String
  transform : Settings → Element → List Report → Element × List Report

structure Options extends Settings where
  modules : List Module

/-- What one call asks for; what it leaves out stays as the compiler has it. -/
structure Overrides where
  implicitClose : Option Bool := none
  isVoid : Option NameTest := none
  mayBeLeftOpen : Option NameTest := none
  isRawText : Option NameTest := none
  isPreformatted : Option NameTest := none
  decodeLineFeeds : Option Bool := none
  decodeLineFeedsInLinks : Option Bool := none
  givePositions : Option Bool := none
  keepComments : Option Bool := none
  delimiters : Option Delimiters := none
  optimize : Option Bool := none
  staticKeys : Option (List String) := none
  /-- Modules that run after those of the compiler. -/
  modules : List Module := []
  /-- Directives beside those of the compiler; one of the same name replaces it. -/
  directives : OrderedMap ChildrenCode := []

namespace Options

def plain : Options where
  implicitClose := false
  isVoid := NameTest.none
  mayBeLeftOpen := NameTest.none
  isRawText := hasRawText
  isPreformatted := NameTest.none
  decodeLineFeeds := false
  decodeLineFeedsInLinks := false
  givePositions := false
  keepComments := false
  delimiters := .braces
  optimize := true
  staticKeys := []
  modules := []
  directives := []

def override (o : Options) (v : Overrides) : Options where
  implicitClose := v.implicitClose.getD o.implicitClose
  isVoid := v.isVoid.getD o.isVoid
  mayBeLeftOpen := v.mayBeLeftOpen.getD o.mayBeLeftOpen
  isRawText := v.isRawText.getD o.isRawText
  isPreformatted := v.isPreformatted.getD o.isPreformatted
  decodeLineFeeds := v.decodeLineFeeds.getD o.decodeLineFeeds
  decodeLineFeedsInLinks := v.decodeLineFeedsInLinks.getD o.decodeLineFeedsInLinks
  givePositions := v.givePositions.getD o.givePositions
  keepComments := v.keepComments.getD o.keepComments
  delimiters := v.delimiters.getD o.delimiters
  optimize := v.optimize.getD o.optimize
  staticKeys := v.staticKeys.getD o.staticKeys
  modules := o.modules ++ v.modules
  directives := OrderedMap.insertAll v.directives o.directives

/-- The options for reading the markup of a template. -/
def markup (o : Options) : Markup.Options where
  implicitClose := o.implicitClose
  isVoid := o.isVoid
  mayBeLeftOpen := o.mayBeLeftOpen
  isRawText := o.isRawText
  keepComments := o.keepComments
  decodeLineFeeds := o.decodeLineFeeds
  decodeLineFeedsInLinks := o.decodeLineFeedsInLinks
  attributeSpans := o.givePositions

/-- The static keys with those that the modules add, each once, in order. -/
def effectiveStaticKeys (o : Options) : List String :=
  orderedSet (o.staticKeys ++ o.modules.flatMap Module.staticKeys)

end Options

end HtmlTemplate.Template
