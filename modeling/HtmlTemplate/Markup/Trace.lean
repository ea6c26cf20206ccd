import HtmlTemplate.Markup.OpenTags
import HtmlTemplate.Markup.Options
import HtmlTemplate.Markup.RawText
import HtmlTemplate.Markup.Reference

/-!
# Reading markup

Markup is cut from left to right into pieces: comments, declarations, tags, text, raw text. Every
piece keeps the characters that it covers and the events that it gives rise to, so that the trace
of a run shows where each event came from. The pieces cover the markup exactly
(`step_append`), and every step takes at least one character (`length_step_lt`), which is why
reading ends.
-/

namespace HtmlTemplate.Markup

open Text

inductive PieceKind where
  | comment
  | conditionalComment
  | doctype
  | endTag
  /-- A start tag, with the line feed after it that some elements drop. -/
  | startTag
  | text
  /-- The content of a raw-text element. -/
  | rawContent
  | rawEndTag
  /-- What is left when a construct begins and is not complete. -/
  | stalled
  deriving DecidableEq, Repr

/-- A stretch of markup with what reading it reports. -/
structure Piece where
  kind : PieceKind
  start : Nat
  source : List Char
  events : List Event

def Piece.span (p : Piece) : Span := ⟨p.start, extent p.source⟩

/-- One step of reading: the pieces it took, the elements open after it, and what is left. -/
structure Step where
  pieces : List Piece
  opened : List OpenTag
  rest : List Char

def Step.source (s : Step) : List Char := s.pieces.flatMap Piece.source

/-- The attributes of a start tag whose first attribute, with the blanks before it, is at a byte
position. -/
def attributesFrom (o : Options) (tag : String) (position : Nat) : List RawAttribute →
    List Attribute
  | [] => []
  | a :: more =>
    let name := String.ofList a.name
    let lineFeeds :=
      if tag == "a" && name == "href" then o.decodeLineFeedsInLinks else o.decodeLineFeeds
    { name
      value := String.ofList (decodeValue lineFeeds (a.value.getD []))
      span :=
        if o.attributeSpans then
          some ⟨position + extent a.gap, extent a.name + extent a.assignment⟩
        else none } ::
      attributesFrom o tag (position + extent a.source) more

def innermostIs (opened : List OpenTag) (name : String) : Bool :=
  match opened with
  | [] => false
  | t :: _ => t.name == name

/-- The elements that a start tag closes by the rules of the web: an open `p` before an element
that may not stand in it, and an element of the same name that may be left open. -/
def closeBefore (o : Options) (opened : List OpenTag) (name : String) (position : Nat) :
    List Event × List OpenTag :=
  if o.implicitClose then
    let (first, opened) :=
      if innermostIs opened "p" && endsParagraph name then closeNamed opened "p" (.empty position)
      else ([], opened)
    let (second, opened) :=
      if o.mayBeLeftOpen name && innermostIs opened name then
        closeNamed opened name (.empty position)
      else ([], opened)
    (first ++ second, opened)
  else ([], opened)

def takeStartTag (o : Options) (opened : List OpenTag) (position : Nat) (t : StartTag)
    (rest : List Char) : Step :=
  let source := t.source
  let span : Span := ⟨position, extent source⟩
  let name := String.ofList t.name
  let (closed, opened) := closeBefore o opened name span.stop
  let unary := o.isVoid name || t.close.slash
  let attributes := attributesFrom o name (position + 1 + extent t.name) t.attributes
  let events := closed ++ [.startTag name attributes unary span]
  let opened := if unary then opened else .named name span :: opened
  match dropsFirstLineFeed name, rest with
  | true, '\n' :: rest => ⟨[⟨.startTag, position, source ++ ['\n'], events⟩], opened, rest⟩
  | _, _ => ⟨[⟨.startTag, position, source, events⟩], opened, rest⟩

/-- The construct at the beginning of a text, if there is a complete one. -/
def takeConstruct? (o : Options) (opened : List OpenTag) (position : Nat) (s : List Char) :
    Option Step :=
  match readComment? s with
  | some t =>
    let events :=
      if o.keepComments then
        [.comment (String.ofList t.found) ⟨position, extent t.source⟩]
      else []
    some ⟨[⟨.comment, position, t.source, events⟩], opened, t.rest⟩
  | none =>
  match readConditionalComment? s with
  | some t => some ⟨[⟨.conditionalComment, position, t.source, []⟩], opened, t.rest⟩
  | none =>
  match readDoctype? s with
  | some t => some ⟨[⟨.doctype, position, t.source, []⟩], opened, t.rest⟩
  | none =>
  match readEndTag? s with
  | some t =>
    let (events, opened) :=
      closeNamed opened (String.ofList t.found) ⟨position, extent t.source⟩
    some ⟨[⟨.endTag, position, t.source, events⟩], opened, t.rest⟩
  | none =>
  match readStartTag? s with
  | some (t, rest) => some (takeStartTag o opened position t rest)
  | none => none

def malformedEnd (rest : String) (stop : Nat) : Event :=
  .warning ("Mal-formatted tag at end of template: \"" ++ rest ++ "\"") (.startingAt stop)

/-- Hands all that is left over as text. -/
def takeRest (opened : List OpenTag) (position : Nat) (s : List Char) : Step :=
  let content := String.ofList s
  let span : Span := ⟨position, extent s⟩
  let warnings := if opened.isEmpty then [] else [malformedEnd content span.stop]
  ⟨[⟨.stalled, position, s, .text content (some span) :: warnings⟩], opened, []⟩

def takeMarkup (o : Options) (lastClose : Option Nat) (opened : List OpenTag) (position : Nat)
    (s : List Char) : Step :=
  match takeConstruct? o opened position s with
  | some step => step
  | none =>
    match readText lastClose position s with
    | ([], _) => takeRest opened position s
    | (c :: run, rest) =>
      let span : Span := ⟨position, extent (c :: run)⟩
      ⟨[⟨.text, position, c :: run, [.text (String.ofList (c :: run)) (some span)]⟩], opened, rest⟩

/-- The content of the raw-text element `tag`, and its end tag if it has one. -/
def takeRawText (tag : String) (opened : List OpenTag) (position : Nat) (s : List Char) : Step :=
  let folded := lowercase tag
  let raw := readRawExtent folded.toList s
  let text := rawTextOf folded raw.content
  let events := if text.isEmpty then [] else [.text (String.ofList text) none]
  let content : Piece := ⟨.rawContent, position, raw.content, events⟩
  if raw.endTag.isEmpty then ⟨[content], opened, raw.rest⟩
  else
    let start := position + extent raw.content
    let (events, opened) := closeNamed opened tag ⟨start, extent raw.endTag⟩
    ⟨[content, ⟨.rawEndTag, start, raw.endTag, events⟩], opened, raw.rest⟩

/-- The name of the innermost open element if its content is raw text. -/
def rawTextElement? (o : Options) : List OpenTag → Option String
  | [] => none
  | t :: _ => if o.isRawText t.name then some t.name else none

def step (o : Options) (lastClose : Option Nat) (opened : List OpenTag) (position : Nat)
    (s : List Char) : Step :=
  match rawTextElement? o opened with
  | some tag => takeRawText tag opened position s
  | none => takeMarkup o lastClose opened position s

theorem takeConstruct?_append {o : Options} {opened : List OpenTag} {position : Nat}
    {s : List Char} {step : Step} (h : takeConstruct? o opened position s = some step) :
    step.source ++ step.rest = s := by
  unfold takeConstruct? at h
  split at h
  · next t ht =>
    obtain rfl := by simpa using h
    simpa [Step.source] using readComment?_append ht
  split at h
  · next t ht =>
    obtain rfl := by simpa using h
    simpa [Step.source] using readConditionalComment?_append ht
  split at h
  · next t ht =>
    obtain rfl := by simpa using h
    simpa [Step.source] using readDoctype?_append ht
  split at h
  · next t ht =>
    obtain rfl := by simpa using h
    simpa [Step.source] using readEndTag?_append ht
  split at h
  · next t rest ht =>
    obtain rfl := by simpa using h
    have := readStartTag?_append ht
    unfold takeStartTag
    simp only
    split <;> simpa [Step.source] using this
  · simp at h

/-- A step neither loses nor repeats a character. -/
theorem step_append (o : Options) (lastClose : Option Nat) (opened : List OpenTag)
    (position : Nat) (s : List Char) :
    (step o lastClose opened position s).source ++ (step o lastClose opened position s).rest =
      s := by
  unfold step
  split
  · next tag _ =>
    have := readRawExtent_append (lowercase tag).toList s
    unfold takeRawText
    simp only
    split
    · next he =>
      rw [List.isEmpty_iff.1 he] at this
      simpa [Step.source] using this
    · simpa [Step.source] using this
  · unfold takeMarkup
    split
    · next hs => exact takeConstruct?_append hs
    · have := readText_append lastClose position s
      split
      · simp [takeRest, Step.source]
      · next hr =>
        rw [hr] at this
        simpa [Step.source] using this

theorem source_takeConstruct?_ne_nil {o : Options} {opened : List OpenTag} {position : Nat}
    {s : List Char} {step : Step} (h : takeConstruct? o opened position s = some step) :
    step.source ≠ [] := by
  unfold takeConstruct? at h
  split at h
  · next t ht =>
    obtain rfl := by simpa using h
    simpa [Step.source] using readComment?_source_ne_nil ht
  split at h
  · next t ht =>
    obtain rfl := by simpa using h
    simpa [Step.source] using readConditionalComment?_source_ne_nil ht
  split at h
  · next t ht =>
    obtain rfl := by simpa using h
    simpa [Step.source] using readDoctype?_source_ne_nil ht
  split at h
  · next t ht =>
    obtain rfl := by simpa using h
    simpa [Step.source] using readEndTag?_source_ne_nil ht
  split at h
  · obtain rfl := by simpa using h
    unfold takeStartTag
    simp only
    split <;> simp [Step.source, StartTag.source]
  · simp at h

theorem source_step_ne_nil (o : Options) (lastClose : Option Nat) (opened : List OpenTag)
    (position : Nat) {s : List Char} (hs : s ≠ []) :
    (step o lastClose opened position s).source ≠ [] := by
  unfold step
  split
  · next tag _ =>
    have := readRawExtent_append (lowercase tag).toList s
    unfold takeRawText
    simp only
    split
    · next he =>
      rw [List.isEmpty_iff.1 he, rest_readRawExtent_eq_nil (List.isEmpty_iff.1 he)] at this
      simp only [List.append_nil] at this
      simpa [Step.source, this] using hs
    · next he =>
      simp only [Step.source, List.flatMap_cons, List.flatMap_nil]
      intro h
      simp_all
  · unfold takeMarkup
    split
    · next h => exact source_takeConstruct?_ne_nil h
    · split
      · simpa [takeRest, Step.source] using hs
      · simp [Step.source]

/-- Every step takes at least one character. -/
theorem length_step_lt (o : Options) (lastClose : Option Nat) (opened : List OpenTag)
    (position : Nat) {s : List Char} (hs : s ≠ []) :
    (step o lastClose opened position s).rest.length < s.length := by
  have h := congrArg List.length (step_append o lastClose opened position s)
  have := List.length_pos_iff.2 (source_step_ne_nil o lastClose opened position hs)
  simp only [List.length_append] at h
  omega

/-- The pieces of a text that stands at a byte position, and the elements open at its end. -/
def traceFrom (o : Options) (lastClose : Option Nat) (opened : List OpenTag) (position : Nat)
    (s : List Char) : List Piece × List OpenTag :=
  if hs : s = [] then ([], opened)
  else
    let next := step o lastClose opened position s
    have := length_step_lt o lastClose opened position hs
    let (pieces, opened) :=
      traceFrom o lastClose next.opened (position + extent next.source) next.rest
    (next.pieces ++ pieces, opened)
termination_by s.length

theorem traceFrom_of_ne_nil (o : Options) (lastClose : Option Nat) (opened : List OpenTag)
    (position : Nat) {s : List Char} (hs : s ≠ []) :
    traceFrom o lastClose opened position s =
      let next := step o lastClose opened position s
      let more := traceFrom o lastClose next.opened (position + extent next.source) next.rest
      (next.pieces ++ more.1, more.2) := by
  rw [traceFrom, dif_neg hs]

/-- The pieces of a markup, in order, and the elements that are open at its end. -/
def trace (o : Options) (markup : String) : List Piece × List OpenTag :=
  let s := markup.toList
  traceFrom o (lastClose s) [] 0 s

/-- The events of a markup. Every element that was opened is closed in the end. -/
def parse (o : Options) (markup : String) : List Event :=
  let (pieces, opened) := trace o markup
  pieces.flatMap Piece.events ++ closeAll opened markup.utf8ByteSize

/-- The pieces cover the text. -/
theorem source_traceFrom (o : Options) (lastClose : Option Nat) (opened : List OpenTag)
    (position : Nat) (s : List Char) :
    (traceFrom o lastClose opened position s).1.flatMap Piece.source = s := by
  fun_induction traceFrom o lastClose opened position s with
  | case1 => rfl
  | case2 opened position s hs next _ pieces final heq ih =>
    rw [heq] at ih
    simp only [List.flatMap_append]
    rw [ih]
    exact step_append o lastClose opened position s

end HtmlTemplate.Markup
