import HtmlTemplate.Markup.Trace

/-!
# Options of presentation

Some options only say how what is read is told: whether comments are kept, how the values of
attributes are decoded, whether attributes get spans. None of them has a say in how markup is cut
into pieces or in which elements are open, so two runs that differ in nothing else take the same
pieces step by step (`View.step_eq`), and their events differ at most in what those options are
about (`parse_structure_eq`).
-/

namespace HtmlTemplate.Markup

open Text

/-- The options differ at most in how things are told. -/
structure Options.SameStructure (o o' : Options) : Prop where
  implicitClose : o.implicitClose = o'.implicitClose
  isVoid : ∀ name, o.isVoid name = o'.isVoid name
  mayBeLeftOpen : ∀ name, o.mayBeLeftOpen name = o'.mayBeLeftOpen name
  isRawText : ∀ name, o.isRawText name = o'.isRawText name

/-- The options decode the values of attributes alike. -/
structure Options.SameDecoding (o o' : Options) : Prop where
  decodeLineFeeds : o.decodeLineFeeds = o'.decodeLineFeeds
  decodeLineFeedsInLinks : o.decodeLineFeedsInLinks = o'.decodeLineFeedsInLinks

/-- What is looked at in the events of markup beside their structure. The spans of attributes are
never looked at. -/
structure View where
  values : Bool
  comments : Bool

namespace View

/-- The structure alone. -/
def bare : View := ⟨false, false⟩

/-- The structure with the values of attributes. -/
def valued : View := ⟨true, false⟩

/-- All but the spans of attributes. -/
def spanless : View := ⟨true, true⟩

def ofAttribute (v : View) (a : Attribute) : Attribute where
  name := a.name
  value := if v.values then a.value else ""
  span := none

/-- What is seen of an event, unless it is a comment that is not looked at. -/
def ofEvent? (v : View) : Event → Option Event
  | .startTag name attributes unary span =>
    some (.startTag name (attributes.map v.ofAttribute) unary span)
  | .endTag name span => some (.endTag name span)
  | .text content span => some (.text content span)
  | .comment content span => if v.comments then some (.comment content span) else none
  | .warning message range => some (.warning message range)

def ofEvents (v : View) (events : List Event) : List Event := events.filterMap v.ofEvent?

def ofPiece (v : View) (p : Piece) : Piece := { p with events := v.ofEvents p.events }

def ofStep (v : View) (s : Step) : Step := { s with pieces := s.pieces.map v.ofPiece }

/-- The options are the same for all that is looked at. -/
structure Agree (v : View) (o o' : Options) : Prop extends o.SameStructure o' where
  decoding : v.values = true → o.SameDecoding o'
  keepComments : v.comments = true → o.keepComments = o'.keepComments

theorem ofEvents_append (v : View) (events more : List Event) :
    v.ofEvents (events ++ more) = v.ofEvents events ++ v.ofEvents more :=
  List.filterMap_append

/-- What is seen of the events of pieces is told from what is seen of the pieces. -/
theorem ofEvents_flatMap (v : View) (pieces : List Piece) :
    v.ofEvents (pieces.flatMap Piece.events) = (pieces.map v.ofPiece).flatMap Piece.events := by
  induction pieces with
  | nil => rfl
  | cons p pieces ih =>
    rw [List.flatMap_cons, ofEvents_append, ih]
    rfl

theorem source_ofStep (v : View) (s : Step) : (v.ofStep s).source = s.source := by
  simp [ofStep, Step.source, List.flatMap_map, ofPiece]

end View

/-! ### Steps -/

theorem Options.SameStructure.closeBefore_eq {o o' : Options} (h : o.SameStructure o')
    (opened : List OpenTag) (name : String) (position : Nat) :
    closeBefore o opened name position = closeBefore o' opened name position := by
  simp only [closeBefore, h.implicitClose, h.mayBeLeftOpen]

namespace View

section

variable {v : View} {o o' : Options} (h : v.Agree o o')
include h

theorem attributesFrom_eq (tag : String) (position : Nat) (raws : List RawAttribute) :
    (attributesFrom o tag position raws).map v.ofAttribute =
      (attributesFrom o' tag position raws).map v.ofAttribute := by
  induction raws generalizing position with
  | nil => rfl
  | cons raw raws ih =>
    rw [attributesFrom, attributesFrom, List.map_cons, List.map_cons, ih]
    congr 1
    cases hvalues : v.values with
    | false => simp [ofAttribute, hvalues]
    | true =>
      have hdecoding := h.decoding hvalues
      simp [ofAttribute, hdecoding.decodeLineFeeds, hdecoding.decodeLineFeedsInLinks]

theorem comment_eq (content : String) (span : Span) :
    v.ofEvents (if o.keepComments then [.comment content span] else []) =
      v.ofEvents (if o'.keepComments then [.comment content span] else []) := by
  cases hcomments : v.comments with
  | true => rw [h.keepComments hcomments]
  | false =>
    -- a comment that is kept is not looked at
    have hnone : ∀ keeps : Bool,
        v.ofEvents (if keeps then [.comment content span] else []) = [] := by
      intro keeps
      cases keeps <;> simp [ofEvents, ofEvent?, hcomments]
    rw [hnone, hnone]

theorem takeStartTag_eq (opened : List OpenTag) (position : Nat) (t : StartTag)
    (rest : List Char) :
    v.ofStep (takeStartTag o opened position t rest) =
      v.ofStep (takeStartTag o' opened position t rest) := by
  have hattributes := attributesFrom_eq h (String.ofList t.name) (position + 1 + extent t.name)
    t.attributes
  unfold takeStartTag
  simp only [h.closeBefore_eq, h.isVoid]
  split <;> simp [ofStep, ofPiece, ofEvents, ofEvent?, hattributes]

theorem takeConstruct?_eq (opened : List OpenTag) (position : Nat) (s : List Char) :
    (takeConstruct? o opened position s).map v.ofStep =
      (takeConstruct? o' opened position s).map v.ofStep := by
  unfold takeConstruct?
  split
  · simp only [Option.map_some, ofStep, List.map_cons, List.map_nil, ofPiece, comment_eq h]
  split
  · rfl
  split
  · rfl
  split
  · rfl
  split
  · exact congrArg some (takeStartTag_eq h opened position _ _)
  · rfl

theorem takeMarkup_eq (lastClose : Option Nat) (opened : List OpenTag) (position : Nat)
    (s : List Char) :
    v.ofStep (takeMarkup o lastClose opened position s) =
      v.ofStep (takeMarkup o' lastClose opened position s) := by
  have hconstruct := takeConstruct?_eq h opened position s
  unfold takeMarkup
  cases ho : takeConstruct? o opened position s with
  | none =>
    rw [ho, Option.map_none] at hconstruct
    rw [Option.map_eq_none_iff.1 hconstruct.symm]
  | some next =>
    rw [ho, Option.map_some] at hconstruct
    obtain ⟨next', ho', hnext⟩ := Option.map_eq_some_iff.1 hconstruct.symm
    rw [ho']
    exact hnext.symm

omit h in
theorem rawTextElement?_eq (h : o.SameStructure o') (opened : List OpenTag) :
    rawTextElement? o opened = rawTextElement? o' opened := by
  cases opened with
  | nil => rfl
  | cons t outer => simp only [rawTextElement?, h.isRawText]

/-- The same step is taken under both options. -/
theorem step_eq (lastClose : Option Nat) (opened : List OpenTag) (position : Nat)
    (s : List Char) :
    v.ofStep (step o lastClose opened position s) =
      v.ofStep (step o' lastClose opened position s) := by
  unfold step
  rw [rawTextElement?_eq h.toSameStructure]
  split
  · rfl
  · exact takeMarkup_eq h lastClose opened position s

/-! ### Runs -/

theorem traceFrom_eq (lastClose : Option Nat) (opened : List OpenTag) (position : Nat)
    (s : List Char) :
    (traceFrom o lastClose opened position s).1.map v.ofPiece =
        (traceFrom o' lastClose opened position s).1.map v.ofPiece ∧
      (traceFrom o lastClose opened position s).2 =
        (traceFrom o' lastClose opened position s).2 := by
  fun_induction traceFrom o lastClose opened position s with
  | case1 opened position => simp [traceFrom]
  | case2 opened position s hs next _ pieces final heq ih =>
    let next' := step o' lastClose opened position s
    have hstep : v.ofStep next = v.ofStep next' := step_eq h lastClose opened position s
    have hpieces : next.pieces.map v.ofPiece = next'.pieces.map v.ofPiece :=
      congrArg Step.pieces hstep
    have hopened : (v.ofStep next).opened = (v.ofStep next').opened := congrArg Step.opened hstep
    have hrest : (v.ofStep next).rest = (v.ofStep next').rest := congrArg Step.rest hstep
    have hsource := congrArg Step.source hstep
    rw [source_ofStep, source_ofStep] at hsource
    change next.opened = next'.opened at hopened
    change next.rest = next'.rest at hrest
    rw [heq, hopened, hrest, hsource] at ih
    rw [traceFrom_of_ne_nil o' lastClose opened position hs, List.map_append, List.map_append,
      hpieces, ih.1]
    exact ⟨rfl, ih.2⟩

/-- What is seen of markup does not depend on the options that are not looked at. -/
theorem parse_eq (markup : String) :
    v.ofEvents (parse o markup) = v.ofEvents (parse o' markup) := by
  obtain ⟨hpieces, hopened⟩ := traceFrom_eq h (lastClose markup.toList) [] 0 markup.toList
  unfold parse trace
  simp only
  rw [ofEvents_append, ofEvents_append, ofEvents_flatMap, ofEvents_flatMap, hpieces, hopened]

end

end View

/-- Keeping comments, decoding values and giving spans to attributes does not change the structure
of the events. If values are decoded alike, they are the same as well. -/
theorem parse_structure_eq {o o' : Options} (h : o.SameStructure o') (markup : String) :
    View.bare.ofEvents (parse o markup) = View.bare.ofEvents (parse o' markup) ∧
      (o.SameDecoding o' →
        View.valued.ofEvents (parse o markup) = View.valued.ofEvents (parse o' markup)) := by
  have hbare : View.bare.Agree o o' :=
    { h with
      decoding := fun hvalues => absurd hvalues Bool.false_ne_true
      keepComments := fun hcomments => absurd hcomments Bool.false_ne_true }
  refine ⟨View.parse_eq hbare markup, fun hdecoding => ?_⟩
  have hvalued : View.valued.Agree o o' :=
    { h with
      decoding := fun _ => hdecoding
      keepComments := fun hcomments => absurd hcomments Bool.false_ne_true }
  exact View.parse_eq hvalued markup

/-- The first two options differ in all that is presentation; the last agrees with the second on how
values are decoded. -/
theorem parse_structure_eq_sample :
    let silent := Options.plain
    let told : Options :=
      { silent with
        keepComments := true
        decodeLineFeeds := true
        decodeLineFeedsInLinks := true
        attributeSpans := true }
    let decoded : Options := { told with keepComments := false, attributeSpans := false }
    let markup := "<a href='x&#10;y'><!--c-->t</b></a><i>"
    (silent.SameStructure told ∧ told.SameStructure decoded ∧ told.SameDecoding decoded) ∧
      (View.valued.ofEvents (parse silent markup) ≠ View.valued.ofEvents (parse told markup) ∧
        parse told markup ≠ parse decoded markup) ∧
      View.bare.ofEvents (parse silent markup) = View.bare.ofEvents (parse told markup) ∧
      View.valued.ofEvents (parse told markup) = View.valued.ofEvents (parse decoded markup) := by
  intro silent told decoded markup
  have htold : silent.SameStructure told := ⟨rfl, fun _ => rfl, fun _ => rfl, fun _ => rfl⟩
  have hdecoded : told.SameStructure decoded := ⟨rfl, fun _ => rfl, fun _ => rfl, fun _ => rfl⟩
  have hdecoding : told.SameDecoding decoded := ⟨rfl, rfl⟩
  refine ⟨⟨htold, hdecoded, hdecoding⟩, by decide +kernel, ?_, ?_⟩
  · exact (parse_structure_eq htold markup).1
  · exact (parse_structure_eq hdecoded markup).2 hdecoding

end HtmlTemplate.Markup
