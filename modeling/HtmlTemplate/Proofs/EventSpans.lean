import HtmlTemplate.Proofs.Coverage

/-!
# What stands where events point

The spans of events are told while the markup is read: each step knows where it stands (`At`), so
what it takes is the slice of the whole markup that it says it is. A start event points at a tag of
its name, the attributes of the event each at their name, a text at itself, and a warning at the
start tag of the element that has no end tag, or at the end of the markup (`stands_parse`).
-/

namespace HtmlTemplate.Markup

open Text

/-! ### Positions -/

/-- The rest of a text stands at a byte position of it. -/
def At (whole : List Char) (position : Nat) (rest : List Char) : Prop :=
  ∃ before, whole = before ++ rest ∧ extent before = position

theorem At.slice {whole part rest : List Char} {position : Nat}
    (h : At whole position (part ++ rest)) : IsSlice whole ⟨position, extent part⟩ part := by
  obtain ⟨before, rfl, rfl⟩ := h
  exact ⟨before, rest, by rw [List.append_assoc], rfl, rfl⟩

theorem At.after {whole part rest : List Char} {position : Nat}
    (h : At whole position (part ++ rest)) : At whole (position + extent part) rest := by
  obtain ⟨before, rfl, rfl⟩ := h
  exact ⟨before ++ part, by rw [List.append_assoc], extent_append before part⟩

/-- A position behind which nothing is left is that of the end. -/
theorem At.stop {whole rest : List Char} {position : Nat} (h : At whole position rest) :
    position + extent rest = extent whole := by
  obtain ⟨before, rfl, rfl⟩ := h
  rw [extent_append]

/-- Both ends of a slice are positions. -/
theorem IsSlice.ends {whole part : List Char} {span : Span} (h : IsSlice whole span part) :
    ∃ after, At whole span.start (part ++ after) ∧ At whole span.stop after := by
  obtain ⟨before, after, rfl, hstart, hlength⟩ := h
  have hat : At (before ++ part ++ after) span.start (part ++ after) :=
    ⟨before, List.append_assoc .., hstart⟩
  refine ⟨after, hat, ?_⟩
  rw [Span.stop, ← hlength]
  exact hat.after

/-! A text stands in a longer one as it is, with all positions moved. -/

theorem At.within {whole rest : List Char} {position : Nat} (h : At whole position rest)
    (before after : List Char) :
    At (before ++ whole ++ after) (position + extent before) (rest ++ after) := by
  obtain ⟨first, rfl, rfl⟩ := h
  exact ⟨before ++ first, by simp, by rw [extent_append, Nat.add_comm]⟩

theorem IsSlice.within {whole part : List Char} {span : Span} (h : IsSlice whole span part)
    (before after : List Char) :
    IsSlice (before ++ whole ++ after) (span.shift (extent before)) part := by
  obtain ⟨first, last, rfl, hstart, hlength⟩ := h
  refine ⟨before ++ first, last ++ after, by simp, ?_, hlength⟩
  rw [extent_append, hstart, Nat.add_comm]
  rfl

/-! ### Events that stand -/

/-- The text at a span begins with a name. -/
def NamedAt (whole : List Char) (name : String) (span : Option Span) : Prop :=
  ∃ place rest, span = some place ∧ IsSlice whole place (name.toList ++ rest)

def Attribute.Stands (whole : List Char) (a : Attribute) : Prop := NamedAt whole a.name a.span

/-- A start tag of a name, or the beginning of one, is at a span. -/
def OpensAt (whole : List Char) (name : String) (span : Span) : Prop :=
  ∃ rest, IsSlice whole span ('<' :: name.toList ++ rest)

/-- An end tag of a name is at a span. -/
def ClosesAt (whole : List Char) (name : String) (span : Span) : Prop :=
  ∃ rest, IsSlice whole span ('<' :: '/' :: name.toList ++ rest)

/-- A start event may stand for a stray end tag. -/
def TagAt (whole : List Char) (name : String) (span : Span) : Prop :=
  OpensAt whole name span ∨ ClosesAt whole name span

/-- A text is at its span, if it has one. -/
def TextAt (whole : List Char) (content : String) (span : Option Span) : Prop :=
  ∀ place ∈ span, IsSlice whole place content.toList

/-- A warning is about a start tag, or about a rest that nothing could be made of. -/
inductive WarnsAt (whole : List Char) : String → Locus → Prop where
  | missingEnd {name : String} {span : Span} (h : OpensAt whole name span) :
    WarnsAt whole ("tag <" ++ name ++ "> has no matching end tag.") (.ofSpan span)
  | malformedEnd {before : List Char} {rest : String} (h : whole = before ++ rest.toList) :
    WarnsAt whole ("Mal-formatted tag at end of template: \"" ++ rest ++ "\"")
      (.startingAt (extent whole))

/-- What the event says of the markup is there where it says. -/
def Event.Stands (whole : List Char) : Event → Prop
  | .startTag name attributes _ span => TagAt whole name span ∧ ∀ a ∈ attributes, a.Stands whole
  | .text content span => TextAt whole content span
  | .warning message range => WarnsAt whole message range
  | .endTag .. => True
  | .comment .. => True

/-- The start tag of an open element is at its span. -/
structure OpenTag.Stands (whole : List Char) (t : OpenTag) : Prop where
  folded : t.folded = lowercase t.name
  opens : OpensAt whole t.name t.span

section

variable {whole : List Char}

/-! ### Closing elements -/

theorem stands_abandon {t : OpenTag} (h : t.Stands whole) (span : Span) :
    ∀ e ∈ t.abandon span, e.Stands whole := by
  rintro e he
  simp only [OpenTag.abandon, List.mem_cons, List.not_mem_nil, or_false] at he
  rcases he with rfl | rfl
  · exact .missingEnd h.opens
  · trivial

theorem stands_strayEndTag {name : String} {span : Span} (h : ClosesAt whole name span) :
    ∀ e ∈ strayEndTag name span, e.Stands whole := by
  have hstart : ∀ unary, (Event.startTag name [] unary span).Stands whole := fun _ =>
    ⟨.inr h, by simp⟩
  unfold strayEndTag
  split
  · simpa using hstart true
  · split
    · simpa [Event.Stands] using hstart false
    · simp

theorem stands_closeNamed {opened : List OpenTag} (hopened : ∀ t ∈ opened, t.Stands whole)
    {name : String} {span : Span} (h : ClosesAt whole name span) :
    (∀ e ∈ (closeNamed opened name span).1, e.Stands whole) ∧
      ∀ t ∈ (closeNamed opened name span).2, t.Stands whole := by
  obtain ⟨inner, t, outer, rfl, -, -, hclose⟩ | ⟨-, hclose⟩ := closeNamed_cases opened name span
  · rw [hclose]
    obtain ⟨hinner, hrest⟩ := List.forall_mem_append.1 hopened
    refine ⟨?_, (List.forall_mem_cons.1 hrest).2⟩
    intro e he
    rcases List.mem_append.1 he with he | he
    · obtain ⟨u, hu, he⟩ := List.mem_flatMap.1 he
      exact stands_abandon (hinner u hu) span e he
    · obtain rfl := List.mem_singleton.1 he
      trivial
  · rw [hclose]
    exact ⟨stands_strayEndTag h, hopened⟩

theorem stands_closeAll {opened : List OpenTag} (hopened : ∀ t ∈ opened, t.Stands whole)
    (position : Nat) : ∀ e ∈ closeAll opened position, e.Stands whole := by
  intro e he
  obtain ⟨t, ht, he⟩ := List.mem_flatMap.1 he
  exact stands_abandon (hopened t ht) _ e he

/-! ### Steps -/

/-- What a step reports and which elements it leaves open. -/
structure Step.Stands (whole : List Char) (step : Step) : Prop where
  events : ∀ e ∈ step.pieces.flatMap Piece.events, e.Stands whole
  opened : ∀ t ∈ step.opened, t.Stands whole

variable {o : Options} {opened : List OpenTag} {position : Nat}

theorem stands_attributesFrom (hspans : o.attributeSpans = true) (tag : String)
    {raws : List RawAttribute} {rest : List Char}
    (h : At whole position (raws.flatMap RawAttribute.source ++ rest)) :
    ∀ a ∈ attributesFrom o tag position raws, a.Stands whole := by
  induction raws generalizing position with
  | nil => simp [attributesFrom]
  | cons raw raws ih =>
    have hsource : At whole position (raw.gap ++ ((raw.name ++ raw.assignment) ++
        (raws.flatMap RawAttribute.source ++ rest))) := by
      simpa [RawAttribute.source] using h
    have hmore : At whole (position + extent raw.source)
        (raws.flatMap RawAttribute.source ++ rest) := by
      have hafter := hsource.after.after
      simpa [RawAttribute.source, Nat.add_assoc] using hafter
    rw [attributesFrom, List.forall_mem_cons]
    refine ⟨⟨_, raw.assignment, if_pos hspans, ?_⟩, ih hmore⟩
    have hslice := hsource.after.slice
    rw [extent_append] at hslice
    simpa using hslice

/-- A step of one piece. -/
theorem Step.stands_single {p : Piece} {rest : List Char}
    (hevents : ∀ e ∈ p.events, e.Stands whole) (hopened : ∀ t ∈ opened, t.Stands whole) :
    (Step.mk [p] opened rest).Stands whole :=
  ⟨by simpa using hevents, hopened⟩

variable (hspans : o.attributeSpans = true) (hopened : ∀ t ∈ opened, t.Stands whole)

include hspans hopened in
theorem stands_takeStartTag {t : StartTag} {rest : List Char}
    (h : At whole position (t.source ++ rest)) :
    (takeStartTag o opened position t rest).Stands whole := by
  obtain ⟨closed, outer, rfl, -, hclose⟩ := closeBefore_cases o (fun t ht => (hopened t ht).folded)
    (String.ofList t.name) (Span.mk position (extent t.source)).stop
  have houter := (List.forall_mem_append.1 hopened).2
  have hopens : OpensAt whole (String.ofList t.name) ⟨position, extent t.source⟩ :=
    ⟨t.attributes.flatMap RawAttribute.source ++ t.close.source,
      by simpa [StartTag.source] using h.slice⟩
  have hattributes : At whole (position + 1 + extent t.name)
      (t.attributes.flatMap RawAttribute.source ++ (t.close.source ++ rest)) := by
    have hname : At whole position (('<' :: t.name) ++
        (t.attributes.flatMap RawAttribute.source ++ (t.close.source ++ rest))) := by
      simpa [StartTag.source] using h
    rw [Nat.add_assoc]
    exact hname.after
  have hevents : ∀ unary, ∀ e ∈ (closed.map fun u => Event.endTag u.name (.empty (Span.mk position
      (extent t.source)).stop)) ++ [.startTag (String.ofList t.name) (attributesFrom o
        (String.ofList t.name) (position + 1 + extent t.name) t.attributes) unary
          ⟨position, extent t.source⟩], e.Stands whole := by
    intro unary
    rw [List.forall_mem_append, List.forall_mem_map, List.forall_mem_singleton]
    exact ⟨fun _ _ => trivial, .inl hopens, stands_attributesFrom hspans _ hattributes⟩
  have hstays : ∀ unary : Bool, ∀ u ∈ (if unary then outer else
      .named (String.ofList t.name) ⟨position, extent t.source⟩ :: outer), u.Stands whole := by
    rintro (_ | _)
    · exact List.forall_mem_cons.2 ⟨⟨rfl, hopens⟩, houter⟩
    · exact houter
  unfold takeStartTag
  simp only [hclose]
  split <;> exact Step.stands_single (hevents _) (hstays _)

include hspans hopened in
theorem stands_takeConstruct? {s : List Char} (h : At whole position s) {step : Step}
    (hstep : takeConstruct? o opened position s = some step) : step.Stands whole := by
  unfold takeConstruct? at hstep
  split at hstep
  · next t ht =>
    obtain rfl := by simpa using hstep
    refine Step.stands_single ?_ hopened
    split <;> simp [Event.Stands]
  split at hstep
  · obtain rfl := by simpa using hstep
    exact Step.stands_single (by simp) hopened
  split at hstep
  · obtain rfl := by simpa using hstep
    exact Step.stands_single (by simp) hopened
  split at hstep
  · next t ht =>
    obtain rfl := by simpa using hstep
    rw [← readEndTag?_append ht] at h
    obtain ⟨rest, hsource, -, -⟩ := isEndTag_of_readEndTag? ht
    have hcloses : ClosesAt whole (String.ofList t.found) ⟨position, extent t.source⟩ :=
      ⟨rest ++ ['>'], by simpa [hsource] using h.slice⟩
    obtain ⟨hevents, hstays⟩ := stands_closeNamed hopened hcloses
    exact Step.stands_single hevents hstays
  split at hstep
  · next t rest ht =>
    obtain rfl := by simpa using hstep
    rw [← readStartTag?_append ht] at h
    exact stands_takeStartTag hspans hopened h
  · cases hstep

include hopened in
theorem stands_takeRest {s : List Char} (h : At whole position s) :
    (takeRest opened position s).Stands whole := by
  have htext : (Event.text (String.ofList s) (some ⟨position, extent s⟩)).Stands whole := by
    rintro place ⟨⟩
    rw [String.toList_ofList]
    exact At.slice (by rwa [List.append_nil])
  have hwarning : (malformedEnd (String.ofList s) (Span.mk position (extent s)).stop).Stands
      whole := by
    rw [Span.stop, h.stop]
    obtain ⟨before, hwhole, -⟩ := h
    exact .malformedEnd (by rw [String.toList_ofList, hwhole])
  refine Step.stands_single (List.forall_mem_cons.2 ⟨htext, ?_⟩) hopened
  split
  · simp
  · exact List.forall_mem_singleton.2 hwarning

include hspans hopened in
theorem stands_takeMarkup (lastClose : Option Nat) {s : List Char} (h : At whole position s) :
    (takeMarkup o lastClose opened position s).Stands whole := by
  unfold takeMarkup
  split
  · next hstep => exact stands_takeConstruct? hspans hopened h hstep
  · have htext := readText_append lastClose position s
    split
    · exact stands_takeRest hopened h
    · next c run rest hread =>
      rw [hread] at htext
      rw [← htext] at h
      refine Step.stands_single ?_ hopened
      rw [List.forall_mem_singleton]
      rintro place ⟨⟩
      simpa using h.slice

/-- The content of raw text has no span; its end tag closes the element that it belongs to. -/
theorem stands_takeRawText {t : OpenTag} {outer : List OpenTag}
    (hopened : ∀ u ∈ t :: outer, u.Stands whole) (s : List Char) :
    (takeRawText t.name (t :: outer) position s).Stands whole := by
  obtain ⟨ht, houter⟩ := List.forall_mem_cons.1 hopened
  unfold takeRawText
  simp only [closeNamed_innermost ht.folded]
  generalize readRawExtent (lowercase t.name).toList s = raw
  have hcontent : ∀ text : List Char, ∀ e ∈ (if text.isEmpty then []
      else [Event.text (String.ofList text) none]), e.Stands whole := by
    intro text
    split <;> simp [Event.Stands, TextAt]
  split
  · exact Step.stands_single (hcontent _) hopened
  · refine ⟨?_, houter⟩
    simp only [List.flatMap_cons, List.flatMap_nil, List.append_nil, List.forall_mem_append,
      List.forall_mem_singleton]
    exact ⟨hcontent _, trivial⟩

include hspans hopened in
theorem stands_step (lastClose : Option Nat) {s : List Char} (h : At whole position s) :
    (step o lastClose opened position s).Stands whole := by
  unfold step
  split
  · next tag htag =>
    cases opened with
    | nil => cases htag
    | cons t outer =>
      simp only [rawTextElement?] at htag
      split at htag
      · cases htag
        exact stands_takeRawText hopened s
      · cases htag
  · exact stands_takeMarkup hspans hopened lastClose h

/-! ### Whole markup -/

include hspans hopened in
theorem stands_traceFrom (lastClose : Option Nat) {s : List Char} (h : At whole position s) :
    (∀ e ∈ (traceFrom o lastClose opened position s).1.flatMap Piece.events, e.Stands whole) ∧
      ∀ t ∈ (traceFrom o lastClose opened position s).2, t.Stands whole := by
  fun_induction traceFrom o lastClose opened position s with
  | case1 opened position => exact ⟨by simp, hopened⟩
  | case2 opened position s hs next _ pieces final heq ih =>
    have hstep : next.Stands whole := stands_step hspans hopened lastClose h
    rw [← step_append o lastClose opened position s] at h
    obtain ⟨hmore, hfinal⟩ := ih hstep.opened h.after
    rw [heq] at hmore hfinal
    rw [List.flatMap_append]
    exact ⟨List.forall_mem_append.2 ⟨hstep.events, hmore⟩, hfinal⟩

end

/-- If attributes have spans, all that the events of markup say of it is there where they say. -/
theorem stands_parse {o : Options} (hspans : o.attributeSpans = true) (markup : String) :
    ∀ e ∈ parse o markup, e.Stands markup.toList := by
  have hat : At markup.toList 0 markup.toList := ⟨[], rfl, rfl⟩
  have hnone : ∀ t ∈ ([] : List OpenTag), t.Stands markup.toList := by simp
  obtain ⟨hevents, hopened⟩ := stands_traceFrom hspans hnone (lastClose markup.toList) hat
  exact List.forall_mem_append.2 ⟨hevents, stands_closeAll hopened _⟩

end HtmlTemplate.Markup
