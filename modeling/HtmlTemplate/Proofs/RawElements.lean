import HtmlTemplate.Proofs.Coverage

/-!
# What is reported inside of raw-text elements

Nothing is looked for in the content of a raw-text element but its end tag. So at most one text
comes between the start event of such an element and its end event, and the warning of a missing end
tag if it is the end of the markup that closes it (`parse_rawText_opaque`). Reading goes on behind a
start tag with the element that it opened innermost (`attributedFrom_after_start`), and there it
takes the content and the end tag in one step (`attributedFrom_rawText`). A text without a span is
content of that kind, and no other text stands right in a raw-text element (`text_attributedFrom`).
-/

namespace HtmlTemplate.Markup

open Text

/-! ### Events of the rest of a markup -/

/-- The events of a text up to the end of the markup, with what they come from. -/
def attributedFrom (o : Options) (lastClose : Option Nat) (opened : List OpenTag) (position : Nat)
    (s : List Char) : List (Option Piece × Event) :=
  (traceFrom o lastClose opened position s).1.flatMap Piece.attributed ++
    (closeAll (traceFrom o lastClose opened position s).2 (position + extent s)).map
      fun e => (none, e)

theorem attributedEvents_eq (o : Options) (markup : String) :
    attributedEvents o markup =
      attributedFrom o (lastClose markup.toList) [] 0 markup.toList := by
  rw [attributedFrom, Nat.zero_add, extent_toList]
  rfl

section

variable (o : Options) (lastClose : Option Nat) (opened : List OpenTag) (position : Nat)

theorem attributedFrom_nil :
    attributedFrom o lastClose opened position [] =
      (closeAll opened position).map fun e => (none, e) := by
  simp [attributedFrom, traceFrom]

theorem attributedFrom_of_ne_nil {s : List Char} (hs : s ≠ []) :
    attributedFrom o lastClose opened position s =
      let next := step o lastClose opened position s
      next.pieces.flatMap Piece.attributed ++
        attributedFrom o lastClose next.opened (position + extent next.source) next.rest := by
  have hwhole := congrArg extent (step_append o lastClose opened position s)
  rw [extent_append] at hwhole
  simp only [attributedFrom, traceFrom_of_ne_nil o lastClose opened position hs,
    List.flatMap_append, List.append_assoc, Nat.add_assoc, hwhole]

end

theorem mem_flatMap_attributed {pieces : List Piece} {origin : Option Piece} {e : Event} :
    (origin, e) ∈ pieces.flatMap Piece.attributed ↔
      ∃ p ∈ pieces, origin = some p ∧ e ∈ p.events := by
  simp only [List.mem_flatMap, Piece.attributed, List.mem_map, Prod.mk.injEq]
  grind

/-! ### Behind a start tag -/

/-- A start tag that a step takes is all that it takes, and its last event is the start of an
element that, unless it is void, is the innermost one then. -/
def Step.OpensLast (position : Nat) (step : Step) : Prop :=
  ∀ p ∈ step.pieces, p.kind = .startTag →
    step.pieces = [p] ∧ p.start = position ∧
      ∃ (closed : List OpenTag) (stop : Span) (name : String) (attributes : List Attribute)
        (unary : Bool) (span : Span) (outer : List OpenTag),
        p.events = (closed.map fun t => .endTag t.name stop) ++
          [.startTag name attributes unary span] ∧
        isQualifiedName name.toList = true ∧
        step.opened = if unary then outer else .named name span :: outer

theorem Step.opensLast_of_kind {position : Nat} {step : Step}
    (h : ∀ p ∈ step.pieces, p.kind ≠ .startTag) : step.OpensLast position :=
  fun p hp hkind => absurd hkind (h p hp)

section

variable (o : Options) {opened : List OpenTag} (hopened : Named opened) (position : Nat)
include hopened

theorem opensLast_takeStartTag {t : StartTag} (hname : isQualifiedName t.name = true)
    (rest : List Char) : (takeStartTag o opened position t rest).OpensLast position := by
  obtain ⟨closed, outer, -, -, hclose⟩ := closeBefore_cases o hopened (String.ofList t.name)
    (Span.mk position (extent t.source)).stop
  have hname : isQualifiedName (String.ofList t.name).toList = true := by
    rwa [String.toList_ofList]
  intro p hp _
  unfold takeStartTag at hp ⊢
  simp only [hclose] at hp ⊢
  split at hp <;>
    · obtain rfl := by simpa using hp
      exact ⟨rfl, rfl, closed, _, _, _, _, _, outer, rfl, hname, rfl⟩

theorem opensLast_takeConstruct? {s : List Char} {step : Step}
    (h : takeConstruct? o opened position s = some step) : step.OpensLast position := by
  unfold takeConstruct? at h
  split at h
  · obtain rfl := by simpa using h
    exact Step.opensLast_of_kind (by simp)
  split at h
  · obtain rfl := by simpa using h
    exact Step.opensLast_of_kind (by simp)
  split at h
  · obtain rfl := by simpa using h
    exact Step.opensLast_of_kind (by simp)
  split at h
  · obtain rfl := by simpa using h
    exact Step.opensLast_of_kind (by simp)
  split at h
  · next ht =>
    obtain rfl := by simpa using h
    exact opensLast_takeStartTag o hopened position (names_of_readStartTag? ht).1 _
  · cases h

theorem opensLast_step (lastClose : Option Nat) (s : List Char) :
    (step o lastClose opened position s).OpensLast position := by
  unfold step
  split
  · apply Step.opensLast_of_kind
    unfold takeRawText
    simp only
    split <;> simp
  · unfold takeMarkup
    split
    · next h => exact opensLast_takeConstruct? o hopened position h
    · split <;> exact Step.opensLast_of_kind (by simp [takeRest])

end

/-- Where a step takes the start tag of an element that is not void, the start event is the last of
its events, and reading goes on in that element. -/
theorem Step.OpensLast.start {position : Nat} {step : Step} (h : step.OpensLast position)
    {before taken : List (Option Piece × Event)} {p : Piece} {name : String}
    {attributes : List Attribute} {span : Span}
    (hevents : step.pieces.flatMap Piece.attributed =
      before ++ (some p, .startTag name attributes false span) :: taken)
    (hkind : p.kind = .startTag) :
    taken = [] ∧ isQualifiedName name.toList = true ∧
      p.span.stop = position + extent step.source ∧ ∃ outer, step.opened = .named name span :: outer := by
  have hmem : (some p, Event.startTag name attributes false span) ∈
      step.pieces.flatMap Piece.attributed := by simp [hevents]
  obtain ⟨q, hq, heq, -⟩ := mem_flatMap_attributed.1 hmem
  obtain rfl : p = q := by simpa using heq
  obtain ⟨hpieces, hstart, closed, stop, name', attributes', unary, span', outer, hp, hname,
    hopened⟩ := h p hq hkind
  have hsource : step.source = p.source := by simp [Step.source, hpieces]
  rw [hpieces, List.flatMap_singleton, Piece.attributed, List.map_eq_append_iff] at hevents
  obtain ⟨earlier, later, hsplit, -, hlater⟩ := hevents
  obtain ⟨e, more, rfl, he, htaken⟩ := List.map_eq_cons_iff.1 hlater
  obtain ⟨-, rfl⟩ := Prod.mk.inj he
  rw [hp] at hsplit
  obtain ⟨rest, -, hrest⟩ | ⟨rest, hclosed, -⟩ := append_eq_append_cons_cases hsplit
  · -- the start event is the only one behind the end events
    obtain ⟨rfl, ⟨rfl, rfl, rfl, rfl⟩, rfl⟩ :
        rest = [] ∧ (name = name' ∧ attributes = attributes' ∧ unary = false ∧ span = span') ∧
          more = [] := by
      simpa [List.singleton_eq_append_iff] using hrest
    refine ⟨by simpa using htaken.symm, hname, ?_, outer, by simpa using hopened⟩
    rw [hsource, ← hstart]
    rfl
  · have : Event.startTag name attributes false span ∈
        closed.map fun t => Event.endTag t.name stop := by simp [hclosed]
    simp at this

/-- Behind the start tag of an element that is not void reading goes on in that element. -/
theorem attributedFrom_after_start {o : Options} {lastClose : Option Nat} {opened : List OpenTag}
    (hopened : Named opened) {position : Nat} {s : List Char}
    {before after : List (Option Piece × Event)} {p : Piece} {name : String}
    {attributes : List Attribute} {span : Span}
    (h : attributedFrom o lastClose opened position s =
      before ++ (some p, .startTag name attributes false span) :: after)
    (hkind : p.kind = .startTag) :
    ∃ outer passed following, isQualifiedName name.toList = true ∧
      Named (.named name span :: outer) ∧ s = passed ++ following ∧
      p.span.stop = position + extent passed ∧
      after = attributedFrom o lastClose (.named name span :: outer) p.span.stop following := by
  fun_induction traceFrom o lastClose opened position s generalizing before with
  | case1 opened position =>
    rw [attributedFrom_nil] at h
    have : (some p, Event.startTag name attributes false span) ∈
        (closeAll opened position).map fun e => (none, e) := by simp [h]
    simp at this
  | case2 opened position s hs next _ pieces final heq ih =>
    have hbalanced : Balanced opened (next.pieces.flatMap Piece.attributed) next.opened :=
      isBalanced_step o hopened position lastClose s
    have hnamed := hbalanced.named hopened
    have hwhole : next.source ++ next.rest = s := step_append o lastClose opened position s
    rw [attributedFrom_of_ne_nil o lastClose opened position hs] at h
    obtain ⟨more, -, hmore⟩ | ⟨taken, htaken, hafter⟩ := append_eq_append_cons_cases h
    · obtain ⟨outer, passed, following, hname, houter, hrest, hstop, hafter⟩ := ih hnamed hmore
      refine ⟨outer, next.source ++ passed, following, hname, houter, ?_, ?_, hafter⟩
      · rw [← hwhole, hrest, List.append_assoc]
      · rw [hstop, extent_append, Nat.add_assoc]
    · obtain ⟨rfl, hname, hstop, outer, houter⟩ :=
        (opensLast_step o hopened position lastClose s).start htaken hkind
      have houter : next.opened = .named name span :: outer := houter
      rw [houter] at hnamed hafter
      refine ⟨outer, next.source, next.rest, hname, hnamed, hwhole.symm, hstop, ?_⟩
      rw [hafter, hstop]
      rfl

/-! ### Raw text and what closes it -/

/-- The content of a raw-text element. -/
def Piece.rawContent (name : String) (position : Nat) (content : List Char) : Piece :=
  let text := rawTextOf (lowercase name) content
  ⟨.rawContent, position, content,
    if text = [] then [] else [.text (String.ofList text) none]⟩

/-- The end tag of a raw-text element. -/
def Piece.rawEndTag (name : String) (position : Nat) (source : List Char) : Piece :=
  ⟨.rawEndTag, position, source, [.endTag name ⟨position, extent source⟩]⟩

theorem takeRawText_eq {t : OpenTag} {outer : List OpenTag} (hnamed : Named (t :: outer))
    (position : Nat) {s : List Char} {raw : RawExtent}
    (hread : readRawExtent (lowercase t.name).toList s = raw) :
    takeRawText t.name (t :: outer) position s =
      if raw.endTag = [] then ⟨[.rawContent t.name position raw.content], t :: outer, raw.rest⟩
      else ⟨[.rawContent t.name position raw.content,
        .rawEndTag t.name (position + extent raw.content) raw.endTag], outer, raw.rest⟩ := by
  unfold takeRawText
  simp only [hread, closeNamed_innermost (hnamed t (by simp)), List.isEmpty_iff, Piece.rawContent,
    Piece.rawEndTag]

theorem rawContent_nil (name : String) (position : Nat) :
    Piece.rawContent name position [] = ⟨.rawContent, position, [], []⟩ := by
  have htext : rawTextOf (lowercase name) [] = [] := by
    rw [rawTextOf_of_not_mem (by simp)]
    cases dropsFirstLineFeed (lowercase name) <;> rfl
  simp [Piece.rawContent, htext]

/-- In a raw-text element the rest of the markup is its content and its end tag, or else its content
alone. -/
theorem attributedFrom_rawText {o : Options} (lastClose : Option Nat) {t : OpenTag}
    {outer : List OpenTag} (hnamed : Named (t :: outer)) (hraw : o.isRawText t.name = true)
    (position : Nat) {s : List Char} {raw : RawExtent}
    (hread : readRawExtent (lowercase t.name).toList s = raw) :
    attributedFrom o lastClose (t :: outer) position s =
      (Piece.rawContent t.name position raw.content).attributed ++
        if raw.endTag = [] then
          (closeAll (t :: outer) (position + extent s)).map fun e => (none, e)
        else
          (Piece.rawEndTag t.name (position + extent raw.content) raw.endTag).attributed ++
            attributedFrom o lastClose outer
              (position + extent raw.content + extent raw.endTag) raw.rest := by
  have happend : raw.content ++ (raw.endTag ++ raw.rest) = s := hread ▸ readRawExtent_append _ s
  by_cases hs : s = []
  · obtain ⟨hcontent, hend, -⟩ : raw.content = [] ∧ raw.endTag = [] ∧ raw.rest = [] := by
      simpa [hs] using happend
    rw [hs, hcontent, hend, rawContent_nil, attributedFrom_nil]
    rfl
  · have hstep : step o lastClose (t :: outer) position s =
        takeRawText t.name (t :: outer) position s := by
      simp [step, rawTextElement?, hraw]
    rw [attributedFrom_of_ne_nil o lastClose (t :: outer) position hs, hstep,
      takeRawText_eq hnamed position hread]
    by_cases hend : raw.endTag = []
    · have hrest : raw.rest = [] := by
        rw [← hread] at hend ⊢
        exact rest_readRawExtent_eq_nil hend
      rw [hend, hrest, List.append_nil, List.append_nil] at happend
      simp [hend, hrest, Step.source, attributedFrom_nil, Piece.rawContent, happend]
    · simp [hend, Step.source, Piece.rawContent, Piece.rawEndTag, Nat.add_assoc]

/-- The events at the end of a raw-text element: its end tag's, or those of the end
of the markup. -/
def rawEnding (t : OpenTag) (position : Nat) (endTag : List Char) (stop : Nat) :
    List (Option Piece × Event) :=
  if endTag = [] then [(none, t.missingEnd), (none, .endTag t.name (.empty stop))]
  else (Piece.rawEndTag t.name position endTag).attributed

/-- In a raw-text element its content comes first and then its end. -/
theorem exists_rawEnding {o : Options} (lastClose : Option Nat) {t : OpenTag} {outer : List OpenTag}
    (hnamed : Named (t :: outer)) (hraw : o.isRawText t.name = true) (position : Nat)
    {s : List Char} {raw : RawExtent}
    (hread : readRawExtent (lowercase t.name).toList s = raw) :
    ∃ more, attributedFrom o lastClose (t :: outer) position s =
      (Piece.rawContent t.name position raw.content).attributed ++
        (rawEnding t (position + extent raw.content) raw.endTag (position + extent s) ++ more) := by
  rw [attributedFrom_rawText lastClose hnamed hraw position hread]
  unfold rawEnding
  split
  · exact ⟨(closeAll outer (position + extent s)).map fun e => (none, e), rfl⟩
  · exact ⟨_, rfl⟩

/-- What stands between the start event of a raw-text element and its end: at most one text. -/
inductive RawInside : List (Option Piece × Event) → Prop where
  | empty : RawInside []
  | text (p : Piece) {content : String} (h : content ≠ "") :
      RawInside [(some p, .text content none)]

/-- The end of a raw-text element, which its own end tag gives or else the end of the markup. -/
inductive RawEnd (t : OpenTag) : List (Option Piece × Event) → Prop where
  | tag {p : Piece} (hkind : p.kind = .rawEndTag) (span : Span) :
      RawEnd t [(some p, .endTag t.name span)]
  | markup (position : Nat) :
      RawEnd t [(none, t.missingEnd), (none, .endTag t.name (.empty position))]

theorem rawInside_rawContent (name : String) (position : Nat) (content : List Char) :
    RawInside (Piece.rawContent name position content).attributed := by
  unfold Piece.attributed Piece.rawContent
  simp only
  generalize rawTextOf (lowercase name) content = text
  split
  · exact .empty
  · next hne =>
    refine .text _ fun h => hne ?_
    rw [← String.toList_ofList (l := text), h]
    rfl

theorem rawEnd_rawEnding (t : OpenTag) (position : Nat) (endTag : List Char) (stop : Nat) :
    RawEnd t (rawEnding t position endTag stop) := by
  unfold rawEnding
  split
  · exact .markup stop
  · exact .tag rfl _

/-! ### Where text stands -/

/-- A start tag among the events opened the element. -/
def OpenedByTag (events : List (Option Piece × Event)) (t : OpenTag) : Prop :=
  ∃ p attributes, p.kind = .startTag ∧
    (some p, .startTag t.name attributes false t.span) ∈ events

theorem OpenedByTag.mono {events more : List (Option Piece × Event)} (hsub : events ⊆ more)
    {t : OpenTag} (h : OpenedByTag events t) : OpenedByTag more t := by
  obtain ⟨p, attributes, hkind, hmem⟩ := h
  exact ⟨p, attributes, hkind, hsub hmem⟩

/-- A step reports text first if at all. It has no span exactly if the innermost element is a
raw-text element. -/
def Step.TextFirst (o : Options) (opened : List OpenTag) (step : Step) : Prop :=
  (∀ e ∈ step.pieces.flatMap Piece.events, e.text? = none) ∨
    ∃ content span more, step.pieces.flatMap Piece.events = .text content span :: more ∧
      (∀ e ∈ more, e.text? = none) ∧
      (span = none ↔ (rawTextElement? o opened).isSome = true)

theorem text?_closeNamed {opened : List OpenTag} {name : String} {span : Span} {e : Event}
    (h : e ∈ (closeNamed opened name span).1) : e.text? = none := by
  obtain ⟨inner, t, outer, -, -, -, hclose⟩ | ⟨-, hclose⟩ := closeNamed_cases opened name span
  · rw [hclose] at h
    simp only [List.mem_append, List.mem_flatMap, OpenTag.abandon, List.mem_cons, List.not_mem_nil,
      or_false] at h
    rcases h with ⟨u, -, rfl | rfl⟩ | rfl <;> rfl
  · rw [hclose, strayEndTag] at h
    split at h
    · obtain rfl := by simpa using h
      rfl
    · split at h
      · obtain rfl | rfl := by simpa using h
        · rfl
        · rfl
      · cases h

theorem mem_of_mem_closeNamed {opened : List OpenTag} {name : String} {span : Span} {t : OpenTag}
    (h : t ∈ (closeNamed opened name span).2) : t ∈ opened := by
  obtain ⟨inner, u, outer, rfl, -, -, hclose⟩ | ⟨-, hclose⟩ := closeNamed_cases opened name span
  · rw [hclose] at h
    simp [h]
  · rwa [hclose] at h

theorem Step.textFirst_of_none {o : Options} {opened : List OpenTag} {step : Step}
    (h : ∀ p ∈ step.pieces, ∀ e ∈ p.events, e.text? = none) : step.TextFirst o opened := by
  refine .inl fun e he => ?_
  obtain ⟨p, hp, he⟩ := List.mem_flatMap.1 he
  exact h p hp e he

/-- The elements that are open after a step were so before it, or its start tag opened them. -/
def Step.OpensByTag (opened : List OpenTag) (step : Step) : Prop :=
  ∀ t ∈ step.opened, t ∈ opened ∨ OpenedByTag (step.pieces.flatMap Piece.attributed) t

section

variable (o : Options) {opened : List OpenTag} (hopened : Named opened) (position : Nat)
include hopened

theorem takeStartTag_opens (t : StartTag) (rest : List Char) :
    (takeStartTag o opened position t rest).TextFirst o opened ∧
      (takeStartTag o opened position t rest).OpensByTag opened := by
  obtain ⟨closed, outer, rfl, -, hclose⟩ := closeBefore_cases o hopened (String.ofList t.name)
    (Span.mk position (extent t.source)).stop
  have hopens : ∀ (p : Piece) (name : String) (attributes : List Attribute) (unary : Bool)
      (span : Span) (rest : List Char), p.kind = .startTag →
      p.events = (closed.map fun u : OpenTag => Event.endTag u.name
        (.empty (Span.mk position (extent t.source)).stop)) ++
          [.startTag name attributes unary span] →
      (Step.mk [p] (if unary then outer else .named name span :: outer) rest).TextFirst o
          (closed ++ outer) ∧
        (Step.mk [p] (if unary then outer else .named name span :: outer) rest).OpensByTag
          (closed ++ outer) := by
    intro p name attributes unary span rest hkind hevents
    constructor
    · apply Step.textFirst_of_none
      simp only [List.mem_singleton, forall_eq, hevents, List.mem_append, List.mem_map]
      rintro e (⟨u, -, rfl⟩ | rfl) <;> rfl
    · intro u hu
      cases unary with
      | true => exact .inl (List.mem_append_right _ hu)
      | false =>
        rcases List.mem_cons.1 hu with rfl | hu
        · exact .inr ⟨p, attributes, hkind,
            mem_flatMap_attributed.2 ⟨p, by simp, rfl, by simp [hevents, OpenTag.named]⟩⟩
        · exact .inl (List.mem_append_right _ hu)
  unfold takeStartTag
  simp only [hclose]
  split <;> exact hopens _ _ _ _ _ _ rfl rfl

theorem takeConstruct?_opens {s : List Char} {step : Step}
    (h : takeConstruct? o opened position s = some step) :
    step.TextFirst o opened ∧ step.OpensByTag opened := by
  unfold takeConstruct? at h
  split at h
  · obtain rfl := by simpa using h
    refine ⟨Step.textFirst_of_none ?_, fun t ht => .inl ht⟩
    simp only [List.mem_singleton, forall_eq]
    split <;> simp [Event.text?]
  split at h
  · obtain rfl := by simpa using h
    exact ⟨Step.textFirst_of_none (by simp), fun t ht => .inl ht⟩
  split at h
  · obtain rfl := by simpa using h
    exact ⟨Step.textFirst_of_none (by simp), fun t ht => .inl ht⟩
  split at h
  · obtain rfl := by simpa using h
    refine ⟨Step.textFirst_of_none ?_, fun t ht => .inl (mem_of_mem_closeNamed ht)⟩
    simp only [List.mem_singleton, forall_eq]
    exact fun e he => text?_closeNamed he
  split at h
  · obtain rfl := by simpa using h
    exact takeStartTag_opens o hopened position _ _
  · cases h

omit hopened in
theorem takeRawText_opens {tag : String} (htag : rawTextElement? o opened = some tag)
    (s : List Char) :
    (takeRawText tag opened position s).TextFirst o opened ∧
      (takeRawText tag opened position s).OpensByTag opened := by
  unfold takeRawText
  simp only
  generalize readRawExtent (lowercase tag).toList s = raw
  generalize rawTextOf (lowercase tag) raw.content = text
  have hend : ∀ e ∈ (closeNamed opened tag
      ⟨position + extent raw.content, extent raw.endTag⟩).1, e.text? = none :=
    fun e he => text?_closeNamed he
  split
  · refine ⟨?_, fun t ht => .inl ht⟩
    cases text with
    | nil => exact .inl (by simp)
    | cons c text => exact .inr ⟨_, _, [], rfl, by simp, by simp [htag]⟩
  · refine ⟨?_, fun t ht => .inl (mem_of_mem_closeNamed ht)⟩
    cases text with
    | nil => exact .inl (by simpa using hend)
    | cons c text => exact .inr ⟨_, _, _, rfl, by simpa using hend, by simp [htag]⟩

theorem step_opens (lastClose : Option Nat) (s : List Char) :
    (step o lastClose opened position s).TextFirst o opened ∧
      (step o lastClose opened position s).OpensByTag opened := by
  unfold step
  split
  · next tag htag => exact takeRawText_opens o position htag s
  · next hmarkup =>
    unfold takeMarkup
    split
    · next h => exact takeConstruct?_opens o hopened position h
    · split
      · refine ⟨.inr ⟨_, _, _, rfl, ?_, by simp [hmarkup]⟩, fun t ht => .inl ht⟩
        cases opened <;> simp [malformedEnd, Event.text?]
      · exact ⟨.inr ⟨_, _, _, rfl, by simp, by simp [hmarkup]⟩, fun t ht => .inl ht⟩

end

theorem rawTextElement?_isSome_iff {o : Options} {opened : List OpenTag} :
    (rawTextElement? o opened).isSome = true ↔ ∃ t ∈ opened.head?, o.isRawText t.name = true := by
  cases opened with
  | nil => simp [rawTextElement?]
  | cons t outer => by_cases h : o.isRawText t.name = true <;> simp [rawTextElement?, h]

/-- Where a step reports a text, that is its first event. -/
theorem Step.TextFirst.text {o : Options} {opened : List OpenTag} {step : Step}
    (h : step.TextFirst o opened) {before taken : List (Option Piece × Event)}
    {origin : Option Piece} {content : String} {span : Option Span}
    (hevents : step.pieces.flatMap Piece.attributed = before ++ (origin, .text content span) :: taken) :
    before = [] ∧ (span = none ↔ ∃ t ∈ opened.head?, o.isRawText t.name = true) := by
  have hsplit : step.pieces.flatMap Piece.events =
      before.map Prod.snd ++ .text content span :: taken.map Prod.snd := by
    rw [← map_snd_flatMap_attributed, hevents]
    simp
  obtain hnone | ⟨content', span', more, hfirst, hmore, hspan⟩ := h
  · have := hnone (.text content span) (by simp [hsplit])
    cases this
  · rw [hfirst, eq_comm] at hsplit
    cases before with
    | nil =>
      obtain ⟨hsame, -⟩ := List.cons.inj hsplit
      obtain ⟨rfl, rfl⟩ := by simpa using hsame
      exact ⟨rfl, hspan.trans rawTextElement?_isSome_iff⟩
    | cons x before =>
      obtain ⟨-, hrest⟩ := List.cons.inj hsplit
      have := hmore (.text content span) (by simp [← hrest])
      cases this

/-- A text has no span exactly if it stands right in a raw-text element, and the elements that it
stands in were open before or start tags opened them. -/
theorem text_attributedFrom {o : Options} {lastClose : Option Nat} {opened : List OpenTag}
    (hopened : Named opened) {position : Nat} {s : List Char}
    {before after : List (Option Piece × Event)} {origin : Option Piece} {content : String}
    {span : Option Span}
    (h : attributedFrom o lastClose opened position s =
      before ++ (origin, .text content span) :: after) :
    ∃ innermost, openAfter? opened (before.map Prod.snd) = some innermost ∧
      (∀ t ∈ innermost, t ∈ opened ∨ OpenedByTag before t) ∧
      (span = none ↔ ∃ t ∈ innermost.head?, o.isRawText t.name = true) := by
  fun_induction traceFrom o lastClose opened position s generalizing before with
  | case1 opened position =>
    rw [attributedFrom_nil] at h
    have : (origin, Event.text content span) ∈
        (closeAll opened position).map fun e => (none, e) := by simp [h]
    simp [closeAll, OpenTag.abandon, OpenTag.missingEnd] at this
  | case2 opened position s hs next _ pieces final heq ih =>
    have hbalanced : Balanced opened (next.pieces.flatMap Piece.attributed) next.opened :=
      isBalanced_step o hopened position lastClose s
    obtain ⟨hfirst, hopens⟩ : next.TextFirst o opened ∧ next.OpensByTag opened :=
      step_opens o hopened position lastClose s
    rw [attributedFrom_of_ne_nil o lastClose opened position hs] at h
    obtain ⟨more, rfl, hmore⟩ | ⟨taken, htaken, -⟩ := append_eq_append_cons_cases h
    · obtain ⟨innermost, hopen, hin, hspan⟩ := ih (hbalanced.named hopened) hmore
      refine ⟨innermost, ?_, fun t ht => ?_, hspan⟩
      · rw [List.map_append, openAfter?_append, hbalanced.openAfter?_eq, Option.bind_some, hopen]
      · rcases hin t ht with ht | ht
        · exact (hopens t ht).imp_right (.mono (List.subset_append_left ..))
        · exact .inr (ht.mono (List.subset_append_right ..))
    · obtain ⟨rfl, hspan⟩ := hfirst.text htaken
      exact ⟨opened, rfl, fun t ht => .inl ht, hspan⟩

/-- The content of a raw-text element is opaque. Between the start event of such an element that a
start tag opened and its end event at most one text is reported, and if the end of the markup closes
the element the warning of its missing end tag. A text has no span exactly if it stands right in
such an element. -/
theorem parse_rawText_opaque (o : Options) (markup : String) :
    (attributedEvents o markup).map Prod.snd = parse o markup ∧
    (∀ before p name attributes span after,
      attributedEvents o markup = before ++ (some p, .startTag name attributes false span) :: after →
        p.kind = .startTag → o.isRawText name = true →
          ∃ inside ending more, after = inside ++ (ending ++ more) ∧ RawInside inside ∧
            RawEnd (.named name span) ending) ∧
    ∀ before origin content span after,
      attributedEvents o markup = before ++ (origin, .text content span) :: after →
        ∃ opened, openAfter? [] (before.map Prod.snd) = some opened ∧
          (∀ t ∈ opened, OpenedByTag before t) ∧
          (span = none ↔ ∃ t ∈ opened.head?, o.isRawText t.name = true) := by
  refine ⟨map_snd_attributedEvents o markup, ?_, ?_⟩
  · intro before p name attributes span after h hkind hraw
    rw [attributedEvents_eq] at h
    obtain ⟨outer, passed, following, -, hnamed, -, -, rfl⟩ :=
      attributedFrom_after_start named_nil h hkind
    obtain ⟨more, hafter⟩ := exists_rawEnding (lastClose markup.toList) hnamed hraw p.span.stop
      (s := following) rfl
    exact ⟨_, _, more, hafter, rawInside_rawContent .., rawEnd_rawEnding ..⟩
  · intro before origin content span after h
    rw [attributedEvents_eq] at h
    obtain ⟨innermost, hopen, hin, hspan⟩ := text_attributedFrom named_nil h
    exact ⟨innermost, hopen, fun t ht => (hin t ht).resolve_left (by simp), hspan⟩

end HtmlTemplate.Markup
