import HtmlTemplate.Proofs.Balance

/-!
# The elements that tags bracket

Start and end events stand like brackets around what is in an element. `Brackets` is the grammar of
events that leave nothing open, together with the outline of the elements in them. Events have one
outline at most (`Brackets.unique`), and they have one if the end events name the innermost open
element throughout and nothing is open in the end, as with those of any markup
(`exists_brackets_parse`).
-/

namespace HtmlTemplate.Markup

/-- An element as its tags show it, with the elements in it. -/
inductive Outline where
  | element (name : String) (attributes : List Attribute) (unary : Bool) (children : List Outline)

/-- Whether an event opens or closes an element. -/
def Event.isTag : Event → Bool
  | .startTag .. => true
  | .endTag .. => true
  | .text .. => false
  | .comment .. => false
  | .warning .. => false

/-- Events that leave nothing open, with the outlines of the outermost elements in order. -/
inductive Brackets : List Event → List Outline → Prop where
  | nil : Brackets [] []
  | content {e : Event} {events : List Event} {outlines : List Outline} (he : e.isTag = false)
      (hrest : Brackets events outlines) : Brackets (e :: events) outlines
  | unary {events : List Event} {outlines : List Outline} (name : String)
      (attributes : List Attribute) (span : Span) (hrest : Brackets events outlines) :
      Brackets (.startTag name attributes true span :: events)
        (.element name attributes true [] :: outlines)
  | element {inner rest : List Event} {children outlines : List Outline} (name : String)
      (attributes : List Attribute) (span span' : Span) (hinner : Brackets inner children)
      (hrest : Brackets rest outlines) :
      Brackets (.startTag name attributes false span :: inner ++ .endTag name span' :: rest)
        (.element name attributes false children :: outlines)

/-! ### There is one outline at most -/

/-- Elements that are being outlined: those that are complete, newest first, where the innermost
open element is, and the open elements with those before them. -/
structure Outlining where
  complete : List Outline := []
  opened : List (String × List Attribute × List Outline) := []

def Outlining.step (s : Outlining) : Event → Outlining
  | .startTag name attributes true _ =>
    { s with complete := .element name attributes true [] :: s.complete }
  | .startTag name attributes false _ => ⟨[], (name, attributes, s.complete) :: s.opened⟩
  | .endTag _ _ =>
    match s.opened with
    | [] => s
    | (name, attributes, before) :: outer =>
      ⟨.element name attributes false s.complete.reverse :: before, outer⟩
  | .text .. => s
  | .comment .. => s
  | .warning .. => s

theorem Brackets.foldl_step {events : List Event} {outlines : List Outline}
    (h : Brackets events outlines) (s : Outlining) :
    events.foldl Outlining.step s = { s with complete := outlines.reverse ++ s.complete } := by
  induction h generalizing s with
  | nil => rfl
  | @content e events outlines he _ ih =>
    have hstep : s.step e = s := by cases e <;> first | rfl | cases he
    rw [List.foldl_cons, hstep, ih]
  | unary name attributes span _ ih =>
    rw [List.foldl_cons, ih]
    simp [Outlining.step]
  | element name attributes span span' _ _ ihinner ihrest =>
    rw [List.cons_append, List.foldl_cons, List.foldl_append, ihinner, List.foldl_cons, ihrest]
    simp [Outlining.step]

theorem Brackets.unique {events : List Event} {outlines outlines' : List Outline}
    (h : Brackets events outlines) (h' : Brackets events outlines') : outlines = outlines' := by
  have hresult := (h.foldl_step {}).symm.trans (h'.foldl_step {})
  have hreverse : outlines.reverse ++ [] = outlines'.reverse ++ [] :=
    congrArg Outlining.complete hresult
  simpa using hreverse

/-! ### Well-nested events have an outline -/

/-- Events that close what is open, innermost first. -/
def Closes : List OpenTag → List Event → Prop
  | [], events => ∃ outlines, Brackets events outlines
  | t :: outer, events => ∃ inner outlines span rest,
      events = inner ++ .endTag t.name span :: rest ∧ Brackets inner outlines ∧ Closes outer rest

/-- What may stand before events without an outline being lost may stand before closing ones. -/
theorem Closes.append_left {opened : List OpenTag} {events : List Event}
    (h : Closes opened events) (first : List Event)
    (hfirst : ∀ {inner outlines}, Brackets inner outlines →
      ∃ outlines', Brackets (first ++ inner) outlines') :
    Closes opened (first ++ events) := by
  cases opened with
  | nil =>
    obtain ⟨outlines, hevents⟩ := h
    exact hfirst hevents
  | cons t outer =>
    obtain ⟨inner, outlines, span, rest, rfl, hinner, hrest⟩ := h
    obtain ⟨outlines', hinner'⟩ := hfirst hinner
    exact ⟨first ++ inner, outlines', span, rest, (List.append_assoc ..).symm, hinner', hrest⟩

theorem closes_of_openAfter? {opened : List OpenTag} {events : List Event}
    (h : openAfter? opened events = some []) : Closes opened events := by
  induction events generalizing opened with
  | nil =>
    obtain rfl := Option.some.inj h
    exact ⟨[], .nil⟩
  | cons e events ih =>
    rw [openAfter?_cons, Option.bind_eq_some_iff] at h
    obtain ⟨middle, hmiddle, hrest⟩ := h
    have hevents := ih hrest
    have hcontent : e.isTag = false → middle = opened → Closes opened (e :: events) := by
      rintro he rfl
      exact hevents.append_left [e] fun hinner => ⟨_, hinner.content he⟩
    cases e with
    | startTag name attributes unary span =>
      obtain rfl := Option.some.inj hmiddle
      cases unary with
      | true =>
        exact hevents.append_left [_] fun hinner => ⟨_, hinner.unary name attributes span⟩
      | false =>
        -- the first closing event belongs to this tag, and the rest closes what was open before
        obtain ⟨inner, children, span', rest, rfl, hinner, hclosed⟩ := hevents
        have happended := hclosed.append_left
          (.startTag name attributes false span :: inner ++ [.endTag name span']) fun hmore => by
            rw [List.append_assoc]
            exact ⟨_, .element name attributes span span' hinner hmore⟩
        rwa [List.append_assoc] at happended
    | endTag name span =>
      cases opened with
      | nil => cases hmiddle
      | cons t outer =>
        obtain ⟨rfl, rfl⟩ := by simpa [Event.openAfter?] using hmiddle
        exact ⟨[], [], span, events, rfl, .nil, hevents⟩
    | text content span => exact hcontent rfl (Option.some.inj hmiddle).symm
    | comment content span => exact hcontent rfl (Option.some.inj hmiddle).symm
    | warning message range => exact hcontent rfl (Option.some.inj hmiddle).symm

/-- The events of any markup bracket elements. -/
theorem exists_brackets_parse (o : Options) (markup : String) :
    ∃ outlines, Brackets (parse o markup) outlines :=
  closes_of_openAfter? (openAfter?_parse o markup)

/-! ### Tags and what is between them -/

/-- Events without elements have no tags. -/
theorem Brackets.isTag_eq_false {events : List Event} (h : Brackets events []) :
    ∀ e ∈ events, e.isTag = false := by
  generalize houtlines : [] = outlines at h
  induction h with
  | nil => simp
  | content he _ ih => exact List.forall_mem_cons.2 ⟨he, ih houtlines⟩
  | unary => cases houtlines
  | element => cases houtlines

/-- The events before an end event: the start event that it belongs to is the one of its name that
has only bracketed elements after it. -/
def EndsElement (before : List Event) (name : String) : Prop :=
  ∃ outside attributes span inner children,
    before = outside ++ .startTag name attributes false span :: inner ∧ Brackets inner children

theorem EndsElement.append_left {before : List Event} {name : String} (h : EndsElement before name)
    (first : List Event) : EndsElement (first ++ before) name := by
  obtain ⟨outside, attributes, span, inner, children, rfl, hinner⟩ := h
  exact ⟨first ++ outside, attributes, span, inner, children, (List.append_assoc ..).symm, hinner⟩

theorem Brackets.endsElement {events : List Event} {outlines : List Outline}
    (h : Brackets events outlines) {before after : List Event} {name : String} {span : Span}
    (hsplit : events = before ++ .endTag name span :: after) : EndsElement before name := by
  induction h generalizing before after with
  | nil => simp at hsplit
  | content he _ ih =>
    obtain ⟨-, hend⟩ | ⟨before', rfl, hrest⟩ := List.cons_eq_append_iff.1 hsplit
    · cases (List.cons.inj hend).1
      cases he
    · exact (ih hrest).append_left [_]
  | unary first attributes span' _ ih =>
    obtain ⟨-, hend⟩ | ⟨before', rfl, hrest⟩ := List.cons_eq_append_iff.1 hsplit
    · cases (List.cons.inj hend).1
    · exact (ih hrest).append_left [_]
  | @element inner rest children outlines first attributes span' span'' hinner _ ihinner ihrest =>
    rw [List.cons_append] at hsplit
    obtain ⟨-, hend⟩ | ⟨before', rfl, hbody⟩ := List.cons_eq_append_iff.1 hsplit
    · cases (List.cons.inj hend).1
    · obtain ⟨more, rfl, hmore⟩ | ⟨more, rfl, hmore⟩ := List.append_eq_append_iff.1 hbody
      · -- the end event comes with the end of `inner` or after it
        obtain ⟨rfl, hend⟩ | ⟨after', rfl, hafter⟩ := List.cons_eq_append_iff.1 hmore
        · cases (List.cons.inj hend).1
          exact ⟨[], attributes, span', inner, children, by simp, hinner⟩
        · have hlater := (ihrest hafter).append_left
            (.startTag first attributes false span' :: inner ++ [.endTag first span''])
          simpa using hlater
      · cases more with
        | nil =>
          cases (List.cons.inj hmore).1
          refine ⟨[], attributes, span', _, children, rfl, ?_⟩
          simpa using hinner
        | cons e more =>
          obtain ⟨rfl, -⟩ := List.cons.inj hmore
          exact (ihinner rfl).append_left [_]

end HtmlTemplate.Markup
