import HtmlTemplate.Proofs.Brackets
import HtmlTemplate.Proofs.StartTagPieces

/-!
# The extents of elements

The extent of an element is the stretch of the markup from the beginning of its start tag to where
its end event says that it ends. Without the rules of the web the events of any markup come in the
order of the source, whatever closes an element: its end tag, the end tag of another element, or the
end of the markup (`ascends_parse`). Each start event has one end event (`ElementAt.unique`). So the
extents of two elements lie in each other or apart, as the elements do, and text and comments lie
inside the extents of the elements that are open around them and outside all others
(`extents_nest`).
-/

namespace HtmlTemplate.Markup

open Text

/-! ### Events in the order of the source -/

/-- The span of a text or of a comment. -/
def Event.content? : Event → Option Span
  | .text _ span => span
  | .comment _ span => some span
  | .startTag .. => none
  | .endTag .. => none
  | .warning .. => none

/-- Where an event takes place: all over its span, except that an element ends where the span of its
end event does. A warning takes no place. -/
def Event.place? : Event → Option Span
  | .startTag _ _ _ span => some span
  | .endTag _ span => some (.empty span.stop)
  | .text _ span => span
  | .comment _ span => some span
  | .warning .. => none

theorem Event.place?_of_content? {e : Event} {span : Span} (h : e.content? = some span) :
    e.place? = some span := by
  cases e <;> first | exact h | cases h

/-- Events take place one behind the other from a position up to another. -/
def Ascends : Nat → List Event → Nat → Prop
  | start, [], stop => start ≤ stop
  | start, e :: events, stop =>
    match e.place? with
    | none => Ascends start events stop
    | some place => start ≤ place.start ∧ Ascends place.stop events stop

/-- The second event does not begin to take place before the first one is over. -/
def Event.Precedes (e e' : Event) : Prop :=
  ∀ place ∈ e.place?, ∀ place' ∈ e'.place?, place.stop ≤ place'.start

section

variable {start middle stop : Nat} {events more : List Event}

theorem Ascends.of_le {earlier : Nat} (hle : earlier ≤ start) (h : Ascends start events stop) :
    Ascends earlier events stop := by
  induction events with
  | nil => exact Nat.le_trans hle h
  | cons e events ih =>
    unfold Ascends at h ⊢
    split at h
    · exact ih h
    · exact ⟨Nat.le_trans hle h.1, h.2⟩

theorem Ascends.append (h : Ascends start events middle) (hmore : Ascends middle more stop) :
    Ascends start (events ++ more) stop := by
  induction events generalizing start with
  | nil => exact hmore.of_le h
  | cons e events ih =>
    rw [List.cons_append]
    unfold Ascends at h ⊢
    split at h
    · exact ih h
    · exact ⟨h.1, ih h.2⟩

theorem Ascends.start_le (h : Ascends start events stop) :
    ∀ e ∈ events, ∀ place ∈ e.place?, start ≤ place.start := by
  induction events generalizing start with
  | nil => simp
  | cons e events ih =>
    unfold Ascends at h
    split at h
    · next hnone => exact List.forall_mem_cons.2 ⟨by simp [hnone], ih h⟩
    · next place hplace =>
      refine List.forall_mem_cons.2 ⟨by simpa [hplace] using h.1, fun e' he' place' hplace' => ?_⟩
      have hbehind := ih h.2 e' he' place' hplace'
      have hplace : place.start ≤ place.stop := Nat.le_add_right _ _
      omega

theorem Ascends.pairwise (h : Ascends start events stop) : events.Pairwise Event.Precedes := by
  induction events generalizing start with
  | nil => exact .nil
  | cons e events ih =>
    unfold Ascends at h
    split at h
    · next hnone => exact .cons (fun e' _ place hplace => by simp [hnone] at hplace) (ih h)
    · next place hplace =>
      refine .cons (fun e' he' place' hplace' => ?_) (ih h.2)
      obtain rfl : place = place' := by simpa [hplace] using hplace'
      exact h.2.start_le e' he'

end

/-! ### Pieces in the order of the source -/

theorem ascends_abandon (inner : List OpenTag) {span : Span} {start : Nat}
    (h : start ≤ span.stop) : Ascends start (inner.flatMap (OpenTag.abandon span)) span.stop := by
  induction inner generalizing start with
  | nil => exact h
  | cons t inner ih => exact ⟨h, ih (Nat.le_refl _)⟩

theorem ascends_strayEndTag (name : String) (span : Span) :
    Ascends span.start (strayEndTag name span) span.stop := by
  have hspan : span.start ≤ span.stop := Nat.le_add_right _ _
  unfold strayEndTag
  split
  · exact ⟨Nat.le_refl _, Nat.le_refl _⟩
  · split
    · exact ⟨Nat.le_refl _, Nat.le_refl _, Nat.le_refl _⟩
    · exact hspan

/-- All elements that an end tag closes end where it does. -/
theorem ascends_closeNamed (opened : List OpenTag) (name : String) (span : Span) :
    Ascends span.start (closeNamed opened name span).1 span.stop := by
  obtain ⟨inner, t, outer, -, -, -, hclose⟩ | ⟨-, hclose⟩ := closeNamed_cases opened name span
  · rw [hclose]
    exact (ascends_abandon inner (Nat.le_add_right _ _)).append ⟨Nat.le_refl _, Nat.le_refl _⟩
  · rw [hclose]
    exact ascends_strayEndTag name span

/-- The events of a piece take place in it. -/
theorem Piece.Explained.ascends {o : Options} (ho : o.implicitClose = false)
    {opened : List OpenTag} {following : List Char} {p : Piece} (h : p.Explained o opened following)
    (htag : p.kind = .startTag → p.GivesTag o) : Ascends p.span.start p.events p.span.stop := by
  have hspan : p.span.start ≤ p.span.stop := Nat.le_add_right _ _
  unfold Piece.Explained at h
  split at h
  · obtain ⟨text, -, hevents⟩ := h
    rw [hevents]
    split
    · exact ⟨Nat.le_refl _, Nat.le_refl _⟩
    · exact hspan
  · rw [h.2]
    exact hspan
  · rw [h.2]
    exact hspan
  · obtain ⟨name, -, -, hevents⟩ := h
    rw [hevents]
    exact ascends_closeNamed opened _ _
  · next hkind =>
    obtain ⟨s, t, rest, lineFeed, -, hsource, closed, stop, unary, hclosed, hevents⟩ := htag hkind
    rw [hevents, hclosed ho]
    refine ⟨Nat.le_refl _, ?_⟩
    simp only [Ascends, Piece.span, Span.stop, hsource, extent_append]
    omega
  · rw [h.2]
    exact ⟨Nat.le_refl _, Nat.le_refl _⟩
  · obtain ⟨t, outer, text, -, -, -, hevents⟩ := h
    rw [hevents]
    split <;> exact hspan
  · obtain ⟨t, outer, -, -, -, hevents⟩ := h
    rw [hevents]
    exact ⟨hspan, Nat.le_refl _⟩
  · rw [h.2.2]
    split <;> exact ⟨Nat.le_refl _, Nat.le_refl _⟩

theorem Tiles.ascends {pieces : List Piece} {start stop : Nat} (h : Tiles start pieces stop)
    (hpieces : ∀ p ∈ pieces, Ascends p.span.start p.events p.span.stop) :
    Ascends start (pieces.flatMap Piece.events) stop := by
  induction pieces generalizing start with
  | nil => exact Nat.le_of_eq h
  | cons p pieces ih =>
    obtain ⟨rfl, hrest⟩ := h
    obtain ⟨hp, hpieces⟩ := List.forall_mem_cons.1 hpieces
    exact hp.append (ih hrest hpieces)

/-- The events of markup come in the order of the source. -/
theorem ascends_parse {o : Options} (ho : o.implicitClose = false) (markup : String) :
    Ascends 0 (parse o markup) markup.utf8ByteSize := by
  obtain ⟨htiles, -⟩ := explained_trace o markup
  refine (htiles.ascends fun p hp => ?_).append (ascends_abandon _ (Nat.le_refl _))
  obtain ⟨opened, following, h⟩ := exists_explained_of_mem_trace hp
  exact h.ascends ho (givesTag_of_mem_trace hp)

/-! ### The end event of a start event -/

theorem Brackets.openAfter?_eq {events : List Event} {outlines : List Outline}
    (h : Brackets events outlines) (opened : List OpenTag) :
    openAfter? opened events = some opened := by
  induction h generalizing opened with
  | nil => rfl
  | @content e events outlines he _ ih =>
    have hstep : e.openAfter? opened = some opened := by cases e <;> first | rfl | cases he
    rw [openAfter?_cons, hstep, Option.bind_some, ih]
  | unary name attributes span _ ih => exact ih opened
  | element name attributes span span' _ _ ihinner ihrest =>
    rw [List.cons_append, openAfter?_cons, Event.openAfter?, Option.bind_some, openAfter?_append,
      ihinner, Option.bind_some, openAfter?_cons]
    simpa [Event.openAfter?, OpenTag.named] using ihrest opened

/-- Bracketed events are not cut off by an end event that stands behind bracketed events. -/
theorem Brackets.not_of_endTag {inner more : List Event} {outlines outlines' : List Outline}
    {name : String} {span : Span} (h : Brackets inner outlines) :
    ¬ Brackets (inner ++ .endTag name span :: more) outlines' := by
  intro hlonger
  have hopen := hlonger.openAfter?_eq []
  rw [openAfter?_append, h.openAfter?_eq, Option.bind_some, openAfter?_cons] at hopen
  cases hopen

/-- Where bracketed events end is settled by the end event behind them. -/
theorem Brackets.append_endTag_inj {inner inner' after after' : List Event}
    {outlines outlines' : List Outline} {name name' : String} {span span' : Span}
    (h : Brackets inner outlines) (h' : Brackets inner' outlines')
    (heq : inner ++ .endTag name span :: after = inner' ++ .endTag name' span' :: after') :
    inner = inner' ∧ span = span' := by
  obtain ⟨more, rfl, hmore⟩ | ⟨taken, rfl, -⟩ := append_eq_append_cons_cases heq
  · cases more with
    | nil =>
      obtain ⟨⟨-, rfl⟩, -⟩ := by simpa using hmore
      exact ⟨(List.append_nil inner).symm, rfl⟩
    | cons e more =>
      obtain ⟨rfl, -⟩ := List.cons.inj hmore
      exact absurd h' h.not_of_endTag
  · exact absurd h h'.not_of_endTag

/-- A start event among bracketed events is closed among them. -/
theorem Brackets.startsElement {events : List Event} {outlines : List Outline}
    (h : Brackets events outlines) {before rest : List Event} {name : String}
    {attributes : List Attribute} {span : Span}
    (hsplit : events = before ++ .startTag name attributes false span :: rest) :
    ∃ inner children span' after, rest = inner ++ .endTag name span' :: after ∧
      Brackets inner children := by
  induction h generalizing before rest with
  | nil => simp at hsplit
  | content he _ ih =>
    obtain ⟨-, hstart⟩ | ⟨before', -, hrest⟩ := List.cons_eq_append_iff.1 hsplit
    · cases (List.cons.inj hstart).1
      cases he
    · exact ih hrest
  | unary _ _ _ _ ih =>
    obtain ⟨-, hstart⟩ | ⟨before', -, hrest⟩ := List.cons_eq_append_iff.1 hsplit
    · cases (List.cons.inj hstart).1
    · exact ih hrest
  | @element inner after children outlines first attributes' span' span'' hinner _ ihinner ihrest =>
    rw [List.cons_append] at hsplit
    obtain ⟨-, hstart⟩ | ⟨before', -, hbody⟩ := List.cons_eq_append_iff.1 hsplit
    · obtain ⟨hevent, rfl⟩ := List.cons.inj hstart
      cases hevent
      exact ⟨inner, children, span'', after, rfl, hinner⟩
    · obtain ⟨more, -, hmore⟩ | ⟨taken, htaken, rfl⟩ := append_eq_append_cons_cases hbody
      · obtain ⟨-, hend⟩ | ⟨more', -, hmore'⟩ := List.cons_eq_append_iff.1 hmore
        · cases (List.cons.inj hend).1
        · exact ihrest hmore'
      · obtain ⟨within, children', span''', after', rfl, hwithin⟩ := ihinner htaken
        exact ⟨within, children', span''', after' ++ .endTag first span'' :: after, by simp,
          hwithin⟩

/-! ### Elements -/

/-- An element among events: the indexes of its start event and of its end event, the span of its
start tag and its extent. A unary element has one event, and its extent is the span of that. -/
inductive ElementAt (events : List Event) : Nat → Nat → Span → Span → Prop where
  | unary {before after : List Event} {name : String} {attributes : List Attribute} {span : Span}
      (h : events = before ++ .startTag name attributes true span :: after) :
      ElementAt events before.length before.length span span
  | element {before inner after : List Event} {children : List Outline} {name : String}
      {attributes : List Attribute} {span span' : Span} (hinner : Brackets inner children)
      (h : events = before ++ .startTag name attributes false span ::
        (inner ++ .endTag name span' :: after)) :
      ElementAt events before.length (before.length + 1 + inner.length) span
        (.between span.start span'.stop)

namespace ElementAt

variable {events : List Event} {i j i' j' : Nat} {tag extent tag' extent' : Span}

theorem exists_start (h : ElementAt events i j tag extent) :
    ∃ before name attributes unary after, before.length = i ∧
      events = before ++ .startTag name attributes unary tag :: after := by
  cases h with
  | unary h => exact ⟨_, _, _, _, _, rfl, h⟩
  | element _ h => exact ⟨_, _, _, _, _, rfl, h⟩

theorem getElem?_start (h : ElementAt events i j tag extent) :
    ∃ e, events[i]? = some e ∧ e.place? = some tag ∧ e.content? = none := by
  obtain ⟨before, name, attributes, unary, after, rfl, rfl⟩ := h.exists_start
  exact ⟨.startTag name attributes unary tag, by simp, rfl, rfl⟩

theorem stop_lt (h : ElementAt events i j tag extent) : j < events.length := by
  cases h with
  | unary h => simp [h]
  | element _ h =>
    rw [h]
    simp
    omega

/-- Events before and behind the others leave an element as it is. -/
theorem within (h : ElementAt events i j tag extent) (first last : List Event) :
    ElementAt (first ++ (events ++ last)) (first.length + i) (first.length + j) tag extent := by
  cases h with
  | @unary before after name attributes _ h =>
    have hsplit : first ++ (events ++ last) =
        (first ++ before) ++ .startTag name attributes true tag :: (after ++ last) := by
      simp [h]
    rw [← List.length_append]
    exact .unary hsplit
  | @element before inner after children name attributes _ span' hinner h =>
    have hsplit : first ++ (events ++ last) =
        (first ++ before) ++ .startTag name attributes false tag ::
          (inner ++ .endTag name span' :: (after ++ last)) := by
      simp [h]
    simpa [Nat.add_assoc] using element hinner hsplit

/-- An element has one extent. -/
theorem unique (h : ElementAt events i j tag extent) (h' : ElementAt events i j' tag' extent') :
    j = j' ∧ tag = tag' ∧ extent = extent' := by
  generalize hi : i = index at h'
  cases h with
  | unary h =>
    cases h' with
    | unary h' =>
      obtain ⟨rfl, heq⟩ := List.append_inj (h.symm.trans h') hi
      cases (List.cons.inj heq).1
      exact ⟨rfl, rfl, rfl⟩
    | element _ h' =>
      obtain ⟨rfl, heq⟩ := List.append_inj (h.symm.trans h') hi
      cases (List.cons.inj heq).1
  | element hinner h =>
    cases h' with
    | unary h' =>
      obtain ⟨rfl, heq⟩ := List.append_inj (h.symm.trans h') hi
      cases (List.cons.inj heq).1
    | element hinner' h' =>
      obtain ⟨rfl, heq⟩ := List.append_inj (h.symm.trans h') hi
      obtain ⟨hstart, hrest⟩ := List.cons.inj heq
      cases hstart
      obtain ⟨rfl, rfl⟩ := hinner.append_endTag_inj hinner' hrest
      exact ⟨rfl, rfl, rfl⟩

/-- Each start event is that of an element. -/
theorem exists_of_brackets {outlines : List Outline} (hbrackets : Brackets events outlines)
    {name : String} {attributes : List Attribute} {unary : Bool} {span : Span}
    (h : events[i]? = some (.startTag name attributes unary span)) :
    ∃ j extent, ElementAt events i j span extent := by
  obtain ⟨hi, hget⟩ := List.getElem?_eq_some_iff.1 h
  have hsplit : events = events.take i ++ .startTag name attributes unary span ::
      events.drop (i + 1) := by
    rw [← hget, List.getElem_cons_drop, List.take_append_drop]
  have hlength : (events.take i).length = i := List.length_take_of_le (Nat.le_of_lt hi)
  rw [← hlength]
  cases unary with
  | true => exact ⟨_, _, .unary hsplit⟩
  | false =>
    obtain ⟨inner, children, span', after, hrest, hinner⟩ := hbrackets.startsElement hsplit
    exact ⟨_, _, .element hinner (hrest ▸ hsplit)⟩

/-- An element that starts behind another one starts ends in it, or starts behind its end. -/
theorem nested_or_after (h : ElementAt events i j tag extent)
    (h' : ElementAt events i' j' tag' extent') (hlt : i < i') : i' < j ∧ j' < j ∨ j < i' := by
  cases h with
  | unary => exact .inr hlt
  | @element before inner after children name attributes _ span' hinner h =>
    obtain ⟨before', name', attributes', unary, rest, rfl, hsplit⟩ := h'.exists_start
    rw [h] at hsplit
    obtain ⟨more, rfl, hmore⟩ | ⟨taken, rfl, -⟩ := append_eq_append_cons_cases hsplit
    · -- the element starts among the events that follow those before the first one
      obtain ⟨rfl, -⟩ | ⟨more', rfl, hbody⟩ := List.cons_eq_append_iff.1 hmore
      · simp at hlt
      obtain ⟨later, rfl, hlater⟩ | ⟨taken, rfl, rfl⟩ := append_eq_append_cons_cases hbody
      · obtain ⟨rfl, hend⟩ | ⟨later', rfl, -⟩ := List.cons_eq_append_iff.1 hlater
        · cases (List.cons.inj hend).1
        · right
          simp
          omega
      · left
        let first := before ++ [.startTag name attributes false tag]
        let inner := more' ++ .startTag name' attributes' unary tag' :: taken
        have hstart : inner[more'.length]? = some (.startTag name' attributes' unary tag') := by
          simp [inner]
        obtain ⟨k, extent'', hinside⟩ := exists_of_brackets hinner hstart
        have hevents : events = first ++ (inner ++ .endTag name span' :: after) := by
          simp [h, first, inner]
        have hindex : (before ++ .startTag name attributes false tag :: more').length =
            first.length + more'.length := by
          simp [first]
          omega
        rw [hevents, hindex] at h'
        obtain ⟨rfl, -, -⟩ := h'.unique (hinside.within first (.endTag name span' :: after))
        have hk : k < inner.length := hinside.stop_lt
        simp [first, inner] at hk ⊢
        omega
    · rw [List.length_append] at hlt
      omega

/-! The places of an element, if the events come in order. -/

theorem precedes_of_lt (hordered : events.Pairwise Event.Precedes) {k k' : Nat} {e e' : Event}
    (hk : events[k]? = some e) (hk' : events[k']? = some e') (hlt : k < k') : e.Precedes e' := by
  obtain ⟨hlength, rfl⟩ := List.getElem?_eq_some_iff.1 hk
  obtain ⟨hlength', rfl⟩ := List.getElem?_eq_some_iff.1 hk'
  exact List.pairwise_iff_getElem.1 hordered k k' hlength hlength' hlt

variable (hordered : events.Pairwise Event.Precedes)
include hordered

/-- The last event of an element takes place up to the end of its extent, and if it is not the first
one, just there. -/
theorem getElem?_stop (h : ElementAt events i j tag extent) :
    ∃ e place, events[j]? = some e ∧ e.content? = none ∧ e.place? = some place ∧
      place.stop = extent.stop ∧ (i = j ∨ i < j ∧ place.start = extent.stop) := by
  cases h with
  | @unary before after name attributes _ h =>
    exact ⟨.startTag name attributes true tag, tag, by simp [h], rfl, rfl, rfl, .inl rfl⟩
  | @element before inner after children name attributes _ span' hinner h =>
    have hstart : events[before.length]? = some (.startTag name attributes false tag) := by simp [h]
    have hend : events[before.length + 1 + inner.length]? = some (.endTag name span') := by
      rw [h]
      simp [Nat.add_assoc, Nat.add_comm 1]
    have hle : tag.stop ≤ span'.stop :=
      precedes_of_lt hordered hstart hend (by omega) tag rfl _ rfl
    have hstop : (Span.between tag.start span'.stop).stop = span'.stop :=
      Span.stop_between (Nat.le_trans (Nat.le_add_right _ _) hle)
    rw [hstop]
    exact ⟨_, _, hend, rfl, rfl, rfl, .inr ⟨by omega, rfl⟩⟩

/-- The extent of an element begins with its start tag. -/
theorem start_extent (h : ElementAt events i j tag extent) :
    extent.start = tag.start ∧ tag.stop ≤ extent.stop := by
  refine ⟨by cases h <;> rfl, ?_⟩
  obtain ⟨e, hstart, hplace, -⟩ := h.getElem?_start
  obtain ⟨e', place, hend, -, hplace', hstop, rfl | ⟨hlt, hempty⟩⟩ := h.getElem?_stop hordered
  · obtain rfl := Option.some.inj (hstart.symm.trans hend)
    obtain rfl := Option.some.inj (hplace.symm.trans hplace')
    exact Nat.le_of_eq hstop
  · exact hempty ▸ precedes_of_lt hordered hstart hend hlt tag hplace place hplace'

/-- The extents of two elements lie in each other or apart, as the elements do. -/
theorem extent_of_lt (h : ElementAt events i j tag extent)
    (h' : ElementAt events i' j' tag' extent') (hlt : i < i') :
    i' < j ∧ j' < j ∧ tag.stop ≤ extent'.start ∧ extent'.stop ≤ extent.stop ∨
      j < i' ∧ extent.stop ≤ extent'.start := by
  obtain ⟨first, hfirst, hplace, -⟩ := h.getElem?_start
  obtain ⟨last, place, hlast, -, hplaceLast, hstop, -⟩ := h.getElem?_stop hordered
  obtain ⟨first', hfirst', hplace', -⟩ := h'.getElem?_start
  obtain ⟨last', place', hlast', -, hplaceLast', hstop', -⟩ := h'.getElem?_stop hordered
  rw [(h'.start_extent hordered).1, ← hstop', ← hstop]
  obtain ⟨hi', hj'⟩ | hafter := h.nested_or_after h' hlt
  · refine .inl ⟨hi', hj', precedes_of_lt hordered hfirst hfirst' hlt tag hplace tag' hplace', ?_⟩
    have hprecedes : place'.stop ≤ place.start :=
      precedes_of_lt hordered hlast' hlast hj' place' hplaceLast' place hplaceLast
    exact Nat.le_trans hprecedes (Nat.le_add_right _ _)
  · exact .inr ⟨hafter,
      precedes_of_lt hordered hlast hfirst' hafter place hplaceLast tag' hplace'⟩

/-- A text or a comment lies in the extent of an element, behind its start tag, if it is among its
events, and else before it or behind it. -/
theorem extent_of_content (h : ElementAt events i j tag extent) {k : Nat} {e : Event} {span : Span}
    (hk : events[k]? = some e) (hspan : e.content? = some span) :
    k < i ∧ span.stop ≤ extent.start ∨
      i < k ∧ k < j ∧ tag.stop ≤ span.start ∧ span.stop ≤ extent.stop ∨
      j < k ∧ extent.stop ≤ span.start := by
  have hplaceContent := Event.place?_of_content? hspan
  obtain ⟨first, hfirst, hplace, hnone⟩ := h.getElem?_start
  obtain ⟨last, place, hlast, hnone', hplaceLast, hstop, hunary⟩ := h.getElem?_stop hordered
  have hne : k ≠ i := by
    rintro rfl
    obtain rfl := Option.some.inj (hk.symm.trans hfirst)
    simp [hnone] at hspan
  have hne' : k ≠ j := by
    rintro rfl
    obtain rfl := Option.some.inj (hk.symm.trans hlast)
    simp [hnone'] at hspan
  obtain hbefore | hbehind := Nat.lt_or_gt_of_ne hne
  · refine .inl ⟨hbefore, ?_⟩
    rw [(h.start_extent hordered).1]
    exact precedes_of_lt hordered hk hfirst hbefore span hplaceContent tag hplace
  obtain hinside | hafter := Nat.lt_or_gt_of_ne hne'
  · refine .inr (.inl ⟨hbehind, hinside, ?_, ?_⟩)
    · exact precedes_of_lt hordered hfirst hk hbehind tag hplace span hplaceContent
    · obtain rfl | ⟨-, hplaceStart⟩ := hunary
      · omega
      · rw [← hplaceStart]
        exact precedes_of_lt hordered hk hlast hinside span hplaceContent place hplaceLast
  · refine .inr (.inr ⟨hafter, ?_⟩)
    rw [← hstop]
    exact precedes_of_lt hordered hlast hk hafter place hplaceLast span hplaceContent

end ElementAt

/-- Without the rules of the web the extents of elements nest, whatever the markup. Each start event
has one extent, which begins with its start tag. The extents of two elements lie in each other,
behind the start tag of the outer one, if the elements do, and otherwise apart, in the order of the
elements. A text with a span and a comment lie in the extent of each element that is open there,
behind its start tag, and before or behind the extents of all others. -/
theorem extents_nest {o : Options} (ho : o.implicitClose = false) (markup : String) :
    (∀ i name attributes unary span,
      (parse o markup)[i]? = some (.startTag name attributes unary span) →
        ∃ j extent, ElementAt (parse o markup) i j span extent ∧
          ∀ j' tag' extent', ElementAt (parse o markup) i j' tag' extent' →
            j' = j ∧ tag' = span ∧ extent' = extent) ∧
    ∀ i j tag extent, ElementAt (parse o markup) i j tag extent →
      (extent.start = tag.start ∧ tag.stop ≤ extent.stop) ∧
      (∀ i' j' tag' extent', ElementAt (parse o markup) i' j' tag' extent' → i < i' →
        i' < j ∧ j' < j ∧ tag.stop ≤ extent'.start ∧ extent'.stop ≤ extent.stop ∨
        j < i' ∧ extent.stop ≤ extent'.start) ∧
      ∀ k e span, (parse o markup)[k]? = some e → e.content? = some span →
        k < i ∧ span.stop ≤ extent.start ∨
        i < k ∧ k < j ∧ tag.stop ≤ span.start ∧ span.stop ≤ extent.stop ∨
        j < k ∧ extent.stop ≤ span.start := by
  obtain ⟨outlines, hbrackets⟩ := exists_brackets_parse o markup
  have hordered := (ascends_parse ho markup).pairwise
  generalize parse o markup = events at hbrackets hordered ⊢
  refine ⟨fun i name attributes unary span hstart => ?_, fun i j tag extent h => ?_⟩
  · obtain ⟨j, extent, h⟩ := ElementAt.exists_of_brackets hbrackets hstart
    exact ⟨j, extent, h, fun j' tag' extent' h' => h'.unique h⟩
  exact ⟨h.start_extent hordered, fun _ _ _ _ h' hlt => h.extent_of_lt hordered h' hlt,
    fun _ _ _ hk hspan => h.extent_of_content hordered hk hspan⟩

/-- The end tag of the outer element closes both. -/
theorem extents_nest_sample :
    let events : List Event := [.startTag "a" [] false ⟨0, 3⟩, .startTag "b" [] false ⟨3, 3⟩,
      .text "x" (some ⟨6, 1⟩), (OpenTag.named "b" ⟨3, 3⟩).missingEnd, .endTag "b" ⟨7, 4⟩,
      .endTag "a" ⟨7, 4⟩]
    Options.plain.implicitClose = false ∧ parse Options.plain "<a><b>x</a>" = events ∧
      ElementAt events 0 5 ⟨0, 3⟩ ⟨0, 11⟩ ∧ ElementAt events 1 4 ⟨3, 3⟩ ⟨3, 8⟩ ∧
      (1 < 5 ∧ 4 < 5 ∧ 3 ≤ 3 ∧ 11 ≤ 11 ∨ 5 < 1 ∧ 11 ≤ 3) := by
  intro events
  have hevents : parse Options.plain "<a><b>x</a>" = events := by decide +kernel
  let content : List Event := [.text "x" (some ⟨6, 1⟩), (OpenTag.named "b" ⟨3, 3⟩).missingEnd]
  let start : Event := .startTag "a" [] false ⟨0, 3⟩
  have hcontent : Brackets content [] := .content rfl (.content rfl .nil)
  have hsplit : events = [] ++ start :: ((.startTag "b" [] false ⟨3, 3⟩ :: content ++
      [.endTag "b" ⟨7, 4⟩]) ++ [.endTag "a" ⟨7, 4⟩]) := rfl
  have hsplit' : events = [start] ++ .startTag "b" [] false ⟨3, 3⟩ ::
      (content ++ .endTag "b" ⟨7, 4⟩ :: [.endTag "a" ⟨7, 4⟩]) := rfl
  have houter : ElementAt events 0 5 ⟨0, 3⟩ ⟨0, 11⟩ :=
    .element (.element "b" [] ⟨3, 3⟩ ⟨7, 4⟩ hcontent .nil) hsplit
  have hwithin : ElementAt events 1 4 ⟨3, 3⟩ ⟨3, 8⟩ := .element hcontent hsplit'
  have hnest := (extents_nest (o := Options.plain) rfl "<a><b>x</a>").2
  rw [hevents] at hnest
  exact ⟨rfl, hevents, houter, hwithin, (hnest 0 5 _ _ houter).2.1 1 4 _ _ hwithin (by decide)⟩

end HtmlTemplate.Markup
