import HtmlTemplate.Markup.Trace
import HtmlTemplate.Proofs.Names
import Mathlib.Data.List.TakeDrop

/-!
# Events are balanced

The events of any markup are balanced: each end event names the innermost element that is open then,
and in the end none is open (`openAfter?_parse`). `Balanced` is the grammar of such events. It keeps
apart how elements are closed, for each event is taken together with the piece of markup that it
comes from: an element that is left to the end tag of another one, or to the end of the markup, is
warned about right before its end event, and no other is (`parse_balanced`).
-/

namespace HtmlTemplate.Markup

open Text

/-! ### Open elements -/

/-- The elements that are open after an event; none if it ends another than the innermost. -/
def Event.openAfter? (opened : List OpenTag) : Event → Option (List OpenTag)
  | .startTag name _ unary span => some (if unary then opened else .named name span :: opened)
  | .endTag name _ =>
    match opened with
    | [] => none
    | t :: outer => if t.name = name then some outer else none
  | .text .. => some opened
  | .comment .. => some opened
  | .warning .. => some opened

/-- The elements that are open after several events. -/
def openAfter? (opened : List OpenTag) (events : List Event) : Option (List OpenTag) :=
  events.foldlM Event.openAfter? opened

@[simp] theorem openAfter?_nil (opened : List OpenTag) : openAfter? opened [] = some opened := rfl

@[simp] theorem openAfter?_cons (opened : List OpenTag) (e : Event) (events : List Event) :
    openAfter? opened (e :: events) =
      (e.openAfter? opened).bind fun opened => openAfter? opened events :=
  rfl

theorem openAfter?_append (opened : List OpenTag) (events more : List Event) :
    openAfter? opened (events ++ more) =
      (openAfter? opened events).bind fun opened => openAfter? opened more := by
  simp only [openAfter?, List.foldlM_append]
  rfl

/-- The small form that end tags are compared with belongs to the name. -/
def Named (opened : List OpenTag) : Prop := ∀ t ∈ opened, t.folded = lowercase t.name

theorem named_nil : Named [] := by simp [Named]

theorem Named.cons_named {opened : List OpenTag} (h : Named opened) (name : String) (span : Span) :
    Named (.named name span :: opened) :=
  List.forall_mem_cons.2 ⟨rfl, h⟩

theorem Named.outer {inner outer : List OpenTag} (h : Named (inner ++ outer)) : Named outer :=
  fun t ht => h t (List.mem_append_right _ ht)

theorem Named.tail {t : OpenTag} {outer : List OpenTag} (h : Named (t :: outer)) : Named outer :=
  fun u hu => h u (List.mem_cons_of_mem t hu)

/-- A member of two lists, one behind the other, stands in the second or in the first. -/
theorem append_eq_append_cons_cases {α : Type} {first second before after : List α} {a : α}
    (h : first ++ second = before ++ a :: after) :
    (∃ more, before = first ++ more ∧ second = more ++ a :: after) ∨
      ∃ taken, first = before ++ a :: taken ∧ after = taken ++ second := by
  obtain ⟨more, hbefore, hsecond⟩ | ⟨taken, hfirst, hrest⟩ := List.append_eq_append_iff.1 h
  · exact .inl ⟨more, hbefore, hsecond⟩
  · cases taken with
    | nil => exact .inl ⟨[], by simpa using hfirst.symm, by simpa using hrest.symm⟩
    | cons b taken =>
      obtain ⟨rfl, hafter⟩ := List.cons.inj hrest
      exact .inr ⟨taken, hfirst, hafter⟩

/-! ### Closing -/

/-- An end tag closes the innermost element of its name with all that is open in it, or it is a
stray one. -/
theorem closeNamed_cases (opened : List OpenTag) (name : String) (span : Span) :
    (∃ inner t outer, opened = inner ++ t :: outer ∧ (∀ u ∈ inner, u.folded ≠ lowercase name) ∧
      t.folded = lowercase name ∧ closeNamed opened name span =
        (inner.flatMap (OpenTag.abandon span) ++ [.endTag t.name span], outer)) ∨
    ((∀ t ∈ opened, t.folded ≠ lowercase name) ∧
      closeNamed opened name span = (strayEndTag name span, opened)) := by
  have happend := List.takeWhile_append_dropWhile (p := fun t => t.folded != lowercase name)
    (l := opened)
  have hinner : ∀ u ∈ opened.takeWhile fun t => t.folded != lowercase name,
      u.folded ≠ lowercase name := by
    intro u hu
    simpa using List.mem_takeWhile_imp hu
  unfold closeNamed
  rw [List.span_eq_takeWhile_dropWhile]
  cases hrest : opened.dropWhile fun t => t.folded != lowercase name with
  | nil =>
    refine .inr ⟨?_, rfl⟩
    rw [hrest, List.append_nil] at happend
    rwa [happend] at hinner
  | cons t outer =>
    refine .inl ⟨_, t, outer, ?_, hinner, ?_, rfl⟩
    · rw [← hrest, happend]
    · have hhead := List.head_dropWhile_not (fun t => t.folded != lowercase name) (l := opened)
        (by simp [hrest])
      simpa [hrest] using hhead

theorem closeNamed_innermost {t : OpenTag} {outer : List OpenTag} {name : String}
    (h : t.folded = lowercase name) (span : Span) :
    closeNamed (t :: outer) name span = ([.endTag t.name span], outer) := by
  simp [closeNamed, List.span_eq_takeWhile_dropWhile, h]

/-- Closing the innermost element, where a rule says so, is a single end event. -/
theorem closeIf_cases {opened : List OpenTag} (h : Named opened) (c : Bool) (name : String)
    (hc : c = true → innermostIs opened name = true) (position : Nat) :
    ∃ closed outer, opened = closed ++ outer ∧ closed.length = (if c then 1 else 0) ∧
      (if c then closeNamed opened name (.empty position) else ([], opened)) =
        (closed.map fun t => .endTag t.name (.empty position), outer) := by
  cases c with
  | false => exact ⟨[], opened, rfl, rfl, rfl⟩
  | true =>
    cases opened with
    | nil => simp [innermostIs] at hc
    | cons t outer =>
      obtain rfl : t.name = name := by simpa [innermostIs] using hc
      exact ⟨[t], outer, rfl, rfl, closeNamed_innermost (h t (by simp)) _⟩

/-- By the rules of the web a start tag closes one element for each rule that applies, the innermost
one, and without a warning. -/
theorem closeBefore_by_rule {o : Options} (ho : o.implicitClose = true) {opened : List OpenTag}
    (h : Named opened) (name : String) (position : Nat) :
    ∃ paragraph same outer, opened = paragraph ++ (same ++ outer) ∧
      paragraph.length = (if innermostIs opened "p" && endsParagraph name then 1 else 0) ∧
      same.length = (if o.mayBeLeftOpen name && innermostIs (same ++ outer) name then 1 else 0) ∧
      closeBefore o opened name position =
        ((paragraph ++ same).map fun t => .endTag t.name (.empty position), outer) := by
  unfold closeBefore
  rw [if_pos ho]
  obtain ⟨paragraph, inner, rfl, hparagraph, hfirst⟩ :=
    closeIf_cases h (innermostIs opened "p" && endsParagraph name) "p" (by simp_all) position
  rw [hfirst]
  obtain ⟨same, outer, rfl, hsame, hsecond⟩ :=
    closeIf_cases h.outer (o.mayBeLeftOpen name && innermostIs inner name) name (by simp_all)
      position
  simp only [hsecond]
  exact ⟨paragraph, same, outer, rfl, hparagraph, hsame, by rw [List.map_append]⟩

/-- A start tag closes at most two elements before its own, each the innermost one, and without a
warning. -/
theorem closeBefore_cases (o : Options) {opened : List OpenTag} (h : Named opened) (name : String)
    (position : Nat) :
    ∃ closed outer, opened = closed ++ outer ∧ closed.length ≤ 2 ∧
      closeBefore o opened name position =
        (closed.map fun t => .endTag t.name (.empty position), outer) := by
  cases ho : o.implicitClose with
  | false => exact ⟨[], opened, rfl, Nat.zero_le 2, by simp [closeBefore, ho]⟩
  | true =>
    obtain ⟨paragraph, same, outer, hopened, hparagraph, hsame, hclose⟩ :=
      closeBefore_by_rule ho h name position
    refine ⟨paragraph ++ same, outer, by rw [hopened, List.append_assoc], ?_, hclose⟩
    rw [List.length_append, hparagraph, hsame]
    split <;> split <;> omega

/-! ### Events and where they come from -/

/-- The name in an end tag. -/
def Piece.endTagName? (p : Piece) : Option String :=
  if p.kind = .endTag then (readEndTag? p.source).map fun t => String.ofList t.found else none

/-- What an event comes from, a piece or else the end of the markup, is not for the element: it is
the end of the markup or an end tag of another name. -/
def Abandons (origin : Option Piece) (t : OpenTag) : Prop :=
  match origin with
  | none => True
  | some p => ∃ name ∈ p.endTagName?, lowercase name ≠ lowercase t.name

theorem not_abandons_of_kind {p : Piece} (h : p.kind ≠ .endTag) (t : OpenTag) :
    ¬ Abandons (some p) t := by
  simp [Abandons, Piece.endTagName?, h]

theorem abandons_iff {p : Piece} {name : String} (h : p.endTagName? = some name) (t : OpenTag) :
    Abandons (some p) t ↔ lowercase name ≠ lowercase t.name := by
  simp [Abandons, h]

/-- The event neither opens nor closes an element and is no warning of a missing end tag. -/
def Event.IsContent : Event → Prop
  | .text .. => True
  | .comment .. => True
  | .warning _ range => range.stop = none
  | _ => False

theorem Event.IsContent.ne_missingEnd {e : Event} (h : e.IsContent) (t : OpenTag) :
    e ≠ t.missingEnd := by
  rintro rfl
  cases h

theorem Event.IsContent.openAfter? {e : Event} (h : e.IsContent) (opened : List OpenTag) :
    e.openAfter? opened = some opened := by
  cases e <;> first | rfl | cases h

/-- Events with what they come from, which lead from some open elements to others. -/
inductive Balanced : List OpenTag → List (Option Piece × Event) → List OpenTag → Prop where
  | nil (opened : List OpenTag) : Balanced opened [] opened
  | start {opened final : List OpenTag} {rest : List (Option Piece × Event)}
      (origin : Option Piece) (name : String) (attributes : List Attribute) (unary : Bool)
      (span : Span) (h : Balanced (if unary then opened else .named name span :: opened) rest final) :
      Balanced opened ((origin, .startTag name attributes unary span) :: rest) final
  | closed {t : OpenTag} {outer final : List OpenTag} {rest : List (Option Piece × Event)}
      {origin : Option Piece} (span : Span) (horigin : ¬ Abandons origin t)
      (h : Balanced outer rest final) :
      Balanced (t :: outer) ((origin, .endTag t.name span) :: rest) final
  | abandoned {t : OpenTag} {outer final : List OpenTag} {rest : List (Option Piece × Event)}
      {origin : Option Piece} (span : Span) (horigin : Abandons origin t)
      (h : Balanced outer rest final) :
      Balanced (t :: outer) ((origin, t.missingEnd) :: (origin, .endTag t.name span) :: rest) final
  | content {opened final : List OpenTag} {rest : List (Option Piece × Event)} {e : Event}
      (origin : Option Piece) (hcontent : e.IsContent) (h : Balanced opened rest final) :
      Balanced opened ((origin, e) :: rest) final

namespace Balanced

variable {opened middle final : List OpenTag} {events more : List (Option Piece × Event)}

theorem append (h : Balanced opened events middle) (hmore : Balanced middle more final) :
    Balanced opened (events ++ more) final := by
  induction h with
  | nil => exact hmore
  | start origin name attributes unary span _ ih =>
    exact .start origin name attributes unary span (ih hmore)
  | closed span horigin _ ih => exact .closed span horigin (ih hmore)
  | abandoned span horigin _ ih => exact .abandoned span horigin (ih hmore)
  | content origin hcontent _ ih => exact .content origin hcontent (ih hmore)

theorem openAfter?_eq (h : Balanced opened events final) :
    openAfter? opened (events.map Prod.snd) = some final := by
  induction h with
  | nil => rfl
  | start origin name attributes unary span _ ih => exact ih
  | closed span horigin _ ih => simpa [Event.openAfter?] using ih
  | abandoned span horigin _ ih => simpa [Event.openAfter?, OpenTag.missingEnd] using ih
  | content origin hcontent _ ih =>
    rw [List.map_cons, openAfter?_cons, hcontent.openAfter?, Option.bind_some, ih]

theorem named (h : Balanced opened events final) (hopened : Named opened) : Named final := by
  induction h with
  | nil => exact hopened
  | start origin name attributes unary span _ ih =>
    cases unary with
    | true => exact ih hopened
    | false => exact ih (hopened.cons_named name span)
  | closed span horigin _ ih => exact ih hopened.tail
  | abandoned span horigin _ ih => exact ih hopened.tail
  | content origin hcontent _ ih => exact ih hopened

theorem getLast?_cons_of_ne {α : Type} {a b : α} (h : a ≠ b) (l : List α) :
    (a :: l).getLast? = some b ↔ l.getLast? = some b := by
  cases l <;> simp [h]

/-- Each end event belongs to the innermost open element, and a warning stands right before it
exactly if what it comes from is not for that element. -/
theorem closing (h : Balanced opened events final) {before after : List (Option Piece × Event)}
    {origin : Option Piece} {name : String} {span : Span}
    (hevents : events = before ++ (origin, .endTag name span) :: after) :
    ∃ t outer, openAfter? opened (before.map Prod.snd) = some (t :: outer) ∧ t.name = name ∧
      ((before.map Prod.snd).getLast? = some t.missingEnd ↔ Abandons origin t) := by
  induction h generalizing before with
  | nil => simp at hevents
  | start origin' name' attributes unary span' _ ih =>
    cases before with
    | nil => simp at hevents
    | cons b before =>
      obtain ⟨rfl, hrest⟩ := List.cons.inj hevents
      obtain ⟨t, outer, hopen, hname, hwarned⟩ := ih hrest
      refine ⟨t, outer, hopen, hname, ?_⟩
      rw [List.map_cons, getLast?_cons_of_ne (by simp [OpenTag.missingEnd]), hwarned]
  | @closed t outer final rest origin' span' horigin _ ih =>
    cases before with
    | nil =>
      obtain ⟨⟨rfl, rfl, rfl⟩, rfl⟩ := by simpa using hevents
      exact ⟨t, outer, rfl, rfl, by simpa using horigin⟩
    | cons b before =>
      obtain ⟨rfl, hrest⟩ := List.cons.inj hevents
      obtain ⟨t', outer', hopen, hname, hwarned⟩ := ih hrest
      refine ⟨t', outer', ?_, hname, ?_⟩
      · simpa [Event.openAfter?] using hopen
      · rw [List.map_cons, getLast?_cons_of_ne (by simp [OpenTag.missingEnd]), hwarned]
  | @abandoned t outer final rest origin' span' horigin _ ih =>
    match before with
    | [] => simp [OpenTag.missingEnd] at hevents
    | [b] =>
      obtain ⟨rfl, ⟨rfl, rfl, rfl⟩, rfl⟩ := by simpa using hevents
      exact ⟨t, outer, rfl, rfl, by simpa using horigin⟩
    | b :: c :: before =>
      obtain ⟨rfl, rfl, hrest⟩ := by simpa using hevents
      obtain ⟨t', outer', hopen, hname, hwarned⟩ := ih hrest
      refine ⟨t', outer', ?_, hname, ?_⟩
      · simpa [Event.openAfter?, OpenTag.missingEnd] using hopen
      · rw [List.map_cons, List.map_cons, List.getLast?_cons_cons,
          getLast?_cons_of_ne (by simp [OpenTag.missingEnd]), hwarned]
  | content origin' hcontent _ ih =>
    cases before with
    | nil =>
      obtain ⟨⟨rfl, rfl⟩, rfl⟩ := by simpa using hevents
      cases hcontent
    | cons b before =>
      obtain ⟨rfl, hrest⟩ := List.cons.inj hevents
      obtain ⟨t, outer, hopen, hname, hwarned⟩ := ih hrest
      refine ⟨t, outer, ?_, hname, ?_⟩
      · rw [List.map_cons, openAfter?_cons, hcontent.openAfter?, Option.bind_some, hopen]
      · rw [List.map_cons, getLast?_cons_of_ne (hcontent.ne_missingEnd t), hwarned]

end Balanced

/-! ### Steps -/

/-- The events of a piece, which come from it. -/
def Piece.attributed (p : Piece) : List (Option Piece × Event) := p.events.map fun e => (some p, e)

section

variable {opened : List OpenTag} {p : Piece} {name : String} {span : Span}

theorem balanced_abandon {origin : Option Piece} {inner : List OpenTag} (span : Span)
    (h : ∀ t ∈ inner, Abandons origin t) (outer : List OpenTag) :
    Balanced (inner ++ outer)
      ((inner.flatMap (OpenTag.abandon span)).map fun e => (origin, e)) outer := by
  induction inner with
  | nil => exact .nil outer
  | cons t inner ih =>
    obtain ⟨ht, hinner⟩ := List.forall_mem_cons.1 h
    exact .abandoned span ht (ih hinner)

theorem balanced_strayEndTag (hname : p.endTagName? = some name) (span : Span) :
    Balanced opened ((strayEndTag name span).map fun e => (some p, e)) opened := by
  unfold strayEndTag
  split
  · exact .start _ name [] true span (.nil opened)
  · split
    · have hown : ¬ Abandons (some p) (.named name span) := by
        rw [abandons_iff hname]
        exact fun h => h rfl
      exact .start _ name [] false span (.closed span hown (.nil opened))
    · exact .nil opened

/-- An end tag closes the elements inside its own with a warning each, and its own without. -/
theorem balanced_closeNamed (hopened : Named opened) (hname : p.endTagName? = some name)
    (span : Span) :
    Balanced opened ((closeNamed opened name span).1.map fun e => (some p, e))
      (closeNamed opened name span).2 := by
  obtain ⟨inner, t, outer, rfl, hinner, ht, hclose⟩ | ⟨-, hclose⟩ :=
    closeNamed_cases opened name span
  · rw [hclose, List.map_append]
    have habandon : ∀ u ∈ inner, Abandons (some p) u := by
      intro u hu
      rw [abandons_iff hname, ← hopened u (List.mem_append_left _ hu)]
      exact (hinner u hu).symm
    have hown : ¬ Abandons (some p) t := by
      rw [abandons_iff hname, ← hopened t (by simp), ht]
      exact fun h => h rfl
    exact (balanced_abandon span habandon _).append (.closed span hown (.nil outer))
  · rw [hclose]
    exact balanced_strayEndTag hname span

theorem balanced_closed {closed : List OpenTag} (h : p.kind ≠ .endTag) (span : Span)
    (outer : List OpenTag) :
    Balanced (closed ++ outer)
      ((closed.map fun t => Event.endTag t.name span).map fun e => (some p, e)) outer := by
  induction closed with
  | nil => exact .nil outer
  | cons t closed ih => exact .closed span (not_abandons_of_kind h t) ih

/-- Text, comments and declarations leave the open elements alone. -/
theorem balanced_content {origin : Option Piece} {events : List Event}
    (h : ∀ e ∈ events, e.IsContent) :
    Balanced opened (events.map fun e => (origin, e)) opened := by
  induction events with
  | nil => exact .nil opened
  | cons e events ih =>
    obtain ⟨he, hevents⟩ := List.forall_mem_cons.1 h
    exact .content origin he (ih hevents)

end

/-- The events of a step lead to the elements that are open after it. -/
def Step.IsBalanced (opened : List OpenTag) (step : Step) : Prop :=
  Balanced opened (step.pieces.flatMap Piece.attributed) step.opened

theorem Step.isBalanced_single {opened : List OpenTag} {p : Piece} {after : List OpenTag}
    {rest : List Char} (h : Balanced opened p.attributed after) :
    (Step.mk [p] after rest).IsBalanced opened := by
  simpa [Step.IsBalanced] using h

section

variable (o : Options) {opened : List OpenTag} (hopened : Named opened) (position : Nat)

include hopened in
theorem isBalanced_takeStartTag (t : StartTag) (rest : List Char) :
    (takeStartTag o opened position t rest).IsBalanced opened := by
  unfold takeStartTag
  simp only
  obtain ⟨closed, outer, rfl, -, hclose⟩ := closeBefore_cases o hopened (String.ofList t.name)
    (Span.mk position (extent t.source)).stop
  rw [hclose]
  have hevents : ∀ (p : Piece) (name : String) (attributes : List Attribute) (unary : Bool)
      (span : Span), p.kind = .startTag →
      p.events = (closed.map fun u : OpenTag => Event.endTag u.name
        (.empty (Span.mk position (extent t.source)).stop)) ++
          [.startTag name attributes unary span] →
      Balanced (closed ++ outer) p.attributed
        (if unary then outer else .named name span :: outer) := by
    intro p name attributes unary span hkind hevents
    rw [Piece.attributed, hevents, List.map_append]
    have hother : p.kind ≠ .endTag := by simp [hkind]
    exact (balanced_closed hother _ outer).append (.start _ name attributes unary span (.nil _))
  split <;> exact Step.isBalanced_single (hevents _ _ _ _ _ rfl rfl)

include hopened in
theorem isBalanced_takeConstruct? {s : List Char} {step : Step}
    (h : takeConstruct? o opened position s = some step) : step.IsBalanced opened := by
  unfold takeConstruct? at h
  split at h
  · obtain rfl := by simpa using h
    apply Step.isBalanced_single
    apply balanced_content
    split <;> simp [Event.IsContent]
  split at h
  · obtain rfl := by simpa using h
    exact Step.isBalanced_single (.nil opened)
  split at h
  · obtain rfl := by simpa using h
    exact Step.isBalanced_single (.nil opened)
  split at h
  · next t ht =>
    obtain rfl := by simpa using h
    apply Step.isBalanced_single
    apply balanced_closeNamed hopened
    simp [Piece.endTagName?, readEndTag?_source ht]
  split at h
  · obtain rfl := by simpa using h
    exact isBalanced_takeStartTag o hopened position _ _
  · cases h

theorem isBalanced_takeRest (s : List Char) : (takeRest opened position s).IsBalanced opened := by
  apply Step.isBalanced_single
  apply balanced_content
  simp only
  split <;> simp [Event.IsContent, malformedEnd, Locus.startingAt]

include hopened in
theorem isBalanced_takeMarkup (lastClose : Option Nat) (s : List Char) :
    (takeMarkup o lastClose opened position s).IsBalanced opened := by
  unfold takeMarkup
  split
  · next h => exact isBalanced_takeConstruct? o hopened position h
  · split
    · exact isBalanced_takeRest position s
    · exact Step.isBalanced_single (balanced_content (by simp [Event.IsContent]))

/-- The end tag of raw text belongs to the element that the text is in. -/
theorem isBalanced_takeRawText {t : OpenTag} {outer : List OpenTag} (h : Named (t :: outer))
    (s : List Char) : (takeRawText t.name (t :: outer) position s).IsBalanced (t :: outer) := by
  unfold takeRawText
  simp only
  generalize readRawExtent (lowercase t.name).toList s = raw
  generalize rawTextOf (lowercase t.name) raw.content = text
  have hcontent : ∀ e ∈ (if text.isEmpty then [] else [Event.text (String.ofList text) none]),
      e.IsContent := by
    split <;> simp [Event.IsContent]
  split
  · exact Step.isBalanced_single (balanced_content hcontent)
  · rw [closeNamed_innermost (h t (by simp))]
    simp only [Step.IsBalanced, List.flatMap_cons, List.flatMap_nil, List.append_nil]
    exact (balanced_content hcontent).append
      (.closed _ (not_abandons_of_kind (by simp) t) (.nil outer))

include hopened in
theorem isBalanced_step (lastClose : Option Nat) (s : List Char) :
    (step o lastClose opened position s).IsBalanced opened := by
  unfold step
  split
  · next tag htag =>
    cases opened with
    | nil => cases htag
    | cons t outer =>
      simp only [rawTextElement?] at htag
      split at htag
      · cases htag
        exact isBalanced_takeRawText position hopened s
      · cases htag
  · exact isBalanced_takeMarkup o hopened position lastClose s

end

/-! ### Whole markup -/

theorem balanced_traceFrom (o : Options) (lastClose : Option Nat) {opened : List OpenTag}
    (hopened : Named opened) (position : Nat) (s : List Char) :
    Balanced opened ((traceFrom o lastClose opened position s).1.flatMap Piece.attributed)
      (traceFrom o lastClose opened position s).2 := by
  fun_induction traceFrom o lastClose opened position s with
  | case1 opened => exact .nil opened
  | case2 opened position s hs next _ pieces final heq ih =>
    have hstep : Balanced opened (next.pieces.flatMap Piece.attributed) next.opened :=
      isBalanced_step o hopened position lastClose s
    have hrest := ih (hstep.named hopened)
    rw [heq] at hrest
    rw [List.flatMap_append]
    exact hstep.append hrest

/-- The events of a markup with what they come from. -/
def attributedEvents (o : Options) (markup : String) : List (Option Piece × Event) :=
  (trace o markup).1.flatMap Piece.attributed ++
    (closeAll (trace o markup).2 markup.utf8ByteSize).map fun e => (none, e)

theorem map_snd_flatMap_attributed (pieces : List Piece) :
    (pieces.flatMap Piece.attributed).map Prod.snd = pieces.flatMap Piece.events := by
  simp [List.map_flatMap, Piece.attributed, Function.comp_def]

theorem map_snd_attributedEvents (o : Options) (markup : String) :
    (attributedEvents o markup).map Prod.snd = parse o markup := by
  simp [attributedEvents, parse, map_snd_flatMap_attributed, Function.comp_def]

theorem balanced_attributedEvents (o : Options) (markup : String) :
    Balanced [] (attributedEvents o markup) [] := by
  have htrace := balanced_traceFrom o (lastClose markup.toList) named_nil 0 markup.toList
  have habandon : ∀ t ∈ (trace o markup).2, Abandons none t := fun _ _ => trivial
  have hclose := balanced_abandon (.empty markup.utf8ByteSize) habandon []
  rw [List.append_nil] at hclose
  exact htrace.append hclose

theorem openAfter?_parse (o : Options) (markup : String) :
    openAfter? [] (parse o markup) = some [] := by
  rw [← map_snd_attributedEvents]
  exact (balanced_attributedEvents o markup).openAfter?_eq

/-! ### End tags -/

section

variable (o : Options) (opened : List OpenTag) (position : Nat)

end

/-- What holds of a piece that a step takes alone, and of the elements that are open before it,
holds of every such piece of markup and of the elements that are open after the pieces before it. -/
theorem single_traceFrom {o : Options} {lastClose : Option Nat} {Q : Piece → Prop}
    {P : List OpenTag → Piece → Prop}
    (hstep : ∀ {opened}, Named opened → ∀ position s,
      ∀ p ∈ (step o lastClose opened position s).pieces, Q p →
        (step o lastClose opened position s).pieces = [p] ∧ P opened p)
    {opened : List OpenTag} (hopened : Named opened) (position : Nat) (s : List Char)
    {before after : List Piece} {p : Piece}
    (hpieces : (traceFrom o lastClose opened position s).1 = before ++ p :: after) (hp : Q p) :
    ∃ innermost, openAfter? opened (before.flatMap Piece.events) = some innermost ∧
      Named innermost ∧ P innermost p := by
  fun_induction traceFrom o lastClose opened position s generalizing before with
  | case1 => simp at hpieces
  | case2 opened position s hs next _ pieces final heq ih =>
    rw [heq] at ih
    have hbalanced : Balanced opened (next.pieces.flatMap Piece.attributed) next.opened :=
      isBalanced_step o hopened position lastClose s
    have hopen : openAfter? opened (next.pieces.flatMap Piece.events) = some next.opened := by
      have := hbalanced.openAfter?_eq
      rwa [map_snd_flatMap_attributed] at this
    obtain ⟨more, rfl, hmore⟩ | ⟨taken, hnext, -⟩ := append_eq_append_cons_cases hpieces
    · rw [List.flatMap_append, openAfter?_append, hopen, Option.bind_some]
      exact ih (hbalanced.named hopened) hmore
    · obtain ⟨hsingle, hholds⟩ := hstep hopened position s p (hnext ▸ by simp) hp
      obtain rfl : before = [] := by
        have hlength := congrArg List.length hsingle
        rw [hnext, List.length_append, List.length_cons, List.length_singleton] at hlength
        exact List.eq_nil_of_length_eq_zero (by omega)
      exact ⟨opened, rfl, hopened, hholds⟩

end HtmlTemplate.Markup
