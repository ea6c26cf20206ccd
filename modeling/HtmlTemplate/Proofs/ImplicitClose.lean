import HtmlTemplate.Proofs.Placement

/-!
# Elements that a start tag closes

With the rules of the web no element starts where it would have to close another one first: neither
in a `p` that it may not stand in, nor in an element of its own name that may be left open. A start
tag closes one element at most by each of the two rules, so this rests on how the open elements lie
in each other: closing one never uncovers another that would have to be closed as well. What is
closed is reported by its end event alone (`parse_closes_before_start`).
-/

namespace HtmlTemplate.Markup

open Text

/-- The piece is a start tag that closes one element for each rule that applies, the innermost one,
and reports nothing but that and its own start: first a `p` that the element may not stand in, then
an element of its own name that may be left open. -/
def Piece.ClosesByRule (o : Options) (opened : List OpenTag) (p : Piece) : Prop :=
  ∃ paragraph same outer name attributes unary span,
    opened = paragraph ++ (same ++ outer) ∧
      paragraph.length = (if innermostIs opened "p" && endsParagraph name then 1 else 0) ∧
      same.length = (if o.mayBeLeftOpen name && innermostIs (same ++ outer) name then 1 else 0) ∧
      p.events = ((paragraph ++ same).map fun t => .endTag t.name (.empty span.stop)) ++
        [.startTag name attributes unary span]

/-- A start tag that a step takes is all that it takes. -/
def Step.StartTagsClose (o : Options) (opened : List OpenTag) (step : Step) : Prop :=
  ∀ p ∈ step.pieces, p.kind = .startTag → step.pieces = [p] ∧ p.ClosesByRule o opened

theorem Step.startTagsClose_of_kind {o : Options} {opened : List OpenTag} {step : Step}
    (h : ∀ p ∈ step.pieces, p.kind ≠ .startTag) : step.StartTagsClose o opened :=
  fun p hp hkind => absurd hkind (h p hp)

section

variable {o : Options} (ho : o.implicitClose = true) {opened : List OpenTag}
  (hopened : Named opened) (position : Nat)

include ho hopened

theorem startTagsClose_takeStartTag (t : StartTag) (rest : List Char) :
    (takeStartTag o opened position t rest).StartTagsClose o opened := by
  obtain ⟨paragraph, same, outer, hlie, hparagraph, hsame, hclose⟩ :=
    closeBefore_by_rule ho hopened (String.ofList t.name) (Span.mk position (extent t.source)).stop
  have hevents : ∀ (p : Piece) (attributes : List Attribute) (unary : Bool),
      p.events = (closeBefore o opened (String.ofList t.name)
        (Span.mk position (extent t.source)).stop).1 ++
          [.startTag (String.ofList t.name) attributes unary ⟨position, extent t.source⟩] →
      p.ClosesByRule o opened := by
    intro p attributes unary hp
    rw [hclose] at hp
    exact ⟨paragraph, same, outer, _, attributes, unary, _, hlie, hparagraph, hsame, hp⟩
  intro p hp _
  unfold takeStartTag at hp ⊢
  simp only at hp ⊢
  split at hp <;>
    · obtain rfl := by simpa using hp
      exact ⟨rfl, hevents _ _ _ rfl⟩

theorem startTagsClose_takeConstruct? {s : List Char} {step : Step}
    (h : takeConstruct? o opened position s = some step) : step.StartTagsClose o opened := by
  unfold takeConstruct? at h
  split at h
  · obtain rfl := by simpa using h
    exact Step.startTagsClose_of_kind (by simp)
  split at h
  · obtain rfl := by simpa using h
    exact Step.startTagsClose_of_kind (by simp)
  split at h
  · obtain rfl := by simpa using h
    exact Step.startTagsClose_of_kind (by simp)
  split at h
  · obtain rfl := by simpa using h
    exact Step.startTagsClose_of_kind (by simp)
  split at h
  · obtain rfl := by simpa using h
    exact startTagsClose_takeStartTag ho hopened position _ _
  · cases h

theorem startTagsClose_step (lastClose : Option Nat) (s : List Char) :
    (step o lastClose opened position s).StartTagsClose o opened := by
  unfold step
  split
  · apply Step.startTagsClose_of_kind
    unfold takeRawText
    simp only
    split <;> simp
  · unfold takeMarkup
    split
    · next h => exact startTagsClose_takeConstruct? ho hopened position h
    · split <;> exact Step.startTagsClose_of_kind (by simp [takeRest])

end

/-- With the rules of the web, and as long as a `p` may be left open, no start event has an open
element right around it that it should have closed, and a start tag closes one element for each rule
that applies, without a warning. -/
theorem parse_closes_before_start {o : Options} (ho : o.implicitClose = true)
    (hparagraphs : o.mayBeLeftOpen "p" = true) (markup : String) :
    (∀ before name attributes unary span after,
      parse o markup = before ++ .startTag name attributes unary span :: after →
        ∃ opened, openAfter? [] before = some opened ∧
          ¬ (innermostIs opened "p" = true ∧ endsParagraph name = true) ∧
          ¬ (o.mayBeLeftOpen name = true ∧ innermostIs opened name = true)) ∧
    ∀ before p after, (trace o markup).1 = before ++ p :: after → p.kind = .startTag →
      ∃ opened, openAfter? [] (before.flatMap Piece.events) = some opened ∧
        p.ClosesByRule o opened := by
  constructor
  · intro before name attributes unary span after hevents
    have hopen := openAfter?_parse o markup
    rw [hevents, openAfter?_append, Option.bind_eq_some_iff] at hopen
    obtain ⟨opened, hopened, -⟩ := hopen
    have hplaced : o.Admits (opened.map OpenTag.name) name attributes :=
      wellPlaced_parse hparagraphs markup before _ after hevents opened hopened
    obtain ⟨hparagraph, hsame⟩ := hplaced.staysOpen ho
    refine ⟨opened, hopened, ?_, ?_⟩
    · rintro ⟨hinnermost, hends⟩
      simp [hparagraph (innermostIs_iff.1 hinnermost)] at hends
    · rintro ⟨hleft, hinnermost⟩
      simp [hsame (innermostIs_iff.1 hinnermost)] at hleft
  · intro before p after hpieces hkind
    obtain ⟨opened, hopened, -, hcloses⟩ := single_traceFrom (Q := fun p => p.kind = .startTag)
      (P := fun opened p => p.ClosesByRule o opened)
      (fun hnamed position s => startTagsClose_step ho hnamed position _ s) named_nil 0
      markup.toList hpieces hkind
    exact ⟨opened, hopened, hcloses⟩

/-- The rules of the web, and nothing else that reading asks of its options. -/
def webRules : Options :=
  { Options.plain with implicitClose := true, mayBeLeftOpen := mayBeLeftOpen }

/-- Both rules apply to the second `li`. -/
theorem parse_closes_before_start_nested_item :
    webRules.implicitClose = true ∧ webRules.mayBeLeftOpen "p" = true ∧
      (parse webRules "<ul><li><p>a<li>b").take 7 =
        [.startTag "ul" [] false ⟨0, 4⟩, .startTag "li" [] false ⟨4, 4⟩,
          .startTag "p" [] false ⟨8, 3⟩, .text "a" (some ⟨11, 1⟩), .endTag "p" (.empty 16),
          .endTag "li" (.empty 16), .startTag "li" [] false ⟨12, 4⟩] ∧
      (∃ opened, openAfter? [] ((parse webRules "<ul><li><p>a<li>b").take 6) = some opened ∧
        ¬ (innermostIs opened "p" = true ∧ endsParagraph "li" = true) ∧
        ¬ (webRules.mayBeLeftOpen "li" = true ∧ innermostIs opened "li" = true)) ∧
      ∃ before p after, (trace webRules "<ul><li><p>a<li>b").1 = before ++ p :: after ∧
        p.events = [.endTag "p" (.empty 16), .endTag "li" (.empty 16),
          .startTag "li" [] false ⟨12, 4⟩] ∧
        ∃ opened, openAfter? [] (before.flatMap Piece.events) = some opened ∧
          p.ClosesByRule webRules opened := by
  obtain ⟨hstarts, hcloses⟩ := parse_closes_before_start (o := webRules) rfl (by decide)
    "<ul><li><p>a<li>b"
  have hevents : (parse webRules "<ul><li><p>a<li>b").take 7 =
      [.startTag "ul" [] false ⟨0, 4⟩, .startTag "li" [] false ⟨4, 4⟩,
        .startTag "p" [] false ⟨8, 3⟩, .text "a" (some ⟨11, 1⟩), .endTag "p" (.empty 16),
        .endTag "li" (.empty 16), .startTag "li" [] false ⟨12, 4⟩] := by
    decide +kernel
  have hsplit : parse webRules "<ul><li><p>a<li>b" =
      (parse webRules "<ul><li><p>a<li>b").take 6 ++ .startTag "li" [] false ⟨12, 4⟩ ::
        (parse webRules "<ul><li><p>a<li>b").drop 7 := by
    decide +kernel
  have hpieces : (trace webRules "<ul><li><p>a<li>b").1.map (fun p => (p.kind, p.events)) =
      [(.startTag, [.startTag "ul" [] false ⟨0, 4⟩]), (.startTag, [.startTag "li" [] false ⟨4, 4⟩]),
        (.startTag, [.startTag "p" [] false ⟨8, 3⟩]), (.text, [.text "a" (some ⟨11, 1⟩)])] ++
        (.startTag, [.endTag "p" (.empty 16), .endTag "li" (.empty 16),
          .startTag "li" [] false ⟨12, 4⟩]) :: [(.text, [.text "b" (some ⟨16, 1⟩)])] := by
    decide +kernel
  obtain ⟨before, rest, htrace, -, hrest⟩ := List.map_eq_append_iff.1 hpieces
  obtain ⟨p, after, rfl, hp, -⟩ := List.map_eq_cons_iff.1 hrest
  obtain ⟨hkind, hp⟩ := Prod.mk.inj hp
  exact ⟨rfl, by decide, hevents, hstarts _ _ _ _ _ _ hsplit, before, p, after, htrace, hp,
    hcloses before p after htrace hkind⟩

end HtmlTemplate.Markup
