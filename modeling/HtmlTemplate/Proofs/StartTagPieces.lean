import HtmlTemplate.Proofs.Coverage

/-!
# Start tags among the pieces

A start tag that a step takes is all that it takes, and the last event of its piece is the start
event, with the attributes that were read, at the span of the tag (`givesTag_of_mem_trace`). Only
the rules of the web have events before it. The other start events come from stray end tags
(`origin_of_startTag_mem_parse`).
-/

namespace HtmlTemplate.Markup

open Text

/-- The piece of a start tag gives the start event with the attributes that are read, and before it
the end events of the elements that the rules of the web have it close. -/
def Piece.GivesTag (o : Options) (p : Piece) : Prop :=
  ∃ s t rest lineFeed, readStartTag? s = some (t, rest) ∧ p.source = t.source ++ lineFeed ∧
    ∃ (closed : List OpenTag) (stop : Span) (unary : Bool),
      (o.implicitClose = false → closed = []) ∧
        p.events = (closed.map fun u => .endTag u.name stop) ++ [.startTag (String.ofList t.name)
          (attributesFrom o (String.ofList t.name) (p.start + 1 + extent t.name) t.attributes) unary
          ⟨p.start, extent t.source⟩]

/-- A start tag that a step takes is all that it takes. -/
def Step.GivesTag (o : Options) (step : Step) : Prop :=
  ∀ p ∈ step.pieces, p.kind = .startTag → step.pieces = [p] ∧ p.GivesTag o

theorem Step.givesTag_of_kind {o : Options} {step : Step}
    (h : ∀ p ∈ step.pieces, p.kind ≠ .startTag) : step.GivesTag o :=
  fun p hp hkind => absurd hkind (h p hp)

section

variable (o : Options) {opened : List OpenTag} (hopened : Named opened) (position : Nat)
include hopened

theorem givesTag_takeStartTag {s : List Char} {t : StartTag} {rest : List Char}
    (h : readStartTag? s = some (t, rest)) :
    (takeStartTag o opened position t rest).GivesTag o := by
  obtain ⟨closed, outer, -, -, hclose⟩ := closeBefore_cases o hopened (String.ofList t.name)
    (Span.mk position (extent t.source)).stop
  have hrule : o.implicitClose = false → closed = [] := by
    intro ho
    simpa [closeBefore, ho] using (congrArg Prod.fst hclose).symm
  intro p hp _
  unfold takeStartTag at hp ⊢
  simp only [hclose] at hp ⊢
  split at hp
  · obtain rfl := by simpa using hp
    exact ⟨rfl, s, t, _, ['\n'], h, rfl, closed, _, _, hrule, rfl⟩
  · obtain rfl := by simpa using hp
    exact ⟨rfl, s, t, _, [], h, (List.append_nil _).symm, closed, _, _, hrule, rfl⟩

theorem givesTag_takeConstruct? {s : List Char} {step : Step}
    (h : takeConstruct? o opened position s = some step) : step.GivesTag o := by
  unfold takeConstruct? at h
  split at h
  · obtain rfl := by simpa using h
    exact Step.givesTag_of_kind (by simp)
  split at h
  · obtain rfl := by simpa using h
    exact Step.givesTag_of_kind (by simp)
  split at h
  · obtain rfl := by simpa using h
    exact Step.givesTag_of_kind (by simp)
  split at h
  · obtain rfl := by simpa using h
    exact Step.givesTag_of_kind (by simp)
  split at h
  · next hread =>
    obtain rfl := by simpa using h
    exact givesTag_takeStartTag o hopened position hread
  · cases h

theorem givesTag_step (lastClose : Option Nat) (s : List Char) :
    (step o lastClose opened position s).GivesTag o := by
  unfold step
  split
  · apply Step.givesTag_of_kind
    unfold takeRawText
    simp only
    split <;> simp
  · unfold takeMarkup
    split
    · next h => exact givesTag_takeConstruct? o hopened position h
    · split <;> exact Step.givesTag_of_kind (by simp [takeRest])

end

theorem givesTag_of_mem_trace {o : Options} {markup : String} {p : Piece}
    (hp : p ∈ (trace o markup).1) (hkind : p.kind = .startTag) : p.GivesTag o := by
  obtain ⟨before, after, hpieces⟩ := List.append_of_mem hp
  obtain ⟨-, -, -, h⟩ := single_traceFrom (Q := fun p => p.kind = .startTag)
    (P := fun _ p => p.GivesTag o) (fun hnamed position s => givesTag_step o hnamed position _ s)
    named_nil 0 markup.toList hpieces hkind
  exact h

/-- A start event has what is read in its tag, or nothing but the name of a stray end tag. -/
theorem origin_of_startTag_mem_parse {o : Options} {markup name : String}
    {attributes : List Attribute} {unary : Bool} {span : Span}
    (h : .startTag name attributes unary span ∈ parse o markup) :
    ∃ p ∈ (trace o markup).1,
      (∃ s t rest lineFeed, readStartTag? s = some (t, rest) ∧ p.source = t.source ++ lineFeed ∧
        name = String.ofList t.name ∧ span = ⟨p.start, extent t.source⟩ ∧
        attributes = attributesFrom o (String.ofList t.name) (p.start + 1 + extent t.name)
          t.attributes) ∨
      (p.endTagName? = some name ∧ span = p.span ∧ attributes = []) := by
  obtain ⟨p, hp, hmem, ⟨hkind, -⟩ | ⟨hname, hstray⟩⟩ := exists_piece_of_startTag_mem_parse h
  · obtain ⟨s, t, rest, lineFeed, hread, hsource, closed, stop, unary', -, hevents⟩ :=
      givesTag_of_mem_trace hp hkind
    obtain ⟨hname, hattributes, -, hspan⟩ : name = String.ofList t.name ∧
        attributes = attributesFrom o (String.ofList t.name) (p.start + 1 + extent t.name)
          t.attributes ∧ unary = unary' ∧ span = ⟨p.start, extent t.source⟩ := by
      simpa [hevents] using hmem
    exact ⟨p, hp, .inl ⟨s, t, rest, lineFeed, hread, hsource, hname, hspan, hattributes⟩⟩
  · refine ⟨p, hp, .inr ⟨hname, ?_⟩⟩
    rw [hstray, strayEndTag] at hmem
    split at hmem
    · obtain ⟨hattributes, -, hspan⟩ : attributes = [] ∧ unary = true ∧ span = p.span := by
        simpa using hmem
      exact ⟨hspan, hattributes⟩
    · split at hmem
      · obtain ⟨hattributes, -, hspan⟩ : attributes = [] ∧ unary = false ∧ span = p.span := by
          simpa using hmem
        exact ⟨hspan, hattributes⟩
      · cases hmem

end HtmlTemplate.Markup
