import HtmlTemplate.Markup.Trace

/-!
# How many start tags there can be

Reading markup gives no more start tags than the markup has characters (`countP_isStart_parse_le`):
a start tag takes at least three characters, and may imply two more; an end tag stands for at most
one; the end of the markup for none.
-/

namespace HtmlTemplate.Markup

/-- Whether an event opens an element. -/
def Event.isStart : Event → Bool
  | .startTag .. => true
  | _ => false

theorem countP_abandon (inner : List OpenTag) (span : Span) :
    (inner.flatMap (OpenTag.abandon span)).countP Event.isStart = 0 := by
  rw [List.countP_eq_zero]
  intro event h
  rcases List.mem_flatMap.1 h with ⟨t, -, ht⟩
  simp only [OpenTag.abandon, OpenTag.missingEnd, List.mem_cons, List.not_mem_nil, or_false] at ht
  rcases ht with rfl | rfl <;> simp [Event.isStart]

theorem countP_strayEndTag_le (name : String) (span : Span) :
    (strayEndTag name span).countP Event.isStart ≤ 1 := by
  unfold strayEndTag
  split
  · exact Nat.le_refl 1
  · split
    · exact Nat.le_refl 1
    · exact Nat.zero_le 1

/-- An end tag stands for at most one start tag. -/
theorem countP_closeNamed_le (opened : List OpenTag) (name : String) (span : Span) :
    (closeNamed opened name span).1.countP Event.isStart ≤ 1 := by
  unfold closeNamed
  split
  · simp [countP_abandon, Event.isStart]
  · exact countP_strayEndTag_le name span

theorem countP_closeAll (opened : List OpenTag) (position : Nat) :
    (closeAll opened position).countP Event.isStart = 0 :=
  countP_abandon opened _

theorem countP_closeBefore_le (o : Options) (opened : List OpenTag) (name : String)
    (position : Nat) : (closeBefore o opened name position).1.countP Event.isStart ≤ 2 := by
  unfold closeBefore
  have hclose : ∀ (c : Bool) (opened : List OpenTag) (name : String),
      (if c then closeNamed opened name (.empty position) else ([], opened)).1.countP
        Event.isStart ≤ 1 := by
    intro c opened name
    split
    · exact countP_closeNamed_le opened name _
    · exact Nat.zero_le 1
  split
  · simp only [List.countP_append]
    exact Nat.add_le_add (hclose _ _ _) (hclose _ _ _)
  · exact Nat.zero_le 2

/-- A start tag takes at least three characters: two marks and a name. -/
theorem length_source_of_readStartTag? {s : List Char} {t : StartTag} {rest : List Char}
    (h : readStartTag? s = some (t, rest)) : 3 ≤ t.source.length := by
  unfold readStartTag? at h
  split at h
  · split at h
    · cases h
    · next name r hname =>
      split at h
      · next attributes close after ha =>
        obtain ⟨rfl, rfl⟩ := by simpa using h
        have hname_length := List.length_pos_iff.2 (readName?_ne_nil hname)
        have hclose : 0 < close.source.length := by
          unfold TagClose.source
          split <;> simp
        simp only [StartTag.source, List.length_append, List.length_cons]
        omega
      · cases h
  · cases h

/-- The pieces of a step give no more start tags than they take characters. -/
def Step.Frugal (step : Step) : Prop :=
  (step.pieces.flatMap Piece.events).countP Event.isStart ≤ step.source.length

theorem frugal_takeStartTag (o : Options) (opened : List OpenTag) (position : Nat) {t : StartTag}
    (ht : 3 ≤ t.source.length) (rest : List Char) :
    (takeStartTag o opened position t rest).Frugal := by
  have hclosed := countP_closeBefore_le o opened (String.ofList t.name)
    (Span.mk position (Text.extent t.source)).stop
  unfold takeStartTag
  simp only
  split <;> simp only [Step.Frugal, Step.source, List.flatMap_cons, List.flatMap_nil,
    List.append_nil, List.countP_append, List.countP_singleton, Event.isStart, List.length_append,
    if_true] <;> omega

theorem frugal_takeConstruct? {o : Options} {opened : List OpenTag} {position : Nat}
    {s : List Char} {step : Step} (h : takeConstruct? o opened position s = some step) :
    step.Frugal := by
  unfold takeConstruct? at h
  split at h
  · next t ht =>
    obtain rfl := by simpa using h
    cases hkeep : o.keepComments <;> simp [Step.Frugal, Event.isStart]
  split at h
  · obtain rfl := by simpa using h
    simp [Step.Frugal]
  split at h
  · obtain rfl := by simpa using h
    simp [Step.Frugal]
  split at h
  · next t ht =>
    obtain rfl := by simpa using h
    have hclosed := countP_closeNamed_le opened (String.ofList t.found)
      ⟨position, Text.extent t.source⟩
    have hsource := List.length_pos_iff.2 (readEndTag?_source_ne_nil ht)
    simp only [Step.Frugal, Step.source, List.flatMap_cons, List.flatMap_nil, List.append_nil]
    omega
  split at h
  · next t rest ht =>
    obtain rfl := by simpa using h
    exact frugal_takeStartTag o opened position (length_source_of_readStartTag? ht) rest
  · simp at h

theorem frugal_takeRest (opened : List OpenTag) (position : Nat) (s : List Char) :
    (takeRest opened position s).Frugal := by
  unfold takeRest malformedEnd
  cases opened <;> simp [Step.Frugal, Event.isStart]

theorem frugal_takeMarkup (o : Options) (lastClose : Option Nat) (opened : List OpenTag)
    (position : Nat) (s : List Char) : (takeMarkup o lastClose opened position s).Frugal := by
  unfold takeMarkup
  split
  · next h => exact frugal_takeConstruct? h
  · split
    · exact frugal_takeRest opened position s
    · simp [Step.Frugal, Event.isStart]

theorem frugal_takeRawText (tag : String) (opened : List OpenTag) (position : Nat)
    (s : List Char) : (takeRawText tag opened position s).Frugal := by
  unfold takeRawText
  simp only
  generalize readRawExtent (Text.lowercase tag).toList s = raw
  generalize rawTextOf (Text.lowercase tag) raw.content = text
  have htext : (if text.isEmpty then [] else [Event.text (String.ofList text) none]).countP
      Event.isStart = 0 := by
    split <;> rfl
  split
  · simp only [Step.Frugal, List.flatMap_cons, List.flatMap_nil, List.append_nil, htext]
    exact Nat.zero_le _
  · next hend =>
    have hclosed := countP_closeNamed_le opened tag
      ⟨position + Text.extent raw.content, Text.extent raw.endTag⟩
    have hsource : 0 < raw.endTag.length := by
      rw [List.length_pos_iff]
      simpa using hend
    simp only [Step.Frugal, Step.source, List.flatMap_cons, List.flatMap_nil, List.append_nil,
      List.countP_append, List.length_append, htext]
    omega

theorem frugal_step (o : Options) (lastClose : Option Nat) (opened : List OpenTag)
    (position : Nat) (s : List Char) : (step o lastClose opened position s).Frugal := by
  unfold step
  split
  · exact frugal_takeRawText _ opened position s
  · exact frugal_takeMarkup o lastClose opened position s

theorem countP_isStart_traceFrom_le (o : Options) (lastClose : Option Nat) (opened : List OpenTag)
    (position : Nat) (s : List Char) :
    ((traceFrom o lastClose opened position s).1.flatMap Piece.events).countP Event.isStart ≤
      s.length := by
  fun_induction traceFrom o lastClose opened position s with
  | case1 => exact Nat.zero_le _
  | case2 opened position s hs next _ pieces final heq ih =>
    have hstep : next.Frugal := frugal_step o lastClose opened position s
    have happend : (next.source ++ next.rest).length = s.length :=
      congrArg List.length (step_append o lastClose opened position s)
    simp only [heq] at ih
    rw [List.flatMap_append, List.countP_append]
    rw [List.length_append] at happend
    unfold Step.Frugal at hstep
    omega

theorem countP_isStart_parse_le (o : Options) (markup : String) :
    (parse o markup).countP Event.isStart ≤ markup.toList.length := by
  unfold parse trace
  rw [List.countP_append, countP_closeAll]
  exact countP_isStart_traceFrom_le o _ [] 0 markup.toList

end HtmlTemplate.Markup
