import HtmlTemplate.Proofs.EventSpans
import HtmlTemplate.Proofs.RawEndTags

/-!
# Where a run of text ends

The search for the end of a run of text has tests of its own, cheaper than the readers of the
constructs: it looks at how a construct begins, and it tells from the position of the last `>`
whether one follows. That position answers as a search of the rest would (`lastClose_any_eq`), so
the tests find the places where a construct opens (`beginsConstruct_iff`). No construct can be read
from any place in a run, and a run goes on to the end of the markup or up to a place where one opens
(`parse_textRuns`).
-/

namespace HtmlTemplate.Markup

open Text

/-! ### Places where a construct opens -/

/-- The text begins with `<!--`, with `<![`, with `<` and a name, or with an end tag up
to its `>`. -/
inductive OpensConstruct : List Char → Prop where
  | comment (s : List Char) : OpensConstruct ('<' :: '!' :: '-' :: '-' :: s)
  | conditionalComment (s : List Char) : OpensConstruct ('<' :: '!' :: '[' :: s)
  | startTag {s : List Char} (h : (readName? s).isSome = true) : OpensConstruct ('<' :: s)
  | endTag {s : List Char} (h : (readEndTag? s).isSome = true) : OpensConstruct s

/-- No comment and no tag can be read from the beginning of the text. -/
structure NoConstruct (s : List Char) : Prop where
  comment : readComment? s = none
  conditionalComment : readConditionalComment? s = none
  endTag : readEndTag? s = none
  startTag : readStartTag? s = none

theorem opensConstruct_of_readComment? {s : List Char} (h : (readComment? s).isSome = true) :
    OpensConstruct s := by
  unfold readComment? at h
  split at h
  · next body =>
    split at h
    · next hdashes =>
      obtain ⟨rest, rfl⟩ := List.isPrefixOf_iff_prefix.1 hdashes
      exact .comment rest
    · cases h
  · cases h

theorem opensConstruct_of_readConditionalComment? {s : List Char}
    (h : (readConditionalComment? s).isSome = true) : OpensConstruct s := by
  unfold readConditionalComment? at h
  split at h
  · next body => exact .conditionalComment body
  · cases h

theorem opensConstruct_of_readStartTag? {s : List Char} (h : (readStartTag? s).isSome = true) :
    OpensConstruct s := by
  unfold readStartTag? at h
  split at h
  · split at h
    · cases h
    · next hname => exact .startTag (by rw [hname, Option.isSome_some])
  · cases h

/-- Only where a construct opens can one be read. -/
theorem noConstruct_of_not_opensConstruct {s : List Char} (h : ¬ OpensConstruct s) :
    NoConstruct s where
  comment := by
    rw [← Option.not_isSome_iff_eq_none]
    exact fun hread => h (opensConstruct_of_readComment? hread)
  conditionalComment := by
    rw [← Option.not_isSome_iff_eq_none]
    exact fun hread => h (opensConstruct_of_readConditionalComment? hread)
  endTag := by
    rw [← Option.not_isSome_iff_eq_none]
    exact fun hread => h (.endTag hread)
  startTag := by
    rw [← Option.not_isSome_iff_eq_none]
    exact fun hread => h (opensConstruct_of_readStartTag? hread)

/-! ### The last `>` -/

theorem isSome_lastCloseFrom (position : Nat) (found : Option Nat) (s : List Char) :
    (lastCloseFrom position found s).isSome = (found.isSome || s.contains '>') := by
  induction s generalizing position found with
  | nil => simp [lastCloseFrom]
  | cons c s ih =>
    rw [lastCloseFrom, ih, List.contains_cons]
    by_cases hc : c = '>'
    · simp [hc]
    · have hother : ('>' == c) = false := beq_eq_false_iff_ne.2 (Ne.symm hc)
      simp [hc, hother]

/-- The position of the last `>` of a text tells for every place in it whether a `>` follows. -/
theorem lastClose_any_eq (before rest : List Char) :
    (lastClose (before ++ rest)).any (extent before ≤ ·) = rest.contains '>' := by
  have hany := Scan.lastClose_any before rest 0
  simp only [Nat.add_zero, Nat.zero_le, decide_true] at hany
  rw [hany, ← Bool.false_or (rest.contains '>'), ← Option.isSome_none (α := Nat),
    ← isSome_lastCloseFrom 0 none rest]
  cases h : lastClose rest <;> rw [lastClose] at h <;> rw [h] <;> rfl

theorem isSome_readEndTag? (s : List Char) :
    (readEndTag? ('<' :: '/' :: s)).isSome =
      (readName? s).any fun found => found.2.contains '>' := by
  simp only [readEndTag?]
  cases readName? s with
  | none => rfl
  | some found =>
    obtain ⟨name, after⟩ := found
    cases hdrop : after.dropWhile (· != '>') with
    | nil =>
      have hnone : '>' ∉ after := fun hmem => by
        simpa using List.dropWhile_eq_nil_iff.1 hdrop '>' hmem
      simp [hdrop, hnone]
    | cons gt rest =>
      obtain rfl := eq_of_dropWhile_ne hdrop
      have hmem : '>' ∈ after := (List.dropWhile_suffix _).subset (hdrop ▸ List.mem_cons_self)
      simp [hdrop, hmem]

/-- The test for an end tag answers as reading one does. -/
theorem beginsConstruct_endTag (before s : List Char) :
    beginsConstruct (lastClose (before ++ '<' :: '/' :: s)) (extent before) ('<' :: '/' :: s) =
      (readEndTag? ('<' :: '/' :: s)).isSome := by
  rw [isSome_readEndTag?, beginsConstruct]
  cases hname : readName? s with
  | none => rfl
  | some found =>
    obtain ⟨name, after⟩ := found
    obtain rfl := readName?_append hname
    have hany := lastClose_any_eq (before ++ '<' :: '/' :: name) after
    have hposition : extent (before ++ '<' :: '/' :: name) = extent before + 2 + extent name := by
      rw [extent_append, extent_cons_of_ascii (by decide), extent_cons_of_ascii (by decide)]
      omega
    rw [hposition, List.append_assoc] at hany
    exact hany

/-- The tests that end a run of text hold where a construct opens, and nowhere else. -/
theorem beginsConstruct_iff (before s : List Char) :
    beginsConstruct (lastClose (before ++ s)) (extent before) s = true ↔ OpensConstruct s := by
  constructor
  · intro h
    unfold beginsConstruct at h
    split at h
    · next s =>
      refine .endTag ?_
      rw [← beginsConstruct_endTag before s]
      exact h
    · next s =>
      rcases Bool.or_eq_true .. ▸ h with h | h
      · obtain ⟨rest, rfl⟩ := List.isPrefixOf_iff_prefix.1 h
        exact .comment rest
      · obtain ⟨rest, rfl⟩ := List.isPrefixOf_iff_prefix.1 h
        exact .conditionalComment rest
    · next s _ _ => exact .startTag h
    · cases h
  · intro h
    cases h with
    | comment s => rfl
    | conditionalComment s => rfl
    | @startTag s h =>
      have hname : ∀ {c t}, isNameStart c = false → s ≠ c :: t := by
        rintro c t hc rfl
        rw [Scan.readName?_of_not_isNameStart hc] at h
        cases h
      unfold beginsConstruct
      split
      · next heq => exact absurd (List.cons.inj heq).2 (hname (by decide))
      · next heq => exact absurd (List.cons.inj heq).2 (hname (by decide))
      · next t _ _ heq =>
        obtain rfl := (List.cons.inj heq).2
        exact h
      · next hnone => exact absurd rfl (hnone s)
    | endTag h =>
      have hs : ∃ t, s = '<' :: '/' :: t := by
        unfold readEndTag? at h
        split at h
        · exact ⟨_, rfl⟩
        · cases h
      obtain ⟨t, rfl⟩ := hs
      rw [beginsConstruct_endTag]
      exact h

/-! ### Runs -/

/-- What a run of text is in a markup: it stands before some text, nothing can be read from any
place in it, and it goes on to the end or to where a construct opens. -/
structure IsTextRun (run following : List Char) : Prop where
  nonempty : run ≠ []
  inside : ∀ passed rest, run = passed ++ rest → rest ≠ [] → NoConstruct (rest ++ following)
  ends : following = [] ∨ OpensConstruct following

/-- A run of text ends at the first place where a construct opens. -/
theorem readText_ends (before s : List Char) :
    let read := readText (lastClose (before ++ s)) (extent before) s
    (∀ passed c rest, read.1 = passed ++ c :: rest → ¬ OpensConstruct (c :: rest ++ read.2)) ∧
      (read.2 = [] ∨ OpensConstruct read.2) := by
  induction s generalizing before with
  | nil => simp [readText, splitBefore, splitBeforeFrom]
  | cons c s ih =>
    have hiff := beginsConstruct_iff before (c :: s)
    have hmore := ih (before ++ [c])
    have hwhole := readText_append (lastClose (before ++ c :: s)) (extent (before ++ [c])) s
    rw [List.append_assoc, List.singleton_append] at hmore
    have hposition : extent (before ++ [c]) = extent before + c.utf8Size := by simp
    rw [hposition] at hmore hwhole
    simp only [readText] at hmore hwhole ⊢
    rw [splitBefore_cons]
    by_cases hopens : OpensConstruct (c :: s)
    · rw [if_pos (hiff.2 hopens)]
      exact ⟨by simp, .inr hopens⟩
    · rw [if_neg (mt hiff.1 hopens)]
      refine ⟨fun passed d rest hrun => ?_, hmore.2⟩
      cases passed with
      | nil =>
        obtain ⟨rfl, rfl⟩ := List.cons.inj hrun
        rw [List.cons_append, hwhole]
        exact hopens
      | cons b passed => exact hmore.1 passed d rest (List.cons.inj hrun).2

theorem kind_ne_text_of_takeConstruct? {o : Options} {opened : List OpenTag} {position : Nat}
    {s : List Char} {step : Step} (h : takeConstruct? o opened position s = some step) :
    ∀ p ∈ step.pieces, p.kind ≠ .text := by
  unfold takeConstruct? at h
  split at h
  · obtain rfl := by simpa using h
    simp
  split at h
  · obtain rfl := by simpa using h
    simp
  split at h
  · obtain rfl := by simpa using h
    simp
  split at h
  · obtain rfl := by simpa using h
    simp
  split at h
  · obtain rfl := by simpa using h
    unfold takeStartTag
    simp only
    split <;> simp
  · cases h

/-- A run of text that a step takes is what `readText_ends` says. -/
theorem isTextRun_step (o : Options) (opened : List OpenTag) {whole : List Char} {position : Nat}
    {s : List Char} (h : At whole position s) {p : Piece}
    (hp : p ∈ (step o (lastClose whole) opened position s).pieces) (hkind : p.kind = .text) :
    p.start = position ∧ ∃ following, s = p.source ++ following ∧ IsTextRun p.source following := by
  unfold step at hp
  split at hp
  · unfold takeRawText at hp
    simp only at hp
    split at hp
    · obtain rfl := List.mem_singleton.1 hp
      cases hkind
    · rcases List.mem_cons.1 hp with rfl | hp
      · cases hkind
      · obtain rfl := List.mem_singleton.1 hp
        cases hkind
  · unfold takeMarkup at hp
    split at hp
    · next hread => exact absurd hkind (kind_ne_text_of_takeConstruct? hread p hp)
    · split at hp
      · obtain rfl := List.mem_singleton.1 hp
        cases hkind
      · next c run rest hread =>
        obtain rfl := List.mem_singleton.1 hp
        obtain ⟨before, rfl, rfl⟩ := h
        obtain ⟨hinside, hends⟩ := readText_ends before s
        have hwhole := readText_append (lastClose (before ++ s)) (extent before) s
        rw [hread] at hinside hends hwhole
        refine ⟨rfl, rest, hwhole.symm, List.cons_ne_nil c run, ?_, hends⟩
        intro passed more hrun hmore
        obtain ⟨d, more, rfl⟩ := List.exists_cons_of_ne_nil hmore
        exact noConstruct_of_not_opensConstruct (hinside passed d more hrun)

theorem isTextRun_traceFrom (o : Options) (opened : List OpenTag) {whole : List Char}
    {position : Nat} {s : List Char} (h : At whole position s) {p : Piece}
    (hp : p ∈ (traceFrom o (lastClose whole) opened position s).1) (hkind : p.kind = .text) :
    ∃ following, At whole p.start (p.source ++ following) ∧ IsTextRun p.source following := by
  fun_induction traceFrom o (lastClose whole) opened position s with
  | case1 => cases hp
  | case2 opened position s hs next _ pieces final heq ih =>
    rcases List.mem_append.1 hp with hp | hp
    · obtain ⟨rfl, following, rfl, hrun⟩ := isTextRun_step o opened h hp hkind
      exact ⟨following, h, hrun⟩
    · rw [← step_append o (lastClose whole) opened position s] at h
      rw [heq] at ih
      exact ih h.after hp

/-! ### Events of runs -/

/-- A text has a span if it is a run or a remainder that cannot be read, and it has none if it is
what a raw-text element holds. -/
theorem Piece.Explained.text_cases {o : Options} {opened : List OpenTag} {following : List Char}
    {p : Piece} (h : p.Explained o opened following) {content : String} {span : Option Span}
    (hmem : .text content span ∈ p.events) :
    ((p.kind = .text ∨ p.kind = .stalled) ∧ span = some p.span ∧
        content = String.ofList p.source) ∨
      (p.kind = .rawContent ∧ span = none ∧ ∃ name, IsRawText name p.source content.toList) := by
  unfold Piece.Explained at h
  split at h
  · obtain ⟨text, -, hevents⟩ := h
    rw [hevents] at hmem
    split at hmem <;> simp at hmem
  · simp [h.2] at hmem
  · simp [h.2] at hmem
  · obtain ⟨name, -, -, hevents⟩ := h
    have hnone := text?_closeNamed (hevents ▸ hmem)
    cases hnone
  · obtain ⟨t, closed, outer, attributes, unary, -, -, hevents⟩ := h
    simp [hevents] at hmem
  · next hkind =>
    obtain ⟨rfl, rfl⟩ : content = String.ofList p.source ∧ span = some p.span := by
      simpa [h.2] using hmem
    exact .inl ⟨.inl hkind, rfl, rfl⟩
  · next hkind =>
    obtain ⟨t, outer, text, -, -, hraw, hevents⟩ := h
    rw [hevents] at hmem
    split at hmem
    · simp at hmem
    · obtain ⟨rfl, rfl⟩ : content = String.ofList text ∧ span = none := by simpa using hmem
      exact .inr ⟨hkind, rfl, t.name, by rwa [String.toList_ofList]⟩
  · obtain ⟨t, outer, -, -, -, hevents⟩ := h
    simp [hevents] at hmem
  · next hkind =>
    obtain ⟨rfl, rfl⟩ : content = String.ofList p.source ∧ span = some p.span := by
      rw [h.2.2] at hmem
      split at hmem <;> simpa [malformedEnd] using hmem
    exact .inl ⟨.inr hkind, rfl, rfl⟩

/-- A text event is an event of a piece: the tags that are missing in the end are no text. -/
theorem exists_piece_of_text {o : Options} {markup content : String} {span : Option Span}
    (h : .text content span ∈ parse o markup) :
    ∃ p ∈ (trace o markup).1, .text content span ∈ p.events := by
  rcases List.mem_append.1 h with h | h
  · exact List.mem_flatMap.1 h
  · simp [closeAll, OpenTag.abandon, OpenTag.missingEnd] at h

theorem mem_of_unwraps {opening closing s text : List Char} (h : Unwraps opening closing s text)
    {c : Char} (hc : c ∈ text) : c ∈ s := by
  induction h with
  | unopened => exact hc
  | unclosed => exact hc
  | pair hcut hinner _ ih =>
    rw [← cut?_append hcut, ← cut?_append hinner]
    simp only [List.mem_append] at hc ⊢
    rcases hc with (hc | hc) | hc
    · exact .inl (.inl hc)
    · exact .inr (.inl (.inl hc))
    · exact .inr (.inr (ih hc))

theorem mem_of_isRawText {name : String} {content text : List Char}
    (h : IsRawText name content text) {c : Char} (hc : c ∈ text) : c ∈ content := by
  obtain ⟨unwrapped, hunwrapped, htext⟩ := h
  have hmem : c ∈ unwrapped := by
    split at htext
    · exact htext ▸ List.mem_cons_of_mem _ hc
    · exact htext ▸ hc
  split at hunwrapped
  · exact hunwrapped ▸ hmem
  · obtain ⟨uncommented, hcomments, hdata⟩ := hunwrapped
    exact mem_of_unwraps hcomments (mem_of_unwraps hdata hmem)

/-- No text has a character that the markup does not have. -/
theorem mem_of_text {o : Options} {markup content : String} {span : Option Span}
    (h : .text content span ∈ parse o markup) {c : Char} (hc : c ∈ content.toList) :
    c ∈ markup.toList := by
  obtain ⟨p, hp, hevent⟩ := exists_piece_of_text h
  obtain ⟨opened, following, hexplained⟩ := exists_explained_of_mem_trace hp
  have hsource : c ∈ p.source := by
    obtain ⟨-, -, rfl⟩ | ⟨-, -, name, hraw⟩ := hexplained.text_cases hevent
    · rwa [String.toList_ofList] at hc
    · exact mem_of_isRawText hraw hc
  have hcover : (trace o markup).1.flatMap Piece.source = markup.toList :=
    source_traceFrom o (lastClose markup.toList) [] 0 markup.toList
  rw [← hcover]
  exact List.mem_flatMap.2 ⟨p, hp, hsource⟩

/-- Text with a span comes from a run of text, unless it is what is left of the markup because a
construct begins there and cannot be read. No comment and no tag can be read from any place in a
run, and the run goes on to the end of the markup or to where a construct opens. Whether a `>`
follows a place is told from the position of the last `>` as a search from that place would tell it,
in any part of the markup up to its end, and so the tests that end a run hold exactly where a
construct opens. -/
theorem parse_textRuns (o : Options) (markup : String) :
    (∀ content span, .text content (some span) ∈ parse o markup →
      ∃ p ∈ (trace o markup).1, .text content (some span) ∈ p.events ∧
        (p.kind = .text ∨ p.kind = .stalled) ∧ span = p.span ∧ content = String.ofList p.source) ∧
    (∀ p ∈ (trace o markup).1, p.kind = .text →
      ∃ before following, markup.toList = before ++ (p.source ++ following) ∧
        extent before = p.start ∧ IsTextRun p.source following ∧
        p.events = [.text (String.ofList p.source) (some p.span)]) ∧
    ∀ earlier before rest, markup.toList = earlier ++ (before ++ rest) →
      (lastClose (before ++ rest)).any (extent before ≤ ·) = rest.contains '>' ∧
        (beginsConstruct (lastClose (before ++ rest)) (extent before) rest = true ↔
          OpensConstruct rest) := by
  refine ⟨?_, ?_, ?_⟩
  · intro content span hmem
    obtain ⟨p, hp, hevent⟩ := exists_piece_of_text hmem
    obtain ⟨opened, following, h⟩ := exists_explained_of_mem_trace hp
    obtain ⟨hkind, hspan, hcontent⟩ | ⟨-, hnone, -⟩ := h.text_cases hevent
    · exact ⟨p, hp, hevent, hkind, Option.some.inj hspan, hcontent⟩
    · cases hnone
  · intro p hp hkind
    have hat : At markup.toList 0 markup.toList := ⟨[], rfl, rfl⟩
    obtain ⟨following, ⟨before, hwhole, hstart⟩, hrun⟩ := isTextRun_traceFrom o [] hat hp hkind
    obtain ⟨opened, after, h⟩ := exists_explained_of_mem_trace hp
    rw [Piece.Explained, hkind] at h
    exact ⟨before, following, hwhole, hstart, hrun, h.2⟩
  · intro earlier before rest _
    exact ⟨lastClose_any_eq before rest, beginsConstruct_iff before rest⟩

end HtmlTemplate.Markup
