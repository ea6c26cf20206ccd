import HtmlTemplate.Proofs.Tokens

/-!
# Start events and where they stand

What a start event says could be read in a start tag where it stands: the names are such as are read
there, the innermost open element is not a raw-text element, and the rules of implicit closing close
nothing before it, for they were applied when it was read (`wellPlaced_parse`). To see the last the
open elements have to fit in each other (`Options.Stacked`), also after some of them were closed.
-/

namespace HtmlTemplate.Markup

open Text

/-! ### Events and the elements open before them -/

/-- The predicate holds of each event with the names of the elements that are open before it. -/
def AtEach (P : List String → Event → Prop) (opened : List OpenTag) (events : List Event) : Prop :=
  ∀ before e after, events = before ++ e :: after →
    ∀ middle, openAfter? opened before = some middle → P (middle.map OpenTag.name) e

namespace AtEach

variable {P : List String → Event → Prop} {opened middle : List OpenTag} {events more : List Event}

theorem of_forall (h : ∀ e ∈ events, ∀ names, P names e) : AtEach P opened events := by
  intro before e after hevents middle _
  exact h e (by simp [hevents]) _

theorem append (h : AtEach P opened events) (hmiddle : openAfter? opened events = some middle)
    (hmore : AtEach P middle more) : AtEach P opened (events ++ more) := by
  intro before e after hevents final hfinal
  obtain ⟨rest, rfl, hrest⟩ | ⟨rest, rfl, -⟩ := append_eq_append_cons_cases hevents
  · rw [openAfter?_append, hmiddle, Option.bind_some] at hfinal
    exact hmore rest e after hrest final hfinal
  · exact h before e rest rfl final hfinal

theorem single {e : Event} (h : P (opened.map OpenTag.name) e) : AtEach P opened [e] := by
  intro before e' after hevents middle hmiddle
  cases before with
  | nil =>
    obtain ⟨rfl, -⟩ := List.cons.inj hevents
    obtain rfl : opened = middle := by simpa using hmiddle
    exact h
  | cons b before => simp at hevents

theorem head {e : Event} (h : AtEach P opened (e :: events)) : P (opened.map OpenTag.name) e :=
  h [] e events rfl opened rfl

theorem tail {e : Event} (h : AtEach P opened (e :: events))
    (hmiddle : e.openAfter? opened = some middle) : AtEach P middle events := by
  intro before e' after hevents final hfinal
  apply h (e :: before) e' after (by rw [hevents]; rfl) final
  rw [openAfter?_cons, hmiddle, Option.bind_some, hfinal]

end AtEach

/-! ### Names of attributes -/

/-- A name that was read as the name of an attribute. -/
def IsReadName (name : List Char) : Prop :=
  name ≠ [] ∧ (readBracketOpening? name = none → ∀ c ∈ name, isAttributeNamePart c = true)

theorem isReadName_of_readAttributeName? {s name rest : List Char}
    (h : readAttributeName? s = some (name, rest)) : IsReadName name := by
  unfold readAttributeName? at h
  split at h
  · next hbracketed =>
    cases h
    refine ⟨(readBracketedName?_append hbracketed).2, fun hnone => ?_⟩
    unfold readBracketedName? at hbracketed
    split at hbracketed
    · next opening c inner hopening =>
      split at hbracketed
      · cases hbracketed
      · split at hbracketed
        · obtain ⟨rfl, -⟩ := by simpa using hbracketed
          rw [readBracketOpening?_append_right hopening] at hnone
          cases hnone
        · cases hbracketed
    · cases hbracketed
  · refine ⟨(readPlainName?_append h).2, fun _ => ?_⟩
    simp only [readPlainName?] at h
    split at h
    · cases h
    · obtain ⟨rfl, -⟩ := by simpa using h
      exact fun c hc => List.mem_takeWhile_imp hc

/-- The names of attributes are read as such. -/
theorem exists_readAttributeName?_of_readAttributes? {s : List Char}
    {attributes : List RawAttribute} {close : TagClose} {rest : List Char}
    (h : readAttributes? s = some ((attributes, close), rest)) :
    ∀ a ∈ attributes, ∃ t after, readAttributeName? t = some (a.name, after) := by
  fun_induction readAttributes? s generalizing attributes close rest with
  | case1 s found r hclose =>
    obtain ⟨⟨rfl, -⟩, -⟩ := by simpa using h
    simp
  | case2 => cases h
  | case3 s _ a r ha _ more found after hmore ih =>
    obtain ⟨⟨rfl, -⟩, -⟩ := by simpa using h
    refine List.forall_mem_cons.2 ⟨?_, ih hmore⟩
    unfold readAttribute? at ha
    split at ha
    · cases ha
    · next name r hname =>
      split at ha <;>
      · obtain ⟨rfl, -⟩ := by simpa using ha
        exact ⟨_, _, hname⟩
  | case4 => cases h

/-- The names in a start tag are read as such. -/
theorem exists_read_of_readStartTag? {s : List Char} {t : StartTag} {rest : List Char}
    (h : readStartTag? s = some (t, rest)) :
    isQualifiedName t.name = true ∧
      ∀ a ∈ t.attributes, ∃ u after, readAttributeName? u = some (a.name, after) := by
  unfold readStartTag? at h
  split at h
  · split at h
    · cases h
    · next hname =>
      split at h
      · next hattributes =>
        obtain ⟨rfl, -⟩ := by simpa using h
        exact ⟨isQualifiedName_of_readName? hname,
          exists_readAttributeName?_of_readAttributes? hattributes⟩
      · cases h
  · cases h

/-- The names in a start tag are such as are read. -/
theorem names_of_readStartTag? {s : List Char} {t : StartTag} {rest : List Char}
    (h : readStartTag? s = some (t, rest)) :
    isQualifiedName t.name = true ∧ ∀ a ∈ t.attributes, IsReadName a.name := by
  obtain ⟨hname, hattributes⟩ := exists_read_of_readStartTag? h
  refine ⟨hname, fun a ha => ?_⟩
  obtain ⟨u, after, hread⟩ := hattributes a ha
  exact isReadName_of_readAttributeName? hread

theorem isQualifiedName_of_readEndTag? {s : List Char} {t : Taken (List Char)}
    (h : readEndTag? s = some t) : isQualifiedName t.found = true := by
  unfold readEndTag? at h
  split at h
  · split at h
    · cases h
    · next hname =>
      split at h
      · cases h
      · obtain rfl := by simpa using h
        exact isQualifiedName_of_readName? hname
  · cases h

theorem exists_of_mem_attributesFrom {o : Options} {tag : String} {position : Nat}
    {attributes : List RawAttribute} {a : Attribute}
    (h : a ∈ attributesFrom o tag position attributes) :
    ∃ raw ∈ attributes, a.name = String.ofList raw.name := by
  induction attributes generalizing position with
  | nil => cases h
  | cons raw attributes ih =>
    rcases List.mem_cons.1 h with rfl | h
    · exact ⟨raw, by simp, rfl⟩
    · obtain ⟨raw', hraw, hname⟩ := ih h
      exact ⟨raw', by simp [hraw], hname⟩

/-! ### Where elements may stand -/

namespace Options

variable (o : Options)

/-- What is said of a start event in elements of these names. -/
structure Admits (names : List String) (name : String) (attributes : List Attribute) : Prop where
  readsMarkup : o.ReadsMarkup names
  staysOpen : o.StaysOpen names name
  qualified : isQualifiedName name.toList = true
  attributes : ∀ a ∈ attributes, IsReadName a.name.toList

/-- The event may stand in elements of these names. -/
def WellPlaced (names : List String) : Event → Prop
  | .startTag name attributes _ _ => o.Admits names name attributes
  | .comment .. => o.keepComments = true
  | .endTag .. => True
  | .text .. => True
  | .warning .. => True

/-- Each element may stand in the next. -/
def Stacked : List String → Prop
  | [] => True
  | name :: outer => o.ReadsMarkup outer ∧ o.StaysOpen outer name ∧ Stacked outer

end Options

theorem Options.Stacked.outer {o : Options} {inner outer : List String}
    (h : o.Stacked (inner ++ outer)) : o.Stacked outer := by
  induction inner with
  | nil => exact h
  | cons name inner ih => exact ih h.2.2

theorem Options.Stacked.readsMarkup {o : Options} {inner outer : List String}
    (h : o.Stacked (inner ++ outer)) (hreads : o.ReadsMarkup (inner ++ outer)) :
    o.ReadsMarkup outer := by
  induction inner with
  | nil => exact hreads
  | cons name inner ih => exact ih h.2.2 h.1

theorem innermostIs_iff {opened : List OpenTag} {name : String} :
    innermostIs opened name = true ↔ (opened.map OpenTag.name).head? = some name := by
  cases opened <;> simp [innermostIs]

/-! ### Closing before a start tag -/

section

variable {o : Options} {opened : List OpenTag} (hnamed : Named opened)
  (hstacked : o.Stacked (opened.map OpenTag.name))
include hnamed hstacked

/-- Once an element of the same name that may be left open is closed, nothing else has to be. -/
theorem staysOpen_closeSame {name : String}
    (hparagraph : (opened.map OpenTag.name).head? = some "p" → endsParagraph name = false)
    (position : Nat) :
    o.StaysOpen ((if o.mayBeLeftOpen name && innermostIs opened name then
      closeNamed opened name (.empty position) else ([], opened)).2.map OpenTag.name) name := by
  split
  · next hclose =>
    obtain ⟨-, hinnermost⟩ := by simpa only [Bool.and_eq_true] using hclose
    cases opened with
    | nil => cases hinnermost
    | cons t outer =>
      obtain rfl : t.name = name := by simpa [innermostIs] using hinnermost
      rw [closeNamed_innermost (hnamed t (by simp))]
      exact hstacked.2.1
  · next hkeep =>
    intro _
    refine ⟨hparagraph, fun hhead => ?_⟩
    rw [innermostIs_iff.2 hhead, Bool.and_true] at hkeep
    simpa using hkeep

theorem staysOpen_closeBefore (hparagraphs : o.mayBeLeftOpen "p" = true) (name : String)
    (position : Nat) :
    o.StaysOpen ((closeBefore o opened name position).2.map OpenTag.name) name := by
  unfold closeBefore
  split
  · next himplicit =>
    simp only
    split
    · next hclose =>
      obtain ⟨hinnermost, -⟩ := by simpa only [Bool.and_eq_true] using hclose
      cases opened with
      | nil => cases hinnermost
      | cons t outer =>
        have ht : t.name = "p" := by simpa [innermostIs] using hinnermost
        have hfolded : t.folded = lowercase "p" := by rw [hnamed t (by simp), ht]
        rw [closeNamed_innermost hfolded]
        apply staysOpen_closeSame hnamed.tail hstacked.2.2
        intro hhead
        have hopen := (hstacked.2.1 himplicit).2
        rw [ht, hparagraphs] at hopen
        cases hopen hhead
    · next hkeep =>
      apply staysOpen_closeSame hnamed hstacked
      intro hhead
      rw [innermostIs_iff.2 hhead, Bool.true_and] at hkeep
      simpa using hkeep
  · next himplicit => exact fun h => absurd h himplicit

end

/-! ### Steps -/

/-- The events of a step may stand where they do, and the elements that are open after it are
stacked as they may be. -/
def Step.IsPlaced (o : Options) (opened : List OpenTag) (step : Step) : Prop :=
  AtEach o.WellPlaced opened (step.pieces.flatMap Piece.events) ∧
    o.Stacked (step.opened.map OpenTag.name)

/-- Events that neither start an element nor are comments may stand anywhere. -/
theorem wellPlaced_of_forall {o : Options} {opened : List OpenTag} {events : List Event}
    (h : ∀ e ∈ events, ∀ names, o.WellPlaced names e) : AtEach o.WellPlaced opened events :=
  .of_forall h

theorem lowercase_ne_br {name : String} (h : endsParagraph name = true) :
    lowercase name ≠ "br" := by
  rw [endsParagraph, NameTest.among, List.contains_iff_mem] at h
  revert name
  decide +kernel

section

variable {o : Options} (hparagraphs : o.mayBeLeftOpen "p" = true) {opened : List OpenTag}
  (hnamed : Named opened) (hstacked : o.Stacked (opened.map OpenTag.name))

theorem wellPlaced_strayEndTag (hreads : o.ReadsMarkup (opened.map OpenTag.name)) {name : String}
    (hname : isQualifiedName name.toList = true)
    (hstray : ∀ t ∈ opened, lowercase t.name ≠ lowercase name) (span : Span) :
    AtEach o.WellPlaced opened (strayEndTag name span) := by
  have hsame : ∀ n, (opened.map OpenTag.name).head? = some n → lowercase n ≠ lowercase name := by
    intro n hn
    obtain ⟨t, ht, rfl⟩ := List.mem_map.1 (List.mem_of_head? hn)
    exact hstray t ht
  unfold strayEndTag
  split
  · next hbr =>
    have hends : endsParagraph name = false := by
      rw [Bool.eq_false_iff]
      exact fun h => lowercase_ne_br h (by simpa using hbr)
    apply AtEach.single
    exact
      { readsMarkup := hreads
        staysOpen := fun _ => ⟨fun _ => hends, fun h => absurd rfl (hsame name h)⟩
        qualified := hname
        attributes := by simp }
  · split
    · next hp =>
      have hlower : lowercase name = "p" := by simpa using hp
      have hstart : o.Admits (opened.map OpenTag.name) name [] :=
        { readsMarkup := hreads
          staysOpen := fun _ => ⟨fun h => absurd (by rw [hlower]; decide) (hsame "p" h),
            fun h => absurd rfl (hsame name h)⟩
          qualified := hname
          attributes := by simp }
      exact AtEach.append (AtEach.single hstart) rfl (wellPlaced_of_forall (by simp [Options.WellPlaced]))
    · exact wellPlaced_of_forall (by simp)

include hnamed in
theorem wellPlaced_closeNamed (hreads : o.ReadsMarkup (opened.map OpenTag.name)) {name : String}
    (hname : isQualifiedName name.toList = true) (span : Span) :
    AtEach o.WellPlaced opened (closeNamed opened name span).1 := by
  obtain ⟨inner, t, outer, rfl, -, -, hclose⟩ | ⟨hstray, hclose⟩ := closeNamed_cases opened name span
  · rw [hclose]
    apply wellPlaced_of_forall
    intro e he names
    simp only [List.mem_append, List.mem_flatMap, OpenTag.abandon, List.mem_cons, List.not_mem_nil,
      or_false] at he
    rcases he with ⟨u, -, rfl | rfl⟩ | rfl <;> exact trivial
  · rw [hclose]
    exact wellPlaced_strayEndTag hreads hname
      (fun t ht => hnamed t ht ▸ hstray t ht) span

include hnamed hstacked in
theorem stacked_closeNamed (name : String) (span : Span) :
    o.Stacked ((closeNamed opened name span).2.map OpenTag.name) := by
  obtain ⟨inner, t, outer, rfl, -, -, hclose⟩ | ⟨-, hclose⟩ := closeNamed_cases opened name span
  · rw [hclose]
    rw [List.map_append, List.map_cons] at hstacked
    exact hstacked.outer.2.2
  · rw [hclose]
    exact hstacked

theorem openAfter?_closed (closed outer : List OpenTag) (span : Span) :
    openAfter? (closed ++ outer) (closed.map fun t => .endTag t.name span) = some outer := by
  induction closed with
  | nil => rfl
  | cons t closed ih => simpa [Event.openAfter?] using ih

include hparagraphs hnamed hstacked in
theorem isPlaced_takeStartTag (hreads : o.ReadsMarkup (opened.map OpenTag.name)) (position : Nat)
    {t : StartTag} (hname : isQualifiedName t.name = true)
    (hattributes : ∀ a ∈ t.attributes, IsReadName a.name) (rest : List Char) :
    (takeStartTag o opened position t rest).IsPlaced o opened := by
  have hstays := staysOpen_closeBefore hnamed hstacked hparagraphs (String.ofList t.name)
    (Span.mk position (extent t.source)).stop
  obtain ⟨closed, outer, rfl, -, hclose⟩ := closeBefore_cases o hnamed (String.ofList t.name)
    (Span.mk position (extent t.source)).stop
  rw [hclose] at hstays
  rw [List.map_append] at hstacked hreads
  have hstart : o.Admits (outer.map OpenTag.name) (String.ofList t.name)
      (attributesFrom o (String.ofList t.name) (position + 1 + extent t.name) t.attributes) :=
    { readsMarkup := hstacked.readsMarkup hreads
      staysOpen := hstays
      qualified := by simpa using hname
      attributes := by
        intro a ha
        obtain ⟨raw, hraw, hsame⟩ := exists_of_mem_attributesFrom ha
        rw [hsame, String.toList_ofList]
        exact hattributes raw hraw }
  have hevents : AtEach o.WellPlaced (closed ++ outer)
      ((closed.map fun u => Event.endTag u.name (.empty (Span.mk position (extent t.source)).stop)) ++
        [.startTag (String.ofList t.name)
          (attributesFrom o (String.ofList t.name) (position + 1 + extent t.name) t.attributes)
          (o.isVoid (String.ofList t.name) || t.close.slash) ⟨position, extent t.source⟩]) :=
    AtEach.append (wellPlaced_of_forall (by simp [Options.WellPlaced]))
      (openAfter?_closed closed outer _) (AtEach.single hstart)
  have hopened : o.Stacked ((if o.isVoid (String.ofList t.name) || t.close.slash then outer else
      .named (String.ofList t.name) ⟨position, extent t.source⟩ :: outer).map OpenTag.name) := by
    split
    · exact hstacked.outer
    · exact ⟨hstart.readsMarkup, hstays, hstacked.outer⟩
  unfold takeStartTag
  simp only [hclose]
  split <;> exact ⟨by simpa using hevents, hopened⟩

theorem Step.isPlaced_single {p : Piece} {after : List OpenTag} {rest : List Char}
    (h : AtEach o.WellPlaced opened p.events) (hafter : o.Stacked (after.map OpenTag.name)) :
    (Step.mk [p] after rest).IsPlaced o opened :=
  ⟨by simpa using h, hafter⟩

include hparagraphs hnamed hstacked in
theorem isPlaced_takeConstruct? (hreads : o.ReadsMarkup (opened.map OpenTag.name)) {position : Nat}
    {s : List Char} {step : Step} (h : takeConstruct? o opened position s = some step) :
    step.IsPlaced o opened := by
  unfold takeConstruct? at h
  split at h
  · obtain rfl := by simpa using h
    refine Step.isPlaced_single (wellPlaced_of_forall ?_) hstacked
    split
    · next hkeeps => simpa [Options.WellPlaced] using hkeeps
    · simp
  split at h
  · obtain rfl := by simpa using h
    exact Step.isPlaced_single (wellPlaced_of_forall (by simp)) hstacked
  split at h
  · obtain rfl := by simpa using h
    exact Step.isPlaced_single (wellPlaced_of_forall (by simp)) hstacked
  split at h
  · next t ht =>
    obtain rfl := by simpa using h
    have hname : isQualifiedName (String.ofList t.found).toList = true := by
      rw [String.toList_ofList]
      exact isQualifiedName_of_readEndTag? ht
    exact Step.isPlaced_single (wellPlaced_closeNamed hnamed hreads hname _)
      (stacked_closeNamed hnamed hstacked _ _)
  split at h
  · next t rest ht =>
    obtain rfl := by simpa using h
    obtain ⟨hname, hattributes⟩ := names_of_readStartTag? ht
    exact isPlaced_takeStartTag hparagraphs hnamed hstacked hreads position hname hattributes rest
  · cases h

include hparagraphs hnamed hstacked in
theorem isPlaced_step (lastClose : Option Nat) (position : Nat) (s : List Char) :
    (step o lastClose opened position s).IsPlaced o opened := by
  unfold step
  split
  · next tag htag =>
    cases opened with
    | nil => cases htag
    | cons t outer =>
      have hfolded : t.folded = lowercase tag := by
        rw [hnamed t (by simp)]
        simp only [rawTextElement?] at htag
        split at htag <;> cases htag
        rfl
      unfold takeRawText
      simp only [closeNamed_innermost hfolded]
      split
      · refine Step.isPlaced_single (wellPlaced_of_forall ?_) hstacked
        split <;> simp [Options.WellPlaced]
      · refine ⟨wellPlaced_of_forall ?_, hstacked.2.2⟩
        simp only [List.flatMap_cons, List.flatMap_nil, List.append_nil]
        split <;> simp [Options.WellPlaced]
  · next hmarkup =>
    have hreads : o.ReadsMarkup (opened.map OpenTag.name) := by
      intro name hname
      cases opened with
      | nil => cases hname
      | cons t outer =>
        obtain rfl : t.name = name := by simpa using hname
        simpa [rawTextElement?] using hmarkup
    unfold takeMarkup
    split
    · next hconstruct => exact isPlaced_takeConstruct? hparagraphs hnamed hstacked hreads hconstruct
    · split
      · refine Step.isPlaced_single (wellPlaced_of_forall ?_) hstacked
        simp only
        split <;> simp [Options.WellPlaced, malformedEnd]
      · exact Step.isPlaced_single (wellPlaced_of_forall (by simp [Options.WellPlaced])) hstacked

end

/-! ### Whole markup -/

theorem wellPlaced_traceFrom {o : Options} (hparagraphs : o.mayBeLeftOpen "p" = true)
    (lastClose : Option Nat) {opened : List OpenTag} (hnamed : Named opened)
    (hstacked : o.Stacked (opened.map OpenTag.name)) (position : Nat) (s : List Char) :
    AtEach o.WellPlaced opened
      ((traceFrom o lastClose opened position s).1.flatMap Piece.events) := by
  fun_induction traceFrom o lastClose opened position s with
  | case1 => exact wellPlaced_of_forall (by simp)
  | case2 opened position s hs next _ pieces final heq ih =>
    rw [heq] at ih
    have hbalanced : Balanced opened (next.pieces.flatMap Piece.attributed) next.opened :=
      isBalanced_step o hnamed position lastClose s
    have hopen : openAfter? opened (next.pieces.flatMap Piece.events) = some next.opened := by
      have := hbalanced.openAfter?_eq
      rwa [map_snd_flatMap_attributed] at this
    obtain ⟨hstep, hafter⟩ : next.IsPlaced o opened :=
      isPlaced_step hparagraphs hnamed hstacked lastClose position s
    rw [List.flatMap_append]
    exact hstep.append hopen (ih (hbalanced.named hnamed) hafter)

/-- Every event of a markup may stand where it does. -/
theorem wellPlaced_parse {o : Options} (hparagraphs : o.mayBeLeftOpen "p" = true) (markup : String) :
    AtEach o.WellPlaced [] (parse o markup) := by
  have htrace := wellPlaced_traceFrom hparagraphs (lastClose markup.toList) named_nil
    (show o.Stacked [] from trivial) 0 markup.toList
  have hopen : openAfter? [] ((trace o markup).1.flatMap Piece.events) = some (trace o markup).2 := by
    have hbalanced := balanced_traceFrom o (lastClose markup.toList) named_nil 0 markup.toList
    have := hbalanced.openAfter?_eq
    rwa [map_snd_flatMap_attributed] at this
  refine AtEach.append htrace hopen (wellPlaced_of_forall ?_)
  intro e he names
  simp only [closeAll, List.mem_flatMap, OpenTag.abandon, List.mem_cons, List.not_mem_nil,
    or_false] at he
  obtain ⟨u, -, rfl | rfl⟩ := he <;> exact trivial

end HtmlTemplate.Markup
