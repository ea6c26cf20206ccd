import HtmlTemplate.Proofs.Placement

/-!
# Pieces cover the markup

Reading loses nothing and takes nothing twice. The pieces of a run stand one after the other from
the first byte of the markup to the last (`Tiles`), and each is what its kind says, in the elements
that are open before it and with the text that follows it (`Piece.Explained`): a comment, a
declaration, a tag, a run of text, the content of a raw-text element. What is reported of a text is
the slice of the markup that its piece covers, once (`parse_covers`).
-/

namespace HtmlTemplate.Markup

open Text

/-! ### Slices -/

/-- The part of a text that a span covers. -/
def IsSlice (s : List Char) (span : Span) (part : List Char) : Prop :=
  ∃ before after, s = before ++ part ++ after ∧ extent before = span.start ∧
    extent part = span.length

theorem IsSlice.unique {s part part' : List Char} {span : Span} (h : IsSlice s span part)
    (h' : IsSlice s span part') : part = part' := by
  obtain ⟨before, after, rfl, hstart, hlength⟩ := h
  obtain ⟨before', after', heq, hstart', hlength'⟩ := h'
  rw [List.append_assoc, List.append_assoc] at heq
  obtain ⟨-, hrest⟩ := append_inj_of_extent_eq heq (hstart.trans hstart'.symm)
  exact (append_inj_of_extent_eq hrest (hlength.trans hlength'.symm)).1

/-! ### Pieces without gaps -/

/-- The pieces follow each other from one byte position to another. -/
def Tiles : Nat → List Piece → Nat → Prop
  | start, [], stop => start = stop
  | start, p :: pieces, stop => p.start = start ∧ Tiles p.span.stop pieces stop

theorem Tiles.append {start middle stop : Nat} {pieces more : List Piece}
    (h : Tiles start pieces middle) (hmore : Tiles middle more stop) :
    Tiles start (pieces ++ more) stop := by
  induction pieces generalizing start with
  | nil =>
    obtain rfl : start = middle := h
    exact hmore
  | cons p pieces ih => exact ⟨h.1, ih h.2⟩

/-- A piece begins where those before it end. -/
theorem Tiles.start_eq {start stop : Nat} {before after : List Piece} {p : Piece}
    (h : Tiles start (before ++ p :: after) stop) :
    p.start = start + extent (before.flatMap Piece.source) := by
  induction before generalizing start with
  | nil => exact h.1
  | cons q before ih =>
    obtain ⟨rfl, hrest⟩ := h
    rw [ih hrest, List.flatMap_cons, extent_append, Span.stop, Piece.span, Nat.add_assoc]

/-! ### What the constructs look like -/

/-- A comment with the text between its marks, which may share their dashes. -/
inductive IsComment : List Char → List Char → Prop where
  | marked (text : List Char) : IsComment (['<', '!', '-', '-'] ++ text ++ ['-', '-', '>']) text
  | shared : IsComment ['<', '!', '-', '-', '>'] []
  | sharedHalf : IsComment ['<', '!', '-', '-', '-', '>'] []

def IsConditionalComment (source : List Char) : Prop :=
  ∃ condition, source = ['<', '!', '['] ++ condition ++ [']', '>']

def IsDoctype (source : List Char) : Prop :=
  ∃ keyword inner, source = keyword ++ ' ' :: inner ++ ['>'] ∧
    eqIgnoringAsciiCase keyword doctypeKeyword = true ∧ inner ≠ [] ∧ '>' ∉ inner

def IsEndTag (source name : List Char) : Prop :=
  ∃ rest, source = ['<', '/'] ++ name ++ rest ++ ['>'] ∧ isQualifiedName name = true ∧ '>' ∉ rest

/-- A start tag and perhaps the line feed after it, which some elements drop. -/
structure IsStartTag (source following : List Char) (t : StartTag) : Prop where
  qualified : isQualifiedName t.name = true
  lineFeed :
    source = t.source ++ ['\n'] ∧ dropsFirstLineFeed (String.ofList t.name) = true ∨
    source = t.source ∧
      (dropsFirstLineFeed (String.ofList t.name) = true → following.head? ≠ some '\n')

/-- The end tag of a raw-text element, whose name is given in small letters. -/
def IsRawEndTag (source folded : List Char) : Prop :=
  ∃ name rest, source = ['<', '/'] ++ name ++ rest ++ ['>'] ∧
    eqIgnoringAsciiCase name folded = true ∧ '>' ∉ rest ∧
    ∀ c ∈ rest.head?, c = '/' ∨ isAsciiBlank c = true

/-- What is left of a text once the marks of every pair are taken out. -/
inductive Unwraps (opening closing : List Char) : List Char → List Char → Prop where
  | unopened {s : List Char} (h : cut? opening s = none) : Unwraps opening closing s s
  | unclosed {s before inner : List Char} (h : cut? opening s = some (before, inner))
      (hinner : cut? closing inner = none) : Unwraps opening closing s s
  | pair {s before inner kept rest text : List Char} (h : cut? opening s = some (before, inner))
      (hinner : cut? closing inner = some (kept, rest)) (hrest : Unwraps opening closing rest text) :
      Unwraps opening closing s (before ++ kept ++ text)

/-- The text of a raw-text element with the given content: without the wrappers of comments and of
character data, unless the element keeps them, and without a first line feed if it drops that. -/
def IsRawText (name : String) (content text : List Char) : Prop :=
  ∃ unwrapped,
    (if keepsWrappers (lowercase name) then unwrapped = content
      else ∃ uncommented,
        Unwraps ['<', '!', '-', '-'] ['-', '-', '>'] content uncommented ∧
        Unwraps ['<', '!', '[', 'C', 'D', 'A', 'T', 'A', '['] [']', ']', '>'] uncommented
          unwrapped) ∧
    (if dropsFirstLineFeed (lowercase name) ∧ unwrapped.head? = some '\n' then
      unwrapped = '\n' :: text
    else unwrapped = text)

theorem isComment_of_readComment? {s : List Char} {t : Taken (List Char)}
    (h : readComment? s = some t) : IsComment t.source t.found := by
  unfold readComment? at h
  split at h
  · split at h
    · next body hdashes =>
      split at h
      · next before rest hcut =>
        obtain rfl := by simpa using h
        obtain ⟨tail, hbody⟩ := List.isPrefixOf_iff_prefix.1 hdashes
        have happend := cut?_append hcut
        rw [← hbody] at happend
        match before with
        | [] => exact .shared
        | [c] =>
          obtain ⟨rfl, -⟩ := List.cons.inj happend
          exact .sharedHalf
        | c :: d :: text =>
          obtain ⟨rfl, hrest⟩ := List.cons.inj happend
          obtain ⟨rfl, -⟩ := List.cons.inj hrest
          exact .marked text
      · cases h
    · cases h
  · cases h

theorem isConditionalComment_of_readConditionalComment? {s : List Char} {t : Taken Unit}
    (h : readConditionalComment? s = some t) : IsConditionalComment t.source := by
  unfold readConditionalComment? at h
  split at h
  · split at h
    · next condition rest _ =>
      obtain rfl := by simpa using h
      exact ⟨condition, rfl⟩
    · cases h
  · cases h

theorem not_mem_takeWhile_ne (c : Char) (s : List Char) : c ∉ s.takeWhile (· != c) := by
  intro h
  simpa using List.mem_takeWhile_imp h

theorem isDoctype_of_readDoctype? {s : List Char} {t : Taken Unit}
    (h : readDoctype? s = some t) : IsDoctype t.source := by
  unfold readDoctype? at h
  split at h
  · next hkeyword =>
    split at h
    · next body hbody =>
      split at h
      · next c inner gt rest hinner hrest =>
        obtain rfl := by simpa using h
        obtain rfl := eq_of_dropWhile_ne hrest
        refine ⟨s.take 9, c :: inner, by simp, hkeyword, by simp, ?_⟩
        rw [← hinner]
        exact not_mem_takeWhile_ne '>' body
      · cases h
    · cases h
  · cases h

theorem isEndTag_of_readEndTag? {s : List Char} {t : Taken (List Char)}
    (h : readEndTag? s = some t) : IsEndTag t.source t.found := by
  have hname := isQualifiedName_of_readEndTag? h
  unfold readEndTag? at h
  split at h
  · split at h
    · cases h
    · next name after _ =>
      split at h
      · cases h
      · next gt rest hrest =>
        obtain rfl := by simpa using h
        obtain rfl := eq_of_dropWhile_ne hrest
        exact ⟨_, by simp, hname, not_mem_takeWhile_ne '>' after⟩
  · cases h

theorem eqIgnoringAsciiCase_of_stripNameIgnoringCase? {name s written rest : List Char}
    (h : stripNameIgnoringCase? name s = some (written, rest)) :
    eqIgnoringAsciiCase written name = true := by
  fun_induction stripNameIgnoringCase? name s generalizing written rest with
  | case1 =>
    obtain ⟨rfl, -⟩ := by simpa using h
    rfl
  | case2 => cases h
  | case3 n name c r hc w after hw ih =>
    obtain ⟨rfl, -⟩ := by simpa using h
    have hrest := ih hw
    simp only [eqIgnoringAsciiCase, beq_iff_eq, List.map_cons] at hc hrest ⊢
    rw [hc, hrest]
  | case4 => cases h
  | case5 => cases h

theorem isRawEndTag_of_readRawExtent {name s : List Char} (h : (readRawExtent name s).endTag ≠ []) :
    IsRawEndTag (readRawExtent name s).endTag name := by
  unfold readRawExtent at h ⊢
  simp only at h ⊢
  split
  · next hnone => simp [hnone] at h
  · next opening after hopening =>
    simp only [hopening] at h
    split
    · next hrest => simp [hrest] at h
    · next gt rest hrest =>
      obtain rfl := eq_of_dropWhile_ne hrest
      unfold readRawCloseOpening? at hopening
      split at hopening
      · split at hopening
        · next written c more hwritten =>
          split at hopening
          · next hc =>
            obtain ⟨rfl, rfl⟩ := by simpa using hopening
            refine ⟨written, (c :: more).takeWhile (· != '>'), by simp,
              eqIgnoringAsciiCase_of_stripNameIgnoringCase? hwritten,
              not_mem_takeWhile_ne '>' _, ?_⟩
            intro d hd
            rw [List.takeWhile_cons] at hd
            split at hd
            · next hother =>
              obtain rfl : c = d := by simpa using hd
              simpa [bne_iff_ne.1 hother] using hc
            · cases hd
          · cases hopening
        · cases hopening
      · cases hopening

theorem unwraps_unwrapFrom (opening closing : List Char) (nonempty : opening ≠ [])
    (done s : List Char) :
    ∃ text, unwrapFrom opening closing nonempty done s = done.reverse ++ text ∧
      Unwraps opening closing s text := by
  fun_induction unwrapFrom opening closing nonempty done s with
  | case1 done s h => exact ⟨s, rfl, .unopened h⟩
  | case2 done s before inner h hinner => exact ⟨s, rfl, .unclosed h hinner⟩
  | case3 done s before inner h kept rest hinner _ _ ih =>
    obtain ⟨text, heq, htext⟩ := ih
    exact ⟨before ++ kept ++ text, by simp [heq], .pair h hinner htext⟩

theorem isRawText_rawTextOf (name : String) (content : List Char) :
    IsRawText name content (rawTextOf (lowercase name) content) := by
  have hwhole : ∀ {opening closing s : List Char} (nonempty : opening ≠ []),
      Unwraps opening closing s (unwrapFrom opening closing nonempty [] s) := by
    intro opening closing s nonempty
    obtain ⟨text, heq, htext⟩ := unwraps_unwrapFrom opening closing nonempty [] s
    rw [heq]
    exact htext
  refine ⟨if keepsWrappers (lowercase name) then content
    else unwrapCharacterData (unwrapComments content), ?_, ?_⟩
  · split
    · rfl
    · exact ⟨unwrapComments content, hwhole _, hwhole _⟩
  · unfold rawTextOf
    simp only
    generalize (if keepsWrappers (lowercase name) then content
      else unwrapCharacterData (unwrapComments content)) = text
    split
    · next hfeed =>
      obtain ⟨rest, rfl⟩ := List.head?_eq_some_iff.1 hfeed.2
      simp [hfeed.1]
    · next hfeed =>
      split
      · next hdrops => exact absurd ⟨hdrops, rfl⟩ hfeed
      · rfl

/-! ### What the pieces are -/

/-- What a piece is and what it reports, according to its kind: `opened` are the elements that are
open before it, `following` is the text after it. -/
def Piece.Explained (o : Options) (opened : List OpenTag) (following : List Char) (p : Piece) :
    Prop :=
  match p.kind with
  | .comment => ∃ text, IsComment p.source text ∧
      p.events = if o.keepComments then [.comment (String.ofList text) p.span] else []
  | .conditionalComment => IsConditionalComment p.source ∧ p.events = []
  | .doctype => IsDoctype p.source ∧ p.events = []
  | .endTag => ∃ name, IsEndTag p.source name ∧ p.endTagName? = some (String.ofList name) ∧
      p.events = (closeNamed opened (String.ofList name) p.span).1
  | .startTag => ∃ t closed outer attributes unary, IsStartTag p.source following t ∧
      opened = closed ++ outer ∧
      p.events =
        (closed.map fun u => .endTag u.name (.empty (p.start + extent t.source))) ++
          [.startTag (String.ofList t.name) attributes unary ⟨p.start, extent t.source⟩]
  | .text => p.source ≠ [] ∧ p.events = [.text (String.ofList p.source) (some p.span)]
  | .rawContent => ∃ t outer text, opened = t :: outer ∧ o.isRawText t.name = true ∧
      IsRawText t.name p.source text ∧
      p.events = if text = [] then [] else [.text (String.ofList text) none]
  | .rawEndTag => ∃ t outer, opened = t :: outer ∧ o.isRawText t.name = true ∧
      IsRawEndTag p.source (lowercase t.name).toList ∧ p.events = [.endTag t.name p.span]
  | .stalled => p.source ≠ [] ∧ following = [] ∧
      p.events = .text (String.ofList p.source) (some p.span) ::
        if opened.isEmpty then [] else [malformedEnd (String.ofList p.source) p.span.stop]

/-- Every piece is explained in its place; the text `following` comes after all of them. -/
def EachExplained (o : Options) (opened : List OpenTag) (pieces : List Piece)
    (following : List Char) : Prop :=
  ∀ before p after, pieces = before ++ p :: after →
    ∃ innermost, openAfter? opened (before.flatMap Piece.events) = some innermost ∧
      p.Explained o innermost (after.flatMap Piece.source ++ following)

section

variable {o : Options} {opened middle : List OpenTag} {pieces more : List Piece}
  {following : List Char}

theorem EachExplained.append
    (h : EachExplained o opened pieces (more.flatMap Piece.source ++ following))
    (hmiddle : openAfter? opened (pieces.flatMap Piece.events) = some middle)
    (hmore : EachExplained o middle more following) :
    EachExplained o opened (pieces ++ more) following := by
  intro before p after hpieces
  obtain ⟨rest, rfl, hrest⟩ | ⟨rest, rfl, rfl⟩ := append_eq_append_cons_cases hpieces
  · rw [List.flatMap_append, openAfter?_append, hmiddle, Option.bind_some]
    exact hmore rest p after hrest
  · simpa using h before p rest rfl

theorem EachExplained.single {p : Piece} (h : p.Explained o opened following) :
    EachExplained o opened [p] following := by
  intro before q after hpieces
  cases before with
  | nil =>
    obtain ⟨rfl, rfl⟩ := List.cons.inj hpieces
    exact ⟨opened, rfl, h⟩
  | cons b before => simp at hpieces

end

/-! ### Steps -/

/-- The pieces of a step stand one after the other and are explained. -/
structure Step.IsExplained (o : Options) (opened : List OpenTag) (position : Nat) (step : Step) :
    Prop where
  tiles : Tiles position step.pieces (position + extent step.source)
  explained : EachExplained o opened step.pieces step.rest

section

variable {o : Options} {opened : List OpenTag} {position : Nat}

theorem Step.isExplained_single {p : Piece} {after : List OpenTag} {rest : List Char}
    (hstart : p.start = position) (h : p.Explained o opened rest) :
    (Step.mk [p] after rest).IsExplained o opened position :=
  ⟨⟨hstart, by simp [Tiles, Step.source, Piece.span, Span.stop, hstart]⟩, .single h⟩

variable (hopened : Named opened)

include hopened in
theorem isExplained_takeStartTag {t : StartTag} (hname : isQualifiedName t.name = true)
    (rest : List Char) : (takeStartTag o opened position t rest).IsExplained o opened position := by
  obtain ⟨closed, outer, rfl, -, hclose⟩ := closeBefore_cases o hopened (String.ofList t.name)
    (Span.mk position (extent t.source)).stop
  unfold takeStartTag
  simp only [hclose]
  split
  · next hdrops =>
    refine Step.isExplained_single rfl ⟨t, closed, outer, _, _, ⟨hname, .inl ⟨rfl, hdrops⟩⟩, rfl, rfl⟩
  · next hother =>
    refine Step.isExplained_single rfl ⟨t, closed, outer, _, _, ⟨hname, .inr ⟨rfl, ?_⟩⟩, rfl, rfl⟩
    intro hdrops hhead
    obtain ⟨after, rfl⟩ := List.head?_eq_some_iff.1 hhead
    exact hother after hdrops rfl

include hopened in
theorem isExplained_takeConstruct? {s : List Char} {step : Step}
    (h : takeConstruct? o opened position s = some step) : step.IsExplained o opened position := by
  unfold takeConstruct? at h
  split at h
  · next t ht =>
    obtain rfl := by simpa using h
    exact Step.isExplained_single rfl ⟨t.found, isComment_of_readComment? ht, rfl⟩
  split at h
  · next t ht =>
    obtain rfl := by simpa using h
    exact Step.isExplained_single rfl ⟨isConditionalComment_of_readConditionalComment? ht, rfl⟩
  split at h
  · next t ht =>
    obtain rfl := by simpa using h
    exact Step.isExplained_single rfl ⟨isDoctype_of_readDoctype? ht, rfl⟩
  split at h
  · next t ht =>
    obtain rfl := by simpa using h
    refine Step.isExplained_single rfl ⟨t.found, isEndTag_of_readEndTag? ht, ?_, rfl⟩
    simp [Piece.endTagName?, readEndTag?_source ht]
  split at h
  · next t rest ht =>
    obtain rfl := by simpa using h
    exact isExplained_takeStartTag hopened (names_of_readStartTag? ht).1 rest
  · cases h

include hopened in
theorem isExplained_takeMarkup (lastClose : Option Nat) {s : List Char} (hs : s ≠ []) :
    (takeMarkup o lastClose opened position s).IsExplained o opened position := by
  unfold takeMarkup
  split
  · next h => exact isExplained_takeConstruct? hopened h
  · split
    · exact Step.isExplained_single rfl ⟨hs, rfl, rfl⟩
    · exact Step.isExplained_single rfl ⟨by simp, rfl⟩

/-- Raw text and its end tag are explained by the element that they belong to. -/
theorem isExplained_takeRawText {t : OpenTag} {outer : List OpenTag} (h : Named (t :: outer))
    (hraw : o.isRawText t.name = true) (s : List Char) :
    (takeRawText t.name (t :: outer) position s).IsExplained o (t :: outer) position := by
  have hendTag : (readRawExtent (lowercase t.name).toList s).endTag ≠ [] → _ :=
    isRawEndTag_of_readRawExtent
  unfold takeRawText
  simp only [closeNamed_innermost (h t (by simp))]
  generalize readRawExtent (lowercase t.name).toList s = raw at hendTag ⊢
  have htext := isRawText_rawTextOf t.name raw.content
  generalize rawTextOf (lowercase t.name) raw.content = text at htext ⊢
  have hcontent : ∀ following, Piece.Explained o (t :: outer) following ⟨.rawContent, position,
      raw.content, if text.isEmpty then [] else [.text (String.ofList text) none]⟩ :=
    fun _ => ⟨t, outer, text, rfl, hraw, htext, by simp [List.isEmpty_iff]⟩
  split
  · exact Step.isExplained_single rfl (hcontent _)
  · next hend =>
    constructor
    · simp [Tiles, Step.source, Piece.span, Span.stop, Nat.add_assoc]
    · refine (EachExplained.single (hcontent _)).append (?_ : _ = some (t :: outer)) ?_
      · simp only [List.flatMap_cons, List.flatMap_nil, List.append_nil]
        split <;> rfl
      · apply EachExplained.single
        exact ⟨t, outer, rfl, hraw, hendTag (by simpa using hend), rfl⟩

include hopened in
theorem isExplained_step (lastClose : Option Nat) {s : List Char} (hs : s ≠ []) :
    (step o lastClose opened position s).IsExplained o opened position := by
  unfold step
  split
  · next tag htag =>
    cases opened with
    | nil => cases htag
    | cons t outer =>
      simp only [rawTextElement?] at htag
      split at htag
      · next hraw =>
        cases htag
        exact isExplained_takeRawText hopened hraw s
      · cases htag
  · exact isExplained_takeMarkup hopened lastClose hs

end

/-! ### Whole markup -/

theorem explained_traceFrom (o : Options) (lastClose : Option Nat) {opened : List OpenTag}
    (hopened : Named opened) (position : Nat) (s : List Char) :
    Tiles position (traceFrom o lastClose opened position s).1 (position + extent s) ∧
      EachExplained o opened (traceFrom o lastClose opened position s).1 [] := by
  fun_induction traceFrom o lastClose opened position s with
  | case1 => exact ⟨rfl, by simp [EachExplained]⟩
  | case2 opened position s hs next _ pieces final heq ih =>
    have hbalanced : Balanced opened (next.pieces.flatMap Piece.attributed) next.opened :=
      isBalanced_step o hopened position lastClose s
    have hopen : openAfter? opened (next.pieces.flatMap Piece.events) = some next.opened := by
      have := hbalanced.openAfter?_eq
      rwa [map_snd_flatMap_attributed] at this
    obtain ⟨htiles, hexplained⟩ : next.IsExplained o opened position :=
      isExplained_step hopened lastClose hs
    obtain ⟨hmoreTiles, hmoreExplained⟩ := ih (hbalanced.named hopened)
    have hrest := source_traceFrom o lastClose next.opened (position + extent next.source) next.rest
    have hwhole : next.source ++ next.rest = s := step_append o lastClose opened position s
    rw [heq] at hmoreTiles hmoreExplained hrest
    constructor
    · have hlength := congrArg extent hwhole
      rw [extent_append] at hlength
      refine htiles.append ?_
      rwa [← hlength, ← Nat.add_assoc]
    · refine EachExplained.append ?_ hopen hmoreExplained
      rwa [hrest, List.append_nil]

/-- Every piece covers its slice of the markup. -/
theorem isSlice_of_tiles {s : List Char} {pieces : List Piece} {stop : Nat}
    (hsource : pieces.flatMap Piece.source = s) (htiles : Tiles 0 pieces stop) {p : Piece}
    (hp : p ∈ pieces) : IsSlice s p.span p.source := by
  obtain ⟨before, after, rfl⟩ := List.append_of_mem hp
  refine ⟨before.flatMap Piece.source, after.flatMap Piece.source, ?_, ?_, rfl⟩
  · rw [← hsource, List.flatMap_append, List.flatMap_cons, List.append_assoc]
  · rw [Piece.span, htiles.start_eq, Nat.zero_add]

/-! ### Start events -/

/-- The span begins where the piece, a start tag, does, and covers it but for a line feed that is
dropped after it. -/
def Piece.Opens (p : Piece) (name : String) (span : Span) : Prop :=
  p.kind = .startTag ∧ span.start = p.start ∧
    ∃ rest lineFeed, p.source = '<' :: name.toList ++ rest ++ lineFeed ∧
      extent ('<' :: name.toList ++ rest) = span.length ∧
      (lineFeed = [] ∨ lineFeed = ['\n'] ∧ dropsFirstLineFeed name = true)

/-- An end tag starts an element only if it is a stray one. -/
theorem closeNamed_of_startTag_mem {opened : List OpenTag} {name name' : String} {span span' : Span}
    {attributes : List Attribute} {unary : Bool}
    (h : .startTag name' attributes unary span' ∈ (closeNamed opened name span).1) :
    name' = name ∧ (closeNamed opened name span).1 = strayEndTag name span := by
  obtain ⟨inner, t, outer, -, -, -, hclose⟩ | ⟨-, hclose⟩ := closeNamed_cases opened name span
  · simp [hclose, OpenTag.abandon, OpenTag.missingEnd] at h
  · rw [hclose] at h ⊢
    refine ⟨?_, rfl⟩
    unfold strayEndTag at h
    split at h
    · simp_all
    · split at h <;> simp_all

theorem Piece.Explained.startTag {o : Options} {opened : List OpenTag} {following : List Char}
    {p : Piece} (h : p.Explained o opened following) {name : String} {attributes : List Attribute}
    {unary : Bool} {span : Span} (hmem : .startTag name attributes unary span ∈ p.events) :
    p.Opens name span ∨ p.endTagName? = some name ∧ p.events = strayEndTag name p.span := by
  unfold Piece.Explained at h
  split at h
  · obtain ⟨text, -, hevents⟩ := h
    rw [hevents] at hmem
    split at hmem <;> simp at hmem
  · simp [h.2] at hmem
  · simp [h.2] at hmem
  · obtain ⟨n, -, hname, hevents⟩ := h
    rw [hevents] at hmem
    obtain ⟨rfl, hstray⟩ := closeNamed_of_startTag_mem hmem
    exact .inr ⟨hname, hevents.trans hstray⟩
  · next hkind =>
    obtain ⟨t, closed, outer, attributes', unary', htag, -, hevents⟩ := h
    obtain ⟨rfl, -, -, rfl⟩ : name = String.ofList t.name ∧ attributes = attributes' ∧
        unary = unary' ∧ span = ⟨p.start, extent t.source⟩ := by
      simpa [hevents] using hmem
    have hsource : t.source = '<' :: (String.ofList t.name).toList ++
        (t.attributes.flatMap RawAttribute.source ++ t.close.source) := by
      simp [StartTag.source]
    refine .inl ⟨hkind, rfl, t.attributes.flatMap RawAttribute.source ++ t.close.source, ?_⟩
    rw [← hsource]
    obtain ⟨hfeed, hdrops⟩ | ⟨hfeed, -⟩ := htag.lineFeed
    · exact ⟨['\n'], hfeed, rfl, .inr ⟨rfl, hdrops⟩⟩
    · exact ⟨[], by rw [hfeed, List.append_nil], rfl, .inl rfl⟩
  · simp [h.2] at hmem
  · obtain ⟨t, outer, text, -, -, -, hevents⟩ := h
    rw [hevents] at hmem
    split at hmem <;> simp at hmem
  · obtain ⟨t, outer, -, -, -, hevents⟩ := h
    simp [hevents] at hmem
  · rw [h.2.2] at hmem
    split at hmem <;> simp [malformedEnd] at hmem

section

variable (o : Options) (markup : String)

theorem explained_trace :
    Tiles 0 (trace o markup).1 markup.utf8ByteSize ∧ EachExplained o [] (trace o markup).1 [] := by
  obtain ⟨htiles, hexplained⟩ : Tiles 0 (trace o markup).1 (0 + extent markup.toList) ∧
      EachExplained o [] (trace o markup).1 [] :=
    explained_traceFrom o (lastClose markup.toList) named_nil 0 markup.toList
  rw [Nat.zero_add, extent_toList] at htiles
  exact ⟨htiles, hexplained⟩

theorem source_trace : (trace o markup).1.flatMap Piece.source = markup.toList :=
  source_traceFrom o (lastClose markup.toList) [] 0 markup.toList

variable {o markup} {p : Piece} (hp : p ∈ (trace o markup).1)
include hp

theorem exists_explained_of_mem_trace : ∃ opened following, p.Explained o opened following := by
  obtain ⟨before, after, hpieces⟩ := List.append_of_mem hp
  obtain ⟨opened, -, h⟩ := (explained_trace o markup).2 before p after hpieces
  exact ⟨opened, _, h⟩

theorem isSlice_of_mem_trace : IsSlice markup.toList p.span p.source :=
  isSlice_of_tiles (source_trace o markup) (explained_trace o markup).1 hp

end

/-- A start event comes from a piece, a start tag of its name or a stray end tag. -/
theorem exists_piece_of_startTag_mem_parse {o : Options} {markup name : String}
    {attributes : List Attribute} {unary : Bool} {span : Span}
    (h : .startTag name attributes unary span ∈ parse o markup) :
    ∃ p ∈ (trace o markup).1, .startTag name attributes unary span ∈ p.events ∧
      (p.Opens name span ∨ p.endTagName? = some name ∧ p.events = strayEndTag name p.span) := by
  have hmem : .startTag name attributes unary span ∈ (trace o markup).1.flatMap Piece.events := by
    rcases List.mem_append.1 h with hmem | hmem
    · exact hmem
    · simp [closeAll, OpenTag.abandon, OpenTag.missingEnd] at hmem
  obtain ⟨p, hp, hevent⟩ := List.mem_flatMap.1 hmem
  obtain ⟨opened, following, hexplained⟩ := exists_explained_of_mem_trace hp
  exact ⟨p, hp, hevent, hexplained.startTag hevent⟩

/-- Reading covers the markup. Its pieces stand one after the other from the first byte to the last,
each over its slice of the markup, and give all events but those that close what is still open in
the end. Every piece is what its kind says. In particular a run of text and a remainder that cannot
be read give exactly one text event, which is the slice that it spans; and a start event spans a
start tag of its name, unless it stands for a stray end tag. -/
theorem parse_covers (o : Options) (markup : String) :
    ((trace o markup).1.flatMap Piece.source = markup.toList ∧
      Tiles 0 (trace o markup).1 markup.utf8ByteSize ∧
      (∀ p ∈ (trace o markup).1, IsSlice markup.toList p.span p.source) ∧
      parse o markup = (trace o markup).1.flatMap Piece.events ++
        closeAll (trace o markup).2 markup.utf8ByteSize) ∧
    EachExplained o [] (trace o markup).1 [] ∧
    (∀ p ∈ (trace o markup).1, p.kind = .text ∨ p.kind = .stalled →
      p.source ≠ [] ∧ p.events.filter (fun e => e.text?.isSome) =
        [.text (String.ofList p.source) (some p.span)]) ∧
    ∀ name attributes unary span, .startTag name attributes unary span ∈ parse o markup →
      ∃ p ∈ (trace o markup).1, .startTag name attributes unary span ∈ p.events ∧
        (p.Opens name span ∨ p.endTagName? = some name ∧ p.events = strayEndTag name p.span) := by
  obtain ⟨htiles, hexplained⟩ := explained_trace o markup
  refine ⟨⟨source_trace o markup, htiles, fun p => isSlice_of_mem_trace, rfl⟩, hexplained, ?_,
    fun name attributes unary span => exists_piece_of_startTag_mem_parse⟩
  intro p hp hkind
  obtain ⟨opened, following, h⟩ := exists_explained_of_mem_trace hp
  rcases hkind with hkind | hkind <;> rw [Piece.Explained, hkind] at h
  · exact ⟨h.1, by rw [h.2]; rfl⟩
  · refine ⟨h.1, ?_⟩
    rw [h.2.2]
    split <;> rfl

end HtmlTemplate.Markup
