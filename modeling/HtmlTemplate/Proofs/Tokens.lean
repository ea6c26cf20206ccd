import HtmlTemplate.Proofs.Balance
import HtmlTemplate.Proofs.Constructs

/-!
# Rendered markup is read as it was written

Rendering writes tags, comments and encoded text: tokens. Reading takes one of them at a time, as a
rule: a line feed at the beginning of some elements is lost, and the content of a raw-text element
is taken together with its end tag. `Legible` says when tokens are read as what they are in some
open elements, which is when tags match, no start tag closes anything, no name or comment breaks out
and text does not meet text; the events are then those of the tokens (`Legible.bare_parse`).
-/

namespace HtmlTemplate.Markup

open Text

/-! ### Events without places -/

/-- An event without its place. -/
inductive BareEvent where
  | startTag (name : String) (attributes : List (String × String)) (unary : Bool)
  | endTag (name : String)
  | text (content : String)
  | comment (content : String)
  | warning (message : String)
  deriving DecidableEq, Repr

def Event.bare : Event → BareEvent
  | .startTag name attributes unary _ =>
    .startTag name (attributes.map fun a => (a.name, a.value)) unary
  | .endTag name _ => .endTag name
  | .text content _ => .text content
  | .comment content _ => .comment content
  | .warning message _ => .warning message

/-! ### Tokens -/

/-- What rendered markup is put together from. Values of attributes and text are not yet encoded; an
attribute may have no value. -/
inductive Token where
  | opening (name : String) (attributes : List (String × Option String))
  | closing (name : String)
  | text (content : String)
  | comment (content : String)
  deriving DecidableEq, Repr

def Token.source : Token → List Char
  | .opening name attributes => (StartTag.rendered name attributes).source
  | .closing name => endTagSource name
  | .text content => encoded content.toList
  | .comment content => commentSource content

def sourceOf (tokens : List Token) : List Char := tokens.flatMap Token.source

@[simp] theorem sourceOf_nil : sourceOf [] = [] := rfl

@[simp] theorem sourceOf_cons (t : Token) (tokens : List Token) :
    sourceOf (t :: tokens) = t.source ++ sourceOf tokens :=
  rfl

@[simp] theorem sourceOf_append (tokens more : List Token) :
    sourceOf (tokens ++ more) = sourceOf tokens ++ sourceOf more :=
  List.flatMap_append

/-- Tokens as they are written. -/
def written (tokens : List Token) : String := String.ofList (sourceOf tokens)

@[simp] theorem written_nil : written [] = "" := rfl

theorem written_append (tokens more : List Token) :
    written (tokens ++ more) = written tokens ++ written more := by
  rw [written, sourceOf_append, String.ofList_append]
  rfl

theorem written_cons (t : Token) (tokens : List Token) :
    written (t :: tokens) = written [t] ++ written tokens :=
  written_append [t] tokens

theorem written_closing (name : String) : written [.closing name] = "</" ++ name ++ ">" := by
  simp [← String.toList_inj, written, Token.source, endTagSource]

theorem written_text (content : String) : written [.text content] = encodeText content := by
  simp [← String.toList_inj, written, Token.source]

theorem written_comment (content : String) :
    written [.comment content] = "<!--" ++ content ++ "-->" := by
  simp [← String.toList_inj, written, Token.source, commentSource]

/-- An attribute as it is written. -/
def writtenAttribute (a : String × Option String) : String :=
  " " ++ a.1 ++ a.2.elim "" fun value => "=\"" ++ encodeText value ++ "\""

theorem toList_writtenAttribute (a : String × Option String) :
    (writtenAttribute a).toList = (RawAttribute.rendered a.1 a.2).source := by
  obtain ⟨name, value⟩ := a
  cases value <;> simp [writtenAttribute, RawAttribute.source, RawAttribute.rendered]

theorem written_opening (name : String) (attributes : List (String × Option String)) :
    written [.opening name attributes] =
      "<" ++ name ++ String.join (attributes.map writtenAttribute) ++ ">" := by
  have hattributes : (String.join (attributes.map writtenAttribute)).toList =
      (attributes.map fun a => RawAttribute.rendered a.1 a.2).flatMap RawAttribute.source := by
    induction attributes with
    | nil => rfl
    | cons a attributes ih => simp [String.join_cons, toList_writtenAttribute, ih]
  simp [← String.toList_inj, written, Token.source, StartTag.source, StartTag.rendered,
    TagClose.source, hattributes]

/-- Whether the content of an element is read as raw text. -/
def Options.opensRawText (o : Options) (name : String) : Bool := !o.isVoid name && o.isRawText name

/-- How many line feeds are lost at the beginning of an element: one after the start tag, and one
more at the beginning of raw text. -/
def Options.lostLineFeeds (o : Options) (name : String) : Nat :=
  (dropsFirstLineFeed name).toNat +
    (o.opensRawText name && dropsFirstLineFeed (lowercase name)).toNat

def dropLineFeeds (n : Nat) (s : List Char) : List Char := (dropLineFeed true)^[n] s

/-- The event of a text, if there is any text. -/
def textEvents (s : List Char) : List BareEvent :=
  if s = [] then [] else [.text (String.ofList (encoded s))]

/-- The events of tokens, where the text that they begin with loses line feeds. -/
def bareEventsAfter (o : Options) (lost : Nat) : List Token → List BareEvent
  | [] => []
  | .text content :: rest =>
    textEvents (dropLineFeeds lost content.toList) ++ bareEventsAfter o 0 rest
  | .opening name attributes :: rest =>
    .startTag name (attributes.map fun a => (a.1, a.2.getD "")) (o.isVoid name) ::
      bareEventsAfter o (o.lostLineFeeds name) rest
  | .closing name :: rest => .endTag name :: bareEventsAfter o 0 rest
  | .comment content :: rest =>
    (if o.keepComments then [.comment content] else []) ++ bareEventsAfter o 0 rest

/-- No open element is closed by the start tag of a name. -/
def Options.StaysOpen (o : Options) (names : List String) (name : String) : Prop :=
  o.implicitClose = true → (names.head? = some "p" → endsParagraph name = false) ∧
    (names.head? = some name → o.mayBeLeftOpen name = false)

/-- The innermost open element, if there is one, is not a raw-text element. -/
def Options.ReadsMarkup (o : Options) (names : List String) : Prop :=
  ∀ name ∈ names.head?, o.isRawText name = false

/-- A start tag that is read as it is written, and closes nothing. -/
structure Options.Opens (o : Options) (names : List String) (name : String)
    (attributes : List (String × Option String)) : Prop where
  readsMarkup : o.ReadsMarkup names
  qualified : isQualifiedName name.toList = true
  plain : ∀ a ∈ attributes, IsPlainName a.1
  staysOpen : o.StaysOpen names name

/-- The text of a raw-text element, as tokens. -/
def textTokens (content : String) : List Token := if content = "" then [] else [.text content]

/-- Tokens that are read as what they are, in open elements of these names. -/
inductive Legible (o : Options) : List String → List Token → Prop where
  | nil : Legible o [] []
  | text {names : List String} {tokens : List Token} {content : String}
      (hreads : o.ReadsMarkup names) (hcontent : content ≠ "")
      (hnext : ∀ more rest, tokens ≠ .text more :: rest) (h : Legible o names tokens) :
      Legible o names (.text content :: tokens)
  | comment {names : List String} {tokens : List Token} {content : String}
      (hreads : o.ReadsMarkup names) (hcontent : IsCommentText content)
      (h : Legible o names tokens) : Legible o names (.comment content :: tokens)
  | opening {names : List String} {tokens : List Token} {name : String}
      {attributes : List (String × Option String)} (hopens : o.Opens names name attributes)
      (hmarkup : o.opensRawText name = false)
      (h : Legible o (if o.isVoid name then names else name :: names) tokens) :
      Legible o names (.opening name attributes :: tokens)
  | closing {names : List String} {tokens : List Token} {name : String}
      (hreads : o.isRawText name = false) (hname : isQualifiedName name.toList = true)
      (h : Legible o names tokens) : Legible o (name :: names) (.closing name :: tokens)
  | raw {names : List String} {tokens : List Token} {name : String}
      {attributes : List (String × Option String)} (content : String)
      (hopens : o.Opens names name attributes) (hraw : o.opensRawText name = true)
      (hfolded : (lowercase name).toList.map Char.toLower = name.toList.map Char.toLower)
      (h : Legible o names tokens) :
      Legible o names
        (.opening name attributes :: (textTokens content ++ .closing name :: tokens))

/-! ### Constructs that are taken -/

theorem dropLineFeed_of_ne {c : Char} (h : c ≠ '\n') (drop : Bool) (s : List Char) :
    dropLineFeed drop (c :: s) = c :: s := by
  cases drop <;> simp [dropLineFeed, h]

theorem dropLineFeed_encoded (drop : Bool) (s : List Char) :
    dropLineFeed drop (encoded s) = encoded (dropLineFeed drop s) := by
  cases s with
  | nil => cases drop <;> rfl
  | cons c s =>
    by_cases hc : c = '\n'
    · subst hc
      cases drop <;> rfl
    · rw [dropLineFeed_of_ne hc]
      obtain ⟨name, hname, -⟩ | ⟨hself, -⟩ := encodedChar_cases c
      · rw [encoded_cons, hname, List.cons_append, dropLineFeed_of_ne (by decide)]
      · rw [encoded_cons, hself, List.singleton_append, dropLineFeed_of_ne hc]

theorem readDoctype?_of_ne {c : Char} (hc : c ≠ '<') (s : List Char) :
    readDoctype? (c :: s) = none := by
  have hlower : c.toLower ≠ '<' := fun h => hc (eq_of_toLower_eq (by decide) h)
  have hkeyword : eqIgnoringAsciiCase ((c :: s).take 9) doctypeKeyword = false := by
    simp [eqIgnoringAsciiCase, doctypeKeyword, hlower]
  rw [readDoctype?, hkeyword]
  rfl

theorem readDoctype?_cons_of_ne {c : Char} (hc : c ≠ '!') (s : List Char) :
    readDoctype? ('<' :: c :: s) = none := by
  have hlower : c.toLower ≠ '!' := fun h => hc (eq_of_toLower_eq (by decide) h)
  have hkeyword : eqIgnoringAsciiCase (('<' :: c :: s).take 9) doctypeKeyword = false := by
    simp [eqIgnoringAsciiCase, doctypeKeyword, hlower]
  rw [readDoctype?, hkeyword]
  rfl

section

variable (o : Options) (opened : List OpenTag) (position : Nat)

theorem takeConstruct?_of_ne {c : Char} (h : c ≠ '<') (s : List Char) :
    takeConstruct? o opened position (c :: s) = none := by
  simp [takeConstruct?, readComment?, readConditionalComment?, readDoctype?_of_ne h, readEndTag?,
    readStartTag?, h]

theorem takeConstruct?_opening {name : String} (hname : isQualifiedName name.toList = true)
    {attributes : List (String × Option String)} (hattributes : ∀ a ∈ attributes, IsPlainName a.1)
    (rest : List Char) :
    takeConstruct? o opened position ((StartTag.rendered name attributes).source ++ rest) =
      some (takeStartTag o opened position (StartTag.rendered name attributes) rest) := by
  obtain ⟨c, t, ht, hc⟩ := exists_cons_of_isQualifiedName hname
  have hbang : c ≠ '!' := by
    rintro rfl
    cases hc
  have hslash : c ≠ '/' := by
    rintro rfl
    cases hc
  have hread := readStartTag?_rendered hname hattributes rest
  have hsource : ∃ s, (StartTag.rendered name attributes).source ++ rest = '<' :: c :: s :=
    ⟨_, by simp [StartTag.source, StartTag.rendered, ht]; rfl⟩
  obtain ⟨s, hs⟩ := hsource
  rw [hs] at hread ⊢
  simp [takeConstruct?, readComment?, readConditionalComment?, readDoctype?_cons_of_ne hbang,
    readEndTag?, hread, hbang, hslash]

theorem takeConstruct?_closing {name : String} (hname : isQualifiedName name.toList = true)
    (rest : List Char) :
    takeConstruct? o opened position (endTagSource name ++ rest) =
      some ⟨[⟨.endTag, position, endTagSource name,
        (closeNamed opened name ⟨position, extent (endTagSource name)⟩).1⟩],
        (closeNamed opened name ⟨position, extent (endTagSource name)⟩).2, rest⟩ := by
  have hread := readEndTag?_rendered hname rest
  have hcomment : readComment? (endTagSource name ++ rest) = none := by
    simp [endTagSource, readComment?]
  have hconditional : readConditionalComment? (endTagSource name ++ rest) = none := by
    simp [endTagSource, readConditionalComment?]
  have hdoctype : readDoctype? (endTagSource name ++ rest) = none :=
    readDoctype?_cons_of_ne (by decide) _
  simp [takeConstruct?, hcomment, hconditional, hdoctype, hread]

theorem takeConstruct?_comment {content : String} (h : IsCommentText content) (rest : List Char) :
    takeConstruct? o opened position (commentSource content ++ rest) =
      some ⟨[⟨.comment, position, commentSource content,
        if o.keepComments then
          [.comment content ⟨position, extent (commentSource content)⟩]
        else []⟩], opened, rest⟩ := by
  simp [takeConstruct?, readComment?_rendered h rest]

end

/-! ### Steps -/

/-- The last `>` is not before any of this text. -/
def ClosesBy (lastClose : Option Nat) (position : Nat) (s : List Char) : Prop :=
  ∀ before after, s = before ++ '>' :: after → ∃ n ∈ lastClose, position + extent before ≤ n

theorem lastCloseFrom_cases (position : Nat) (found : Option Nat) (s : List Char) :
    lastCloseFrom position found s = found ∨
      ∃ n, lastCloseFrom position found s = some n ∧ position ≤ n := by
  induction s generalizing position found with
  | nil => exact .inl rfl
  | cons c s ih =>
    rw [lastCloseFrom]
    obtain h | ⟨n, h, hn⟩ :=
      ih (position + c.utf8Size) (if c == '>' then some position else found)
    · rw [h]
      split
      · exact .inr ⟨position, rfl, Nat.le_refl _⟩
      · exact .inl rfl
    · exact .inr ⟨n, h, by omega⟩

theorem closesBy_lastCloseFrom (position : Nat) (found : Option Nat) (s : List Char) :
    ClosesBy (lastCloseFrom position found s) position s := by
  intro before after hs
  induction before generalizing position found s with
  | nil =>
    subst hs
    simp only [List.nil_append, extent_nil, Nat.add_zero, lastCloseFrom, beq_self_eq_true, if_true]
    obtain h | ⟨n, h, hn⟩ := lastCloseFrom_cases (position + ('>' : Char).utf8Size) (some position)
      after
    · exact ⟨position, h, Nat.le_refl _⟩
    · exact ⟨n, h, by omega⟩
  | cons c before ih =>
    subst hs
    have := ih (position + c.utf8Size) (if c == '>' then some position else found) _ rfl
    rwa [Nat.add_assoc, ← extent_cons] at this

theorem ClosesBy.right {lastClose : Option Nat} {position : Nat} {s t : List Char}
    (h : ClosesBy lastClose position (s ++ t)) : ClosesBy lastClose (position + extent s) t := by
  intro before after ht
  have := h (s ++ before) after (by rw [ht, List.append_assoc])
  rwa [extent_append, ← Nat.add_assoc] at this

/-- The text is empty or begins with a construct, wherever it stands. -/
def Settled (s : List Char) : Prop :=
  s ≠ [] → ∀ lastClose position, ClosesBy lastClose position s →
    beginsConstruct lastClose position s = true

theorem settled_opening {name : String} (hname : isQualifiedName name.toList = true)
    {attributes : List (String × Option String)} (hattributes : ∀ a ∈ attributes, IsPlainName a.1)
    (rest : List Char) : Settled ((StartTag.rendered name attributes).source ++ rest) := by
  intro _ lastClose position _
  obtain ⟨c, t, ht, hc⟩ := exists_cons_of_isQualifiedName hname
  have hbang : c ≠ '!' := by
    rintro rfl
    cases hc
  have hslash : c ≠ '/' := by
    rintro rfl
    cases hc
  have hread := readStartTag?_rendered hname hattributes rest
  have hsource : ∃ s, (StartTag.rendered name attributes).source ++ rest = '<' :: c :: s :=
    ⟨_, by simp [StartTag.source, StartTag.rendered, ht]; rfl⟩
  obtain ⟨s, hs⟩ := hsource
  rw [hs] at hread ⊢
  have hreadName : (readName? (c :: s)).isSome = true := by
    rw [readStartTag?] at hread
    split at hread
    · cases hread
    · next heq => rw [heq, Option.isSome_some]
  simp [beginsConstruct, hbang, hslash, hreadName]

theorem settled_closing {name : String} (hname : isQualifiedName name.toList = true)
    (rest : List Char) : Settled (endTagSource name ++ rest) := by
  intro _ lastClose position hcloses
  have hread := readName?_of_isQualifiedName hname (c := '>') (by decide) (by decide) rest
  obtain ⟨n, hn, hle⟩ := hcloses ('<' :: '/' :: name.toList) rest (by simp [endTagSource])
  have hopen : ('<' : Char).utf8Size = 1 := by decide
  have hslash : ('/' : Char).utf8Size = 1 := by decide
  have hbefore : position + 2 + extent name.toList ≤ n := by
    simp only [extent_cons, hopen, hslash] at hle
    omega
  obtain rfl : lastClose = some n := hn
  simpa [endTagSource, beginsConstruct, hread] using hbefore

theorem settled_comment (content : String) (rest : List Char) :
    Settled (commentSource content ++ rest) := by
  intro _ lastClose position _
  simp [commentSource, beginsConstruct]

/-- In open elements of the names `names`, the first step on `s` reports `taken` and leaves `rest`
in elements of the names `after`, wherever `s` stands. -/
def Takes (o : Options) (names : List String) (s : List Char) (taken : List BareEvent)
    (after : List String) (rest : List Char) : Prop :=
  ∀ lastClose position opened, opened.map OpenTag.name = names → Named opened →
    ClosesBy lastClose position s →
      let next := step o lastClose opened position s
      (next.pieces.flatMap Piece.events).map Event.bare = taken ∧
        next.opened.map OpenTag.name = after ∧ next.rest = rest

theorem rawTextElement?_eq_none {o : Options} {opened : List OpenTag}
    (h : o.ReadsMarkup (opened.map OpenTag.name)) : rawTextElement? o opened = none := by
  cases opened with
  | nil => rfl
  | cons t outer =>
    have ht : o.isRawText t.name = false := h t.name (by simp)
    simp [rawTextElement?, ht]

section

variable {o : Options} {names : List String} {name : String} {rest : List Char}

theorem takes_text (hreads : o.ReadsMarkup names) {run : List Char} (hrun : run ≠ [])
    (hmarkup : '<' ∉ run) (hrest : Settled rest) :
    Takes o names (run ++ rest) [.text (String.ofList run)] names rest := by
  rintro lastClose position opened rfl hnamed hcloses
  have hsplit : readText lastClose position (run ++ rest) = (run, rest) := by
    have hother : ∀ position c s, c ≠ '<' → beginsConstruct lastClose position (c :: s) = false := by
      intro _ c s hc
      unfold beginsConstruct
      split <;> simp_all
    exact splitBefore_append_of_not_mem hother hmarkup fun h =>
      hrest h lastClose _ hcloses.right
  obtain ⟨c, run, rfl⟩ := List.exists_cons_of_ne_nil hrun
  have hc : c ≠ '<' := fun h => hmarkup (by simp [h])
  have hconstruct := takeConstruct?_of_ne o opened position hc (run ++ rest)
  rw [List.cons_append] at hsplit
  simp [step, rawTextElement?_eq_none hreads, takeMarkup, hconstruct, hsplit, Event.bare]

theorem takes_comment (hreads : o.ReadsMarkup names) {content : String}
    (h : IsCommentText content) :
    Takes o names (commentSource content ++ rest)
      (if o.keepComments then [.comment content] else []) names rest := by
  rintro lastClose position opened rfl hnamed -
  have hconstruct := takeConstruct?_comment o opened position h rest
  simp only [step, rawTextElement?_eq_none hreads, takeMarkup, hconstruct]
  split <;> simp [Event.bare]

theorem takes_closing (hreads : o.isRawText name = false)
    (hname : isQualifiedName name.toList = true) :
    Takes o (name :: names) (endTagSource name ++ rest) [.endTag name] names rest := by
  rintro lastClose position opened hnames hnamed -
  obtain ⟨t, outer, rfl, rfl, rfl⟩ := List.map_eq_cons_iff.1 hnames
  have hmarkup : rawTextElement? o (t :: outer) = none := by simp [rawTextElement?, hreads]
  have hconstruct := takeConstruct?_closing o (t :: outer) position hname rest
  rw [closeNamed_innermost (hnamed t (by simp))] at hconstruct
  simp [step, hmarkup, takeMarkup, hconstruct, Event.bare]

/-- The values of rendered attributes are read as they were before encoding. -/
theorem attributesFrom_rendered (o : Options) (name : String) (position : Nat)
    (attributes : List (String × Option String)) :
    (attributesFrom o name position (StartTag.rendered name attributes).attributes).map
      (fun a => (a.name, a.value)) = attributes.map fun a => (a.1, a.2.getD "") := by
  simp only [StartTag.rendered]
  induction attributes generalizing position with
  | nil => rfl
  | cons a attributes ih =>
    obtain ⟨n, value⟩ := a
    simp only [List.map_cons, attributesFrom, ih]
    congr 2
    · simp [RawAttribute.rendered]
    · cases value with
      | none => simp [RawAttribute.rendered, decodeValue, decodeFrom]
      | some v => simp [RawAttribute.rendered, decodeValue_encoded]

theorem closeBefore_of_staysOpen {opened : List OpenTag}
    (h : o.StaysOpen (opened.map OpenTag.name) name) (position : Nat) :
    closeBefore o opened name position = ([], opened) := by
  unfold closeBefore
  split
  · next himplicit =>
    obtain ⟨hp, hname⟩ := h himplicit
    have hhead : ∀ n, innermostIs opened n = true → (opened.map OpenTag.name).head? = some n := by
      intro n hn
      cases opened with
      | nil => cases hn
      | cons t outer => simpa [innermostIs] using hn
    have hfirst : (innermostIs opened "p" && endsParagraph name) = false := by
      cases hopen : innermostIs opened "p" with
      | false => rfl
      | true => exact hp (hhead "p" hopen)
    have hsecond : (o.mayBeLeftOpen name && innermostIs opened name) = false := by
      cases hopen : innermostIs opened name with
      | false => exact Bool.and_false _
      | true => rw [hname (hhead name hopen), Bool.false_and]
    simp [hfirst, hsecond]
  · rfl

theorem takes_opening {attributes : List (String × Option String)}
    (h : o.Opens names name attributes) :
    Takes o names ((StartTag.rendered name attributes).source ++ rest)
      [.startTag name (attributes.map fun a => (a.1, a.2.getD "")) (o.isVoid name)]
      (if o.isVoid name then names else name :: names)
      (dropLineFeed (dropsFirstLineFeed name) rest) := by
  rintro lastClose position opened rfl hnamed -
  have hconstruct := takeConstruct?_opening o opened position h.qualified h.plain rest
  have hclose := closeBefore_of_staysOpen h.staysOpen
  have hattributes := attributesFrom_rendered o name
  have hstep : step o lastClose opened position
      ((StartTag.rendered name attributes).source ++ rest) =
        takeStartTag o opened position (StartTag.rendered name attributes) rest := by
    simp [step, rawTextElement?_eq_none h.readsMarkup, takeMarkup, hconstruct]
  simp only [hstep]
  have hname : String.ofList (StartTag.rendered name attributes).name = name := by
    simp [StartTag.rendered]
  have hunary : (StartTag.rendered name attributes).close.slash = false := rfl
  have hopened : (if o.isVoid name then opened else
      .named name ⟨position, extent (StartTag.rendered name attributes).source⟩ :: opened).map
        OpenTag.name =
      if o.isVoid name then opened.map OpenTag.name else name :: opened.map OpenTag.name := by
    split <;> rfl
  have hkept : ∀ {rest}, (∀ more, dropsFirstLineFeed name = true → rest = '\n' :: more → False) →
      dropLineFeed (dropsFirstLineFeed name) rest = rest := by
    intro rest hkeep
    unfold dropLineFeed
    split
    · next hdrop => exact (hkeep _ hdrop rfl).elim
    · rfl
  unfold takeStartTag
  simp only [hname, hclose, hunary, Bool.or_false, List.nil_append]
  split
  · next hdrop => simp [Event.bare, hattributes, hopened, hdrop, dropLineFeed]
  · next hkeep => simp [Event.bare, hattributes, hopened, hkept hkeep]

/-- The content of a raw-text element and its end tag are taken in one step. -/
theorem takes_raw (hraw : o.isRawText name = true)
    (hfolded : (lowercase name).toList.map Char.toLower = name.toList.map Char.toLower)
    (content : List Char) :
    Takes o (name :: names) (encoded content ++ (endTagSource name ++ rest))
      (textEvents (dropLineFeed (dropsFirstLineFeed (lowercase name)) content) ++ [.endTag name])
      names rest := by
  rintro lastClose position opened hnames hnamed -
  obtain ⟨t, outer, rfl, rfl, rfl⟩ := List.map_eq_cons_iff.1 hnames
  have hmarkup : '<' ∉ encoded content := not_mem_encoded (.inl rfl) content
  have hextent := readRawExtent_rendered hfolded hmarkup rest
  have htext : rawTextOf (lowercase t.name) (encoded content) =
      encoded (dropLineFeed (dropsFirstLineFeed (lowercase t.name)) content) := by
    rw [rawTextOf_of_not_mem hmarkup, dropLineFeed_encoded]
  have helement : rawTextElement? o (t :: outer) = some t.name := by simp [rawTextElement?, hraw]
  simp only [step, helement, takeRawText, hextent, htext]
  rw [closeNamed_innermost (hnamed t (by simp))]
  simp only [endTagSource, List.isEmpty_cons, Bool.false_eq_true, if_false]
  unfold textEvents
  split <;> split <;> simp_all [Event.bare]

end

/-! ### Whole texts -/

/-- Reading a text in open elements of these names reports these events and leaves nothing open,
wherever the text stands. -/
def Reads (o : Options) (names : List String) (s : List Char) (events : List BareEvent) : Prop :=
  ∀ lastClose position opened, opened.map OpenTag.name = names → Named opened →
    ClosesBy lastClose position s →
      ((traceFrom o lastClose opened position s).1.flatMap Piece.events).map Event.bare = events ∧
        (traceFrom o lastClose opened position s).2 = []

theorem reads_nil (o : Options) : Reads o [] [] [] := by
  rintro lastClose position opened hnames - -
  obtain rfl := List.map_eq_nil_iff.1 hnames
  rw [traceFrom]
  exact ⟨rfl, rfl⟩

theorem Takes.reads {o : Options} {names after : List String} {s rest : List Char}
    {taken events : List BareEvent} (h : Takes o names s taken after rest) (hs : s ≠ [])
    (hrest : Reads o after rest events) : Reads o names s (taken ++ events) := by
  intro lastClose position opened hnames hnamed hcloses
  obtain ⟨htaken, hafter, hleft⟩ := h lastClose position opened hnames hnamed hcloses
  have hopened : Named (step o lastClose opened position s).opened :=
    (isBalanced_step o hnamed position lastClose s).named hnamed
  have hright : ClosesBy lastClose
      (position + extent (step o lastClose opened position s).source) rest := by
    rw [← step_append o lastClose opened position s, hleft] at hcloses
    exact hcloses.right
  obtain ⟨hevents, hfinal⟩ := hrest lastClose _ _ hafter hopened hright
  rw [traceFrom, dif_neg hs]
  simp only [hleft]
  refine ⟨?_, hfinal⟩
  rw [List.flatMap_append, List.map_append, htaken, hevents]

theorem reads_text {o : Options} {names : List String} (hreads : o.ReadsMarkup names)
    (s : List Char) {rest : List Char} (hrest : Settled rest) {events : List BareEvent}
    (h : Reads o names rest events) :
    Reads o names (encoded s ++ rest) (textEvents s ++ events) := by
  unfold textEvents
  split
  · next hs =>
    subst hs
    exact h
  · next hs =>
    have hrun : encoded s ≠ [] := by simpa using hs
    exact (takes_text hreads hrun (not_mem_encoded (.inl rfl) s) hrest).reads (by simp [hs]) h

theorem reads_opening {o : Options} {names : List String} {name : String}
    {attributes : List (String × Option String)} (hopens : o.Opens names name attributes)
    {rest : List Char} {events : List BareEvent}
    (h : Reads o (if o.isVoid name then names else name :: names)
      (dropLineFeed (dropsFirstLineFeed name) rest) events) :
    Reads o names ((StartTag.rendered name attributes).source ++ rest)
      (.startTag name (attributes.map fun a => (a.1, a.2.getD "")) (o.isVoid name) :: events) :=
  (takes_opening hopens).reads (by simp [StartTag.source]) h

theorem dropLineFeed_append (drop : Bool) {s : List Char} (hs : s ≠ []) (rest : List Char) :
    dropLineFeed drop (s ++ rest) = dropLineFeed drop s ++ rest := by
  obtain ⟨c, s, rfl⟩ := List.exists_cons_of_ne_nil hs
  by_cases hc : c = '\n'
  · subst hc
    cases drop <;> rfl
  · rw [List.cons_append, dropLineFeed_of_ne hc, dropLineFeed_of_ne hc, List.cons_append]

/-- A line feed is lost from text only, not from the markup that follows it. -/
theorem dropLineFeed_encoded_append {c : Char} (hc : c ≠ '\n') (drop : Bool) (s rest : List Char) :
    dropLineFeed drop (encoded s ++ c :: rest) = encoded (dropLineFeed drop s) ++ c :: rest := by
  by_cases hs : s = []
  · subst hs
    cases drop <;> exact dropLineFeed_of_ne hc _ _
  · rw [dropLineFeed_append drop (by simpa using hs), dropLineFeed_encoded]

theorem dropLineFeeds_toNat (drop : Bool) (s : List Char) :
    dropLineFeeds drop.toNat s = dropLineFeed drop s := by
  cases drop with
  | true => rfl
  | false => simp [dropLineFeeds, dropLineFeed]

theorem dropLineFeeds_add (first second : Bool) (s : List Char) :
    dropLineFeeds (first.toNat + second.toNat) s = dropLineFeed second (dropLineFeed first s) := by
  rw [Nat.add_comm, dropLineFeeds, Function.iterate_add_apply]
  exact (dropLineFeeds_toNat second _).trans (congrArg _ (dropLineFeeds_toNat first s))

theorem dropLineFeeds_nil (n : Nat) : dropLineFeeds n [] = [] := by
  induction n with
  | zero => rfl
  | succ n ih =>
    rw [dropLineFeeds, Function.iterate_succ_apply', ← dropLineFeeds, ih]
    rfl

/-- Only text begins with a line feed. -/
theorem dropLineFeed_source {t : Token} (h : ∀ content, t ≠ .text content) (drop : Bool)
    (rest : List Char) : dropLineFeed drop (t.source ++ rest) = t.source ++ rest := by
  cases t with
  | text content => exact absurd rfl (h content)
  | opening name attributes => exact dropLineFeed_of_ne (c := '<') (by decide) _ _
  | closing name => exact dropLineFeed_of_ne (c := '<') (by decide) _ _
  | comment content => exact dropLineFeed_of_ne (c := '<') (by decide) _ _

theorem sourceOf_textTokens (content : String) (tokens : List Token) :
    sourceOf (textTokens content ++ tokens) = encoded content.toList ++ sourceOf tokens := by
  unfold textTokens
  split <;> simp_all [Token.source]

theorem bareEventsAfter_textTokens (o : Options) (lost : Nat) (content name : String)
    (tokens : List Token) :
    bareEventsAfter o lost (textTokens content ++ .closing name :: tokens) =
      textEvents (dropLineFeeds lost content.toList) ++
        .endTag name :: bareEventsAfter o 0 tokens := by
  unfold textTokens
  split
  · next hempty =>
    subst hempty
    simp [bareEventsAfter, dropLineFeeds_nil, textEvents]
  · simp [bareEventsAfter]

namespace Legible

variable {o : Options} {names : List String} {tokens : List Token}

theorem settled (h : Legible o names tokens) (hnext : ∀ more rest, tokens ≠ .text more :: rest) :
    Settled (sourceOf tokens) := by
  cases h with
  | nil => exact fun h => absurd rfl h
  | text => exact absurd rfl (hnext _ _)
  | comment => exact settled_comment _ _
  | opening hopens => exact settled_opening hopens.qualified hopens.plain _
  | closing hreads hname => exact settled_closing hname _
  | raw content hopens => exact settled_opening hopens.qualified hopens.plain _

/-- Legible tokens are read as what they are, also without a line feed that they begin with. -/
theorem reads (h : Legible o names tokens) (drop : Bool) :
    Reads o names (dropLineFeed drop (sourceOf tokens)) (bareEventsAfter o drop.toNat tokens) := by
  have hkept : ∀ s, dropLineFeed false s = s := fun s => by simp [dropLineFeed]
  induction h generalizing drop with
  | nil => cases drop <;> exact reads_nil o
  | text hreads hcontent hnext h ih =>
    have hrest := ih false
    rw [hkept] at hrest
    rw [sourceOf_cons, Token.source, dropLineFeed_append drop (by simpa using hcontent),
      dropLineFeed_encoded, bareEventsAfter, dropLineFeeds_toNat]
    exact reads_text hreads _ (h.settled hnext) hrest
  | comment hreads hcontent h ih =>
    have hrest := ih false
    rw [hkept] at hrest
    rw [sourceOf_cons, dropLineFeed_source (by simp), bareEventsAfter]
    exact (takes_comment hreads hcontent).reads (by simp [commentSource]) hrest
  | @opening names tokens name attributes hopens hmarkup h ih =>
    rw [sourceOf_cons, dropLineFeed_source (by simp), bareEventsAfter, Options.lostLineFeeds,
      hmarkup, Bool.false_and, Bool.toNat_false, Nat.add_zero]
    exact reads_opening hopens (ih (dropsFirstLineFeed name))
  | closing hreads hname h ih =>
    have hrest := ih false
    rw [hkept] at hrest
    rw [sourceOf_cons, dropLineFeed_source (by simp), bareEventsAfter]
    exact (takes_closing hreads hname).reads (by simp [endTagSource]) hrest
  | @raw names tokens name attributes content hopens hraw hfolded h ih =>
    have hrest := ih false
    rw [hkept] at hrest
    have hname : o.isVoid name = false ∧ o.isRawText name = true := by
      simpa [Options.opensRawText] using hraw
    have hcontent : dropLineFeed (dropsFirstLineFeed name)
          (sourceOf (textTokens content ++ .closing name :: tokens)) =
        encoded (dropLineFeed (dropsFirstLineFeed name) content.toList) ++
          (endTagSource name ++ sourceOf tokens) := by
      rw [sourceOf_textTokens]
      exact dropLineFeed_encoded_append (by decide) _ _ _
    rw [sourceOf_cons, dropLineFeed_source (by simp), bareEventsAfter, bareEventsAfter_textTokens,
      Options.lostLineFeeds, hraw, Bool.true_and, dropLineFeeds_add,
      List.append_cons (textEvents _)]
    apply reads_opening hopens
    rw [hcontent, if_neg (by simp [hname.1])]
    exact (takes_raw hname.2 hfolded _).reads (by simp [endTagSource]) hrest

/-- The markup of legible tokens is read as what they are. -/
theorem bare_parse (h : Legible o [] tokens) :
    (parse o (written tokens)).map Event.bare = bareEventsAfter o 0 tokens := by
  have hread := h.reads false
  have hkept : dropLineFeed false (sourceOf tokens) = sourceOf tokens := by simp [dropLineFeed]
  rw [hkept] at hread
  obtain ⟨hevents, hfinal⟩ := hread (lastClose (sourceOf tokens)) 0 [] rfl named_nil
    (closesBy_lastCloseFrom 0 none _)
  simpa [written, parse, trace, hfinal, closeAll] using hevents

end Legible

/-! ### Text that meets text -/

/-- Puts text before tokens; it becomes one with the text that they begin with. -/
def prependText (content : String) : List Token → List Token
  | .text more :: rest => .text (content ++ more) :: rest
  | tokens => textTokens content ++ tokens

/-- Tokens with each run of text as one token, without empty text. -/
def joinText : List Token → List Token
  | [] => []
  | .text content :: rest => prependText content (joinText rest)
  | t :: rest => t :: joinText rest

theorem sourceOf_prependText (content : String) (tokens : List Token) :
    sourceOf (prependText content tokens) = encoded content.toList ++ sourceOf tokens := by
  unfold prependText textTokens
  split
  · simp [Token.source]
  · split <;> simp_all [Token.source]

theorem written_joinText (tokens : List Token) : written (joinText tokens) = written tokens := by
  have hsource : sourceOf (joinText tokens) = sourceOf tokens := by
    induction tokens with
    | nil => rfl
    | cons t tokens ih =>
      cases t <;> simp [joinText, sourceOf_prependText, ih, Token.source]
  rw [written, hsource, written]

theorem Legible.prependText {o : Options} {names : List String} {tokens : List Token}
    (h : Legible o names tokens) (hreads : o.ReadsMarkup names) (content : String) :
    Legible o names (prependText content tokens) := by
  by_cases hempty : content = ""
  · subst hempty
    unfold Markup.prependText textTokens
    split
    · rwa [String.empty_append]
    · exact h
  · unfold Markup.prependText textTokens
    split
    · cases h with
      | text _ hcontent hnext h => exact .text hreads (by simp [hempty]) hnext h
    · next hnext =>
      rw [if_neg hempty]
      exact .text hreads hempty hnext h

end HtmlTemplate.Markup
