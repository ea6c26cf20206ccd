import HtmlTemplate.Proofs.Evaluation
import HtmlTemplate.Proofs.Rendering
import HtmlTemplate.Proofs.Tokens

/-!
# Parsing undoes rendering

Texts and values of attributes come from data, and whatever they are they add no markup: the code
for a tree of elements, texts and comments renders markup of which parsing reports exactly the tree
(`parse_render_content`). Texts are told apart by what stands between them only, so texts that meet
are reported as one.
-/

namespace HtmlTemplate.Code

open Markup

/-! ### Content and its code -/

/-- A text with code that gives it under the data. -/
structure Supplied (data : Json.Value) where
  value : String
  code : Expr
  evaluates : ∀ callStatic, Evaluates data callStatic code (.data (.string value))

/-- A text that stands in the code. -/
def Supplied.literal {data : Json.Value} (s : String) : Supplied data :=
  ⟨s, .literal (.string s), fun _ => rfl⟩

/-- A text that a path of the data leads to. -/
def Supplied.path {data : Json.Value} (segments : List String) (s : String)
    (h : lookup data segments = .string s) : Supplied data :=
  ⟨s, .path segments, fun _ => by rw [Evaluates, Expr.eval, h]⟩

/-- What code may render without any markup of its own. -/
inductive Content (data : Json.Value) where
  | element (name : Supplied data) (attributes : List (Supplied data × Supplied data))
      (children : List (Content data))
  | text (content : Supplied data)
  | comment (content : Supplied data)

namespace Content

variable {data : Json.Value} (isVoid : NameTest)

/-- The code for the attributes of an element. -/
def attributesExpr (attributes : List (Supplied data × Supplied data)) : Expr :=
  .array (attributes.map fun a => .call "_a" [a.1.code, a.2.code] 0)

mutual

/-- The code for content: void elements have no third argument. -/
def expr : Content data → Expr
  | .element name attributes children =>
    if isVoid name.value then .call "_c" [name.code, attributesExpr attributes] 0
    else .call "_c" [name.code, attributesExpr attributes, .array (exprs children)] 0
  | .text content => .call "_v" [content.code] 0
  | .comment content => .call "_cm" [content.code] 0

def exprs : List (Content data) → List Expr
  | [] => []
  | c :: rest => c.expr :: exprs rest

end

mutual

/-- Content in document order, with every text on its own. -/
def events : Content data → List BareEvent
  | .element name attributes children =>
    .startTag name.value (attributes.map fun a => (a.1.value, a.2.value)) (isVoid name.value) ::
      if isVoid name.value then [] else eventsAll children ++ [.endTag name.value]
  | .text content => [.text content.value]
  | .comment content => [.comment content.value]

def eventsAll : List (Content data) → List BareEvent
  | [] => []
  | c :: rest => c.events ++ eventsAll rest

end

/-- The name of an attribute has none of the characters that end one, and no bracket. -/
def IsAttributeName (name : String) : Prop :=
  name ≠ "" ∧ ∀ c ∈ name.toList, isAttributeNamePart c = true ∧ c ≠ '['

/-- Names and comments are such that markup can tell them from what follows, and no element is one
that loses a line feed. -/
inductive Proper : Content data → Prop where
  | element {name : Supplied data} {attributes : List (Supplied data × Supplied data)}
      {children : List (Content data)} (hname : isQualifiedName name.value.toList = true)
      (hkeeps : dropsFirstLineFeed name.value = false)
      (hattributes : ∀ a ∈ attributes, IsAttributeName a.1.value)
      (hchildren : ∀ c ∈ children, Proper c) : Proper (.element name attributes children)
  | text (content : Supplied data) : Proper (.text content)
  | comment {content : Supplied data} (hcontent : IsCommentText content.value) :
      Proper (.comment content)

end Content

end HtmlTemplate.Code

namespace HtmlTemplate.Markup

/-- Puts text before events; it becomes one with the text that they begin with. -/
def prependTextEvent (content : String) : List BareEvent → List BareEvent
  | .text more :: rest => .text (content ++ more) :: rest
  | events => if content = "" then events else .text content :: events

/-- Events with each run of text as one event, without empty text. -/
def joinTextEvents : List BareEvent → List BareEvent
  | [] => []
  | .text content :: rest => prependTextEvent content (joinTextEvents rest)
  | e :: rest => e :: joinTextEvents rest

/-- An event with the references in its text decoded. -/
def BareEvent.decoded : BareEvent → BareEvent
  | .text content => .text (decodeContent content)
  | e => e

/-- What a token reports when it is read as what it is. -/
def Token.event (isVoid : NameTest) : Token → BareEvent
  | .opening name attributes =>
    .startTag name (attributes.map fun a => (a.1, a.2.getD "")) (isVoid name)
  | .closing name => .endTag name
  | .text content => .text content
  | .comment content => .comment content

theorem map_event_prependText (isVoid : NameTest) (content : String) (tokens : List Token) :
    (prependText content tokens).map (Token.event isVoid) =
      prependTextEvent content (tokens.map (Token.event isVoid)) := by
  match tokens with
  | [] =>
    simp only [prependText, prependTextEvent, textTokens, List.map_nil]
    split <;> rfl
  | .text more :: rest => rfl
  | .opening name attributes :: rest =>
    simp only [prependText, prependTextEvent, textTokens, List.map_cons, Token.event]
    split <;> rfl
  | .closing name :: rest =>
    simp only [prependText, prependTextEvent, textTokens, List.map_cons, Token.event]
    split <;> rfl
  | .comment more :: rest =>
    simp only [prependText, prependTextEvent, textTokens, List.map_cons, Token.event]
    split <;> rfl

theorem map_event_joinText (isVoid : NameTest) (tokens : List Token) :
    (joinText tokens).map (Token.event isVoid) =
      joinTextEvents (tokens.map (Token.event isVoid)) := by
  induction tokens with
  | nil => rfl
  | cons t tokens ih =>
    cases t with
    | text content => rw [joinText, map_event_prependText, ih]; rfl
    | opening name attributes => simp [joinText, joinTextEvents, Token.event, ih]
    | closing name => simp [joinText, joinTextEvents, Token.event, ih]
    | comment content => simp [joinText, joinTextEvents, Token.event, ih]

/-- The token does not make the text after it lose a line feed. -/
def Token.KeepsText : Token → Prop
  | .opening name _ => dropsFirstLineFeed name = false
  | _ => True

theorem keepsText_joinText {tokens : List Token} (h : ∀ t ∈ tokens, t.KeepsText) :
    ∀ t ∈ joinText tokens, t.KeepsText := by
  induction tokens with
  | nil => exact h
  | cons t tokens ih =>
    obtain ⟨ht, htokens⟩ := List.forall_mem_cons.1 h
    have hrest := ih htokens
    cases t with
    | text content =>
      unfold joinText prependText textTokens
      split
      · next heq =>
        rw [heq] at hrest
        exact List.forall_mem_cons.2 ⟨trivial, (List.forall_mem_cons.1 hrest).2⟩
      · split
        · exact hrest
        · exact List.forall_mem_cons.2 ⟨trivial, hrest⟩
    | opening name attributes => exact List.forall_mem_cons.2 ⟨ht, hrest⟩
    | closing name => exact List.forall_mem_cons.2 ⟨ht, hrest⟩
    | comment content => exact List.forall_mem_cons.2 ⟨ht, hrest⟩

/-- Without raw text and lost line feeds, decoding the text gives each token back. -/
theorem Legible.decoded_events {o : Options} (hraw : ∀ name, o.isRawText name = false)
    (hcomments : o.keepComments = true) {names : List String} {tokens : List Token}
    (h : Legible o names tokens) (hkeeps : ∀ t ∈ tokens, t.KeepsText) :
    (bareEventsAfter o 0 tokens).map BareEvent.decoded = tokens.map (Token.event o.isVoid) := by
  induction h with
  | nil => rfl
  | @text names tokens content hreads hcontent hnext h ih =>
    have hdecoded : decodeContent (String.ofList (encoded content.toList)) = content :=
      decodeContent_encodeText content
    have hrest := ih (List.forall_mem_cons.1 hkeeps).2
    simp [bareEventsAfter, dropLineFeeds, textEvents, hcontent, BareEvent.decoded, hdecoded,
      Token.event, hrest]
  | comment hreads hcontent h ih =>
    simp [bareEventsAfter, hcomments, BareEvent.decoded, Token.event,
      ih (List.forall_mem_cons.1 hkeeps).2]
  | @opening names tokens name attributes hopens hmarkup h ih =>
    obtain ⟨hname, htokens⟩ := List.forall_mem_cons.1 hkeeps
    have hlost : o.lostLineFeeds name = 0 := by
      simp [Options.lostLineFeeds, hmarkup, show dropsFirstLineFeed name = false from hname]
    simp [bareEventsAfter, hlost, BareEvent.decoded, Token.event, ih htokens]
  | closing hreads hname h ih =>
    simp [bareEventsAfter, BareEvent.decoded, Token.event, ih (List.forall_mem_cons.1 hkeeps).2]
  | raw content hopens hname => simp [Options.opensRawText, hraw] at hname

end HtmlTemplate.Markup

namespace HtmlTemplate.Code.Content

open Markup

variable {data : Json.Value} (isVoid : NameTest)

mutual

/-- What content is written with. -/
def tokens : Content data → List Token
  | .element name attributes children =>
    .opening name.value (attributes.map fun a => (a.1.value, some a.2.value)) ::
      if isVoid name.value then [] else tokensAll children ++ [.closing name.value]
  | .text content => [.text content.value]
  | .comment content => [.comment content.value]

def tokensAll : List (Content data) → List Token
  | [] => []
  | c :: rest => c.tokens ++ tokensAll rest

end

mutual

theorem events_eq (c : Content data) : c.events isVoid = (c.tokens isVoid).map (Token.event isVoid) := by
  match c with
  | .element name attributes children =>
    have hchildren := eventsAll_eq children
    simp only [events, tokens, List.map_cons, Token.event, List.map_map, Function.comp_def,
      Option.getD_some]
    split <;> simp [hchildren, Token.event]
  | .text content => rfl
  | .comment content => rfl

theorem eventsAll_eq (children : List (Content data)) :
    eventsAll isVoid children = (tokensAll isVoid children).map (Token.event isVoid) := by
  match children with
  | [] => rfl
  | c :: rest => rw [eventsAll, tokensAll, List.map_append, events_eq c, eventsAll_eq rest]

end

/-! ### Reading the markup -/

theorem tokensAll_append_legible {o : Options} {children : List (Content data)}
    (h : ∀ c ∈ children, ∀ {names rest}, Legible o names (joinText rest) →
      Legible o names (joinText (c.tokens o.isVoid ++ rest)))
    {names : List String} {rest : List Token} (hrest : Legible o names (joinText rest)) :
    Legible o names (joinText (tokensAll o.isVoid children ++ rest)) := by
  induction children with
  | nil => exact hrest
  | cons c children ih =>
    obtain ⟨hc, hchildren⟩ := List.forall_mem_cons.1 h
    rw [tokensAll, List.append_assoc]
    exact hc (ih hchildren)

section

variable {o : Options} (himplicit : o.implicitClose = false)
  (hraw : ∀ name, o.isRawText name = false)
include himplicit hraw

theorem Proper.legible {c : Content data} (h : c.Proper) {names : List String} {rest : List Token}
    (hrest : Legible o names (joinText rest)) :
    Legible o names (joinText (c.tokens o.isVoid ++ rest)) := by
  have hreads : ∀ names, o.ReadsMarkup names := fun names name _ => hraw name
  induction h generalizing names rest with
  | text content =>
    exact hrest.prependText (hreads names) content.value
  | comment hcontent =>
    exact .comment (hreads names) hcontent hrest
  | @element name attributes children hname hkeeps hattributes hchildren ih =>
    have hopens : o.Opens names name.value (attributes.map fun a => (a.1.value, some a.2.value)) :=
      { readsMarkup := hreads names
        qualified := hname
        plain := List.forall_mem_map.2 fun a ha =>
          isPlainName_of_not_mem (by simpa using (hattributes a ha).1) (hattributes a ha).2
        staysOpen := fun h => by simp [himplicit] at h }
    have hmarkup : o.opensRawText name.value = false := by simp [Options.opensRawText, hraw]
    rw [tokens, List.cons_append, joinText]
    refine .opening hopens hmarkup ?_
    split
    · exact hrest
    · rw [List.append_assoc]
      exact tokensAll_append_legible ih (.closing (hraw _) hname hrest)
    · simp

end

theorem Proper.keepsText {c : Content data} (h : c.Proper) : ∀ t ∈ c.tokens isVoid, t.KeepsText := by
  induction h with
  | text content => simp [tokens, Token.KeepsText]
  | comment hcontent => simp [tokens, Token.KeepsText]
  | @element name attributes children hname hkeeps hattributes hchildren ih =>
    have hall : ∀ {children : List (Content data)},
        (∀ c ∈ children, ∀ t ∈ c.tokens isVoid, t.KeepsText) →
          ∀ t ∈ tokensAll isVoid children, t.KeepsText := by
      intro children h
      induction children with
      | nil => simp [tokensAll]
      | cons c children ih =>
        obtain ⟨hc, hrest⟩ := List.forall_mem_cons.1 h
        rw [tokensAll, List.forall_mem_append]
        exact ⟨hc, ih hrest⟩
    rw [tokens, List.forall_mem_cons]
    refine ⟨hkeeps, ?_⟩
    split
    · simp
    · rw [List.forall_mem_append]
      exact ⟨hall ih, by simp [Token.KeepsText]⟩

/-! ### Evaluating the code -/

theorem join_written (children : List (Content data)) :
    String.join (children.map fun c => written (c.tokens isVoid)) =
      written (tokensAll isVoid children) := by
  induction children with
  | nil => rfl
  | cons c children ih => rw [List.map_cons, String.join_cons, ih, tokensAll, written_append]

section

variable (callStatic : Nat → Except RenderFailure String)

theorem evaluates_attributesExpr (attributes : List (Supplied data × Supplied data)) :
    Evaluates data callStatic (attributesExpr attributes)
      (.list ((attributes.map fun a => some (writtenAttribute (a.1.value, some a.2.value))).map
        .attribute)) := by
  rw [List.map_map]
  apply Expr.eval_array
  rw [List.forall₂_map_left_iff, List.forall₂_map_right_iff, List.forall₂_same]
  intro a _
  have hcall := Expr.eval_call "_a" .attribute rfl (by decide)
    (.cons (a.1.evaluates callStatic) (.cons (a.2.evaluates callStatic) .nil))
  refine hcall.trans ?_
  simp [applyHelper, writeAttribute, writtenAttribute, String.append_assoc]

theorem join_writtenAttributes (attributes : List (Supplied data × Supplied data)) :
    String.join ((attributes.map fun a => some (writtenAttribute (a.1.value, some a.2.value))).map
      fun w => w.getD "") =
    String.join ((attributes.map fun a => (a.1.value, some a.2.value)).map writtenAttribute) := by
  simp [Function.comp_def]

mutual

theorem evaluates_expr (c : Content data) :
    Evaluates data callStatic (c.expr isVoid) (.markup (written (c.tokens isVoid))) := by
  match c with
  | .element name attributes children =>
    have hname := name.evaluates callStatic
    have hattributes := evaluates_attributesExpr callStatic attributes
    rw [expr, tokens, written_cons, written_opening]
    split
    · have hcall := Expr.eval_call "_c" .element rfl (by decide) (.cons hname (.cons hattributes .nil))
      refine hcall.trans ?_
      simp only [applyHelper, writeElement, List.head?_nil, Template.mapM_attributeText,
        join_writtenAttributes, Result.display_string, written_nil, String.append_empty]
    · have hchildren := Expr.eval_array (evaluates_exprs children)
      have hcall := Expr.eval_call "_c" .element rfl (by decide)
        (.cons hname (.cons hattributes (.cons hchildren .nil)))
      refine hcall.trans ?_
      simp only [applyHelper, writeElement, List.head?_cons, Template.mapM_attributeText,
        Template.mapM_childText, join_writtenAttributes, Result.display_string, written_append,
        written_closing, join_written, String.append_assoc]
  | .text content =>
    have hcall := Expr.eval_call "_v" .text rfl (by decide) (.cons (content.evaluates callStatic) .nil)
    refine hcall.trans ?_
    simp only [applyHelper, Result.display_string, tokens, written_text]
  | .comment content =>
    have hcall := Expr.eval_call "_cm" .comment rfl (by decide)
      (.cons (content.evaluates callStatic) .nil)
    refine hcall.trans ?_
    simp only [applyHelper, Result.display_string, tokens, written_comment]

theorem evaluates_exprs (children : List (Content data)) :
    List.Forall₂ (Evaluates data callStatic) (exprs isVoid children)
      ((children.map fun c => written (c.tokens isVoid)).map .markup) := by
  match children with
  | [] => exact .nil
  | c :: rest => exact .cons (evaluates_expr c) (evaluates_exprs rest)

end

end

end HtmlTemplate.Code.Content

namespace HtmlTemplate.Markup

open HtmlTemplate.Code

/-- Parsing undoes rendering. The code of content renders, and whatever the texts in it are, parsing
its markup reports the content in document order and nothing else, with the values of attributes as
they were and with texts, once decoded, as they were, up to joining texts that meet. -/
theorem parse_render_content (o : Options) (himplicit : o.implicitClose = false)
    (hraw : ∀ name, o.isRawText name = false) (hcomments : o.keepComments = true)
    {data : Json.Value} {c : Content data} (hproper : c.Proper) {e : Expr}
    (hcode : e.bare = (c.expr o.isVoid).bare) (callStatic : Nat → Except RenderFailure String) :
    ∃ html, e.render data callStatic = .ok html ∧
      (parse o html).map (fun event => event.bare.decoded) =
        joinTextEvents (c.events o.isVoid) := by
  refine ⟨written (c.tokens o.isVoid), ?_, ?_⟩
  · rw [← Expr.render_bare, hcode, Expr.render_bare]
    exact Expr.render_of_evaluates (c.evaluates_expr o.isVoid callStatic)
  · have hlegible : Legible o [] (joinText (c.tokens o.isVoid ++ [])) :=
      hproper.legible himplicit hraw .nil
    rw [List.append_nil] at hlegible
    have hkeeps := keepsText_joinText (hproper.keepsText o.isVoid)
    rw [← written_joinText, ← Function.comp_def, ← List.map_map, hlegible.bare_parse,
      hlegible.decoded_events hraw hcomments hkeeps, map_event_joinText, c.events_eq]

/-- Data with markup in a text. -/
def markupData : Json.Value := .object [("m", .string "</p><b x=\"&lt;\">")]

/-- A paragraph whose texts and values look like markup. -/
def markupContent : Content markupData :=
  .element (.literal "p") [(.literal "title", .path ["m"] "</p><b x=\"&lt;\">" rfl)]
    [.text (.path ["m"] "</p><b x=\"&lt;\">" rfl), .text (.literal "&amp;"), .text (.literal ""),
      .comment (.literal "<br>"), .element (.literal "br") [] []]

theorem parse_render_content_markup :
    ∃ html, (markupContent.expr isVoidElement).render markupData
        (fun index => .error (.missingStatic index)) = .ok html ∧
      (parse { Options.plain with
          isVoid := isVoidElement, isRawText := NameTest.none, keepComments := true } html).map
        (fun event => event.bare.decoded) =
          [.startTag "p" [("title", "</p><b x=\"&lt;\">")] false, .text "</p><b x=\"&lt;\">&amp;",
            .comment "<br>", .startTag "br" [] true, .endTag "p"] := by
  have hproper : markupContent.Proper := by
    have htitle : Content.IsAttributeName "title" := by
      refine ⟨by decide, fun c hc => ?_⟩
      have hchars : ("title".toList.all fun c => isAttributeNamePart c && c != '[') = true := by
        decide
      simpa using List.all_eq_true.1 hchars c hc
    refine .element (by decide) (by decide) (List.forall_mem_singleton.2 htitle) ?_
    simp only [List.forall_mem_cons, List.not_mem_nil, false_imp_iff, implies_true, and_true]
    exact ⟨.text _, .text _, .text _, .comment (by unfold IsCommentText; decide),
      .element (by decide) (by decide) (by simp) (by simp)⟩
  exact parse_render_content { Options.plain with
    isVoid := isVoidElement, isRawText := NameTest.none, keepComments := true } rfl (fun _ => rfl)
      rfl hproper rfl _

end HtmlTemplate.Markup
