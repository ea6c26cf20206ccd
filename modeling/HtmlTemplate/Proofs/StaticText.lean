import HtmlTemplate.Proofs.Structure

/-!
# Static text comes back

Text is decoded when a template is read and encoded when it is rendered. An element that holds one
static text and nothing else is reported with that text when the rendered markup is read
(`texts_parse_render`), unless the text is changed on its way: a line feed at the beginning of some
elements is lost, and scripts are not decoded, so what is encoded in them stays encoded
(`texts_parse_render_changed`).
-/

namespace HtmlTemplate.Markup

/-- The texts that an element itself is reported with, from the events after its start tag; in it
are `depth` more elements open. -/
def ownTexts (depth : Nat) : List BareEvent → List String
  | [] => []
  | .startTag _ _ unary :: rest => ownTexts (if unary then depth else depth + 1) rest
  | .endTag _ :: rest => if depth = 0 then [] else ownTexts (depth - 1) rest
  | .text content :: rest => (if depth = 0 then [content] else []) ++ ownTexts depth rest
  | .comment _ :: rest => ownTexts depth rest
  | .warning _ :: rest => ownTexts depth rest

/-- The elements that are reported, in the order of their start tags, with their own texts. -/
def elementTexts : List BareEvent → List (String × List String)
  | [] => []
  | .startTag name _ unary :: rest =>
    (name, if unary then [] else ownTexts 0 rest) :: elementTexts rest
  | .endTag _ :: rest => elementTexts rest
  | .text _ :: rest => elementTexts rest
  | .comment _ :: rest => elementTexts rest
  | .warning _ :: rest => elementTexts rest

theorem elementTexts_textEvents_append (s : List Char) (events : List BareEvent) :
    elementTexts (textEvents s ++ events) = elementTexts events := by
  unfold textEvents
  split <;> rfl

theorem ownTexts_textEvents_endTag (s : List Char) (name : String) (rest : List BareEvent) :
    ownTexts 0 (textEvents s ++ .endTag name :: rest) =
      if s = [] then [] else [String.ofList (encoded s)] := by
  unfold textEvents
  split <;> rfl

section

variable (o : Options) (lost : Nat)

/-- Text at the beginning, whole or not, belongs to none of the elements that follow. -/
theorem elementTexts_bareEventsAfter (tokens : List Token) :
    elementTexts (bareEventsAfter o lost tokens) = elementTexts (bareEventsAfter o 0 tokens) := by
  cases tokens with
  | nil => rfl
  | cons t tokens =>
    cases t with
    | text content => simp [bareEventsAfter, elementTexts_textEvents_append]
    | opening name attributes => rfl
    | closing name => rfl
    | comment content => rfl

theorem elementTexts_prependText (content : String) (tokens : List Token) :
    elementTexts (bareEventsAfter o lost (prependText content tokens)) =
      elementTexts (bareEventsAfter o 0 tokens) := by
  unfold prependText textTokens
  split
  · simp [bareEventsAfter, elementTexts_textEvents_append]
  · split
    · exact elementTexts_bareEventsAfter o lost tokens
    · simp [bareEventsAfter, elementTexts_textEvents_append]

theorem elementTexts_opening (name : String) (attributes : List (String × Option String))
    (tokens : List Token) :
    elementTexts (bareEventsAfter o lost (joinText (.opening name attributes :: tokens))) =
      (name, if o.isVoid name then []
        else ownTexts 0 (bareEventsAfter o (o.lostLineFeeds name) (joinText tokens))) ::
          elementTexts (bareEventsAfter o 0 (joinText tokens)) := by
  rw [← elementTexts_bareEventsAfter o (o.lostLineFeeds name)]
  rfl

theorem elementTexts_comment (content : String) (tokens : List Token) :
    elementTexts (bareEventsAfter o lost (.comment content :: tokens)) =
      elementTexts (bareEventsAfter o 0 tokens) := by
  rw [bareEventsAfter]
  split <;> rfl

end

/-! ### Line feeds at the beginning -/

theorem dropLineFeeds_of_head? {s : List Char} (h : s.head? ≠ some '\n') (n : Nat) :
    dropLineFeeds n s = s := by
  have hkept : dropLineFeed true s = s := by
    cases s with
    | nil => rfl
    | cons c s => exact dropLineFeed_of_ne (by simpa using h) true s
  induction n with
  | zero => rfl
  | succ n ih => rw [dropLineFeeds, Function.iterate_succ_apply, hkept, ← dropLineFeeds, ih]

theorem dropsFirstLineFeed_congr {name other : String}
    (h : other.toList.map Char.toLower = name.toList.map Char.toLower) :
    dropsFirstLineFeed other = dropsFirstLineFeed name := by
  simp only [dropsFirstLineFeed, isOneOfIgnoringCase, Text.eqIgnoringAsciiCase, h]

end HtmlTemplate.Markup

namespace HtmlTemplate.Template

open Markup
open Growth (keepsReferences)

/-- An element that drops no line feed after its start tag drops none at the beginning
of raw text. -/
theorem lostLineFeeds_web {name : String} (h : dropsFirstLineFeed name = false) :
    Options.web.markup.lostLineFeeds name = 0 := by
  unfold Markup.Options.lostLineFeeds
  rw [h]
  cases hraw : Options.web.markup.opensRawText name with
  | false => rfl
  | true =>
    have hname : hasRawText name = true := (Bool.and_eq_true _ _ ▸ hraw : _ ∧ _).2
    rw [dropsFirstLineFeed_congr (toLower_lowercase_of_hasRawText hname), h]
    rfl

/-! ### Texts that come back -/

/-- The text is not changed when it is rendered in an element of the name and read again. -/
structure SurvivesIn (name text : String) : Prop where
  lineFeed : dropsFirstLineFeed name = true → text.toList.head? ≠ some '\n'
  references : keepsReferences name = true → encodeText text = text

/-- What an element of the name is reported with as text. -/
def reportedText (name : String) (texts : List String) : String :=
  String.join (texts.map fun s => if keepsReferences name then s else decodeContent s)

/-- An element is reported with its name and, if one static text is all that it holds, with that. -/
structure Element.ComesBack (e : Element) (found : String × List String) : Prop where
  name : found.1 = e.head.name
  text : ∀ run, e.children = [.text run] → run.isStatic = true → e.head.keepsChildren = true →
    SurvivesIn e.head.name run.text → reportedText found.1 found.2 = run.text

/-- Of an element without content of its own only the name has to come back. -/
theorem Element.comesBack_of_not_keeps {head : Head} (h : head.keepsChildren = false)
    (children : List Node) (texts : List String) :
    Element.ComesBack ⟨head, children⟩ (head.name, texts) :=
  ⟨rfl, by simp [h]⟩

theorem SurvivesIn.dropLineFeeds {name text : String} (h : SurvivesIn name text) :
    Markup.dropLineFeeds (Options.web.markup.lostLineFeeds name) text.toList = text.toList := by
  cases hdrops : dropsFirstLineFeed name with
  | true => exact dropLineFeeds_of_head? (h.lineFeed hdrops) _
  | false => rw [lostLineFeeds_web hdrops]; rfl

theorem SurvivesIn.reportedText_eq {name text : String} (h : SurvivesIn name text) :
    reportedText name (if text.toList = [] then [] else [String.ofList (encoded text.toList)]) =
      text := by
  have hencoded : String.ofList (encoded text.toList) = encodeText text := rfl
  by_cases hempty : text.toList = []
  · rw [if_pos hempty, String.toList_eq_nil_iff.1 hempty]
    rfl
  · rw [if_neg hempty, hencoded, reportedText, List.map_singleton, String.join_cons,
      String.join_nil, String.append_empty]
    split
    · next hkeeps => exact h.references hkeeps
    · exact decodeContent_encodeText text

/-! ### Reading the tokens -/

section

variable {data : Json.Value} {head : Head} {children : List Node}

theorem comesBack_shownAll
    (h : ∀ n ∈ children, ∀ lost rest, ∃ found,
      List.Forall₂ Element.ComesBack (n.shown data) found ∧
        elementTexts (bareEventsAfter Options.web.markup lost (joinText (n.tokens data ++ rest))) =
          found ++ elementTexts (bareEventsAfter Options.web.markup 0 (joinText rest)))
    (lost : Nat) (rest : List Token) : ∃ found,
      List.Forall₂ Element.ComesBack (shownAll data children) found ∧
        elementTexts (bareEventsAfter Options.web.markup lost
          (joinText (tokensAll data children ++ rest))) =
            found ++ elementTexts (bareEventsAfter Options.web.markup 0 (joinText rest)) := by
  induction children generalizing lost with
  | nil => exact ⟨[], .nil, elementTexts_bareEventsAfter _ lost _⟩
  | cons n children ih =>
    obtain ⟨hn, hchildren⟩ := List.forall_mem_cons.1 h
    obtain ⟨found, hfound, htexts⟩ := hn lost (tokensAll data children ++ rest)
    obtain ⟨more, hmore, hrest⟩ := ih hchildren 0
    refine ⟨found ++ more, List.rel_append hfound hmore, ?_⟩
    rw [tokensAll, List.append_assoc, htexts, hrest, List.append_assoc]

/-- The text that an element is reported with if one static text is all that it holds. -/
theorem ownTexts_of_run {run : TextRun} (hwhole : run.Whole) (hstatic : run.isStatic = true)
    (hsurvives : SurvivesIn head.name run.text) (rest : List Token) :
    reportedText head.name (ownTexts 0 (bareEventsAfter Options.web.markup
      (Options.web.markup.lostLineFeeds head.name)
      (joinText (tokensAll data [.text run] ++ .closing head.name :: rest)))) = run.text := by
  have htokens : joinText (tokensAll data [.text run] ++ .closing head.name :: rest) =
      textTokens run.text ++ .closing head.name :: joinText rest := by
    have hjoin := joinText_texts [run.text] head.name rest
    rw [String.join_cons, String.join_nil, String.append_empty] at hjoin
    rw [← hjoin, ← hwhole hstatic data]
    rfl
  rw [htokens, bareEventsAfter_textTokens, hsurvives.dropLineFeeds, ownTexts_textEvents_endTag]
  exact hsurvives.reportedText_eq

end

/-- Each element that stands under the data comes back, in the order of the start tags. -/
theorem Node.comesBack (data : Json.Value) {n : Node} (hread : n.Read Options.web.markup)
    (hregular : ∀ e ∈ n.shown data, e.head.Regular) (lost : Nat) (rest : List Token) :
    ∃ found, List.Forall₂ Element.ComesBack (n.shown data) found ∧
      elementTexts (bareEventsAfter Options.web.markup lost (joinText (n.tokens data ++ rest))) =
        found ++ elementTexts (bareEventsAfter Options.web.markup 0 (joinText rest)) := by
  induction n using Node.induction generalizing lost rest with
  | text run => exact ⟨[], .nil, elementTexts_prependText _ lost _ _⟩
  | comment content span => exact ⟨[], .nil, elementTexts_comment _ lost _ _⟩
  | element head children ih =>
    by_cases hstands : head.stands data = true
    · have hself := hread _ List.mem_cons_self
      have hhead : head.Regular := hregular _ (mem_shown_self hstands children)
      have hchildren : head.keepsChildren = true → ∀ lost rest, ∃ found,
          List.Forall₂ Element.ComesBack (shownAll data children) found ∧ _ := fun hkeeps =>
        comesBack_shownAll fun n hn => ih n hn
          (fun e he => hread e (mem_elements_children hn he))
          fun e he => hregular e (mem_shown_children hstands hkeeps hn he)
      rw [tokens, shown, if_pos hstands, if_pos hstands, Head.tokens, List.cons_append,
        elementTexts_opening]
      cases hsupplier : head.supplier? with
      | some d =>
        have hkeeps : head.keepsChildren = false := by simp [Head.keepsChildren, hsupplier]
        simp only [hkeeps, Bool.false_eq_true, if_false]
        exact ⟨[_], .cons (Element.comesBack_of_not_keeps hkeeps children _) .nil,
          congrArg (List.cons _) (elementTexts_prependText _ 0 _ _)⟩
      | none =>
        cases hunary : head.unary with
        | true =>
          have hkeeps : head.keepsChildren = false := by simp [Head.keepsChildren, hunary]
          simp only [hkeeps, Bool.false_eq_true, if_false, if_true, List.nil_append]
          exact ⟨[_], .cons (Element.comesBack_of_not_keeps hkeeps children _) .nil, rfl⟩
        | false =>
          have hkeeps := Head.keepsChildren_of hsupplier hunary
          have hvoid : Options.web.markup.isVoid head.name = false := by
            rw [Bool.eq_false_iff]
            intro h
            rw [(hhead.isVoid_iff.1 h).1] at hunary
            cases hunary
          simp only [hkeeps, hvoid, Bool.false_eq_true, if_false, if_true, List.append_assoc]
          obtain ⟨found, hfound, htexts⟩ := hchildren hkeeps 0 (.closing head.name :: rest)
          refine ⟨(head.name, _) :: found, .cons ⟨rfl, ?_⟩ hfound, congrArg (List.cons _) htexts⟩
          rintro run rfl hstatic - hsurvives
          exact ownTexts_of_run (hself.children _ List.mem_cons_self) hstatic hsurvives rest
    · rw [tokens, shown, if_neg hstands, if_neg hstands]
      exact ⟨[], .nil, elementTexts_comment _ lost _ _⟩

/-! ### What a template renders -/

/-- Reading what a template renders gives each rendered element back in its place, and with its text
if it holds one static text and nothing else, provided that the text is none that is changed on its
way. All code of the template gives procedures, and the elements that stand can be read back. The
number of bytes in a text fits 64 bits. -/
theorem texts_parse_render {template : String}
    (hsize : Text.extent template.toList ≤ Json.maxSignificand)
    (herrors : (Compiler.web.compile {} template).errors = [])
    (hbuilt : (Compiler.web.compile {} template).failed = []) {data : Json.Value}
    (hregular : (Compiler.web.compile {} template).Regular data) {html : String}
    (hhtml : (Compiler.web.compile {} template).functions.render data = .ok html) :
    List.Forall₂ Element.ComesBack ((Compiler.web.compile {} template).shown data)
      (elementTexts ((parse Options.web.markup html).map Event.bare)) := by
  obtain ⟨hrender, hlegible⟩ := legible_render herrors hsize hbuilt hregular
  rw [hrender, Except.ok.injEq] at hhtml
  subst hhtml
  rw [← written_joinText, hlegible.bare_parse]
  unfold Compiled.tokens Compiled.shown
  cases hroot : (Compiler.web.compile {} template).tree with
  | none => exact .nil
  | some root =>
    obtain ⟨found, hfound, htexts⟩ := Node.comesBack data (read_compiled_tree herrors hroot)
      (Compiled.shown_eq hroot data ▸ hregular) 0 []
    have hend : elementTexts (bareEventsAfter Options.web.markup 0 (joinText [])) = [] := rfl
    rw [List.append_nil, hend, List.append_nil] at htexts
    simpa [htexts] using hfound

/-- Text with a reference, a script, an element that drops a line feed, and one whose condition does
not hold and which could not be read back. -/
def sampleTexts : String :=
  "<div><p>&lt;b&amp;gt;</p><script type=\"x\">a</script><pre>\n x </pre><i v-if=\"no\"/></div>"

theorem texts_parse_render_sample :
    let compiled := Compiler.web.compile {} sampleTexts
    compiled.errors = [] ∧ compiled.failed = [] ∧ compiled.Regular .null ∧
      (compiled.shown .null).map (fun e => e.head.name) = ["div", "p", "script", "pre"] ∧
      ∃ html, compiled.functions.render .null = .ok html ∧
        List.Forall₂ Element.ComesBack (compiled.shown .null)
          (elementTexts ((parse Options.web.markup html).map Event.bare)) := by
  intro compiled
  have hsize : Text.extent sampleTexts.toList ≤ Json.maxSignificand := by decide +kernel
  obtain ⟨herrors, hbuilt, hregular, hshown⟩ : compiled.errors = [] ∧ compiled.failed = [] ∧
      compiled.Regular .null ∧
      (compiled.shown .null).map (fun e => e.head.name) = ["div", "p", "script", "pre"] := by
    decide +kernel
  obtain ⟨html, hhtml⟩ := exists_render_of_clean rfl
    (fun _ hroot => (clean_of_errors_eq_nil rfl hsize herrors hroot).2) .null
  exact ⟨herrors, hbuilt, hregular, hshown, html, hhtml,
    texts_parse_render hsize herrors hbuilt hregular hhtml⟩

/-- Markup that a directive takes from the data may swallow the elements after it. So may a name
from the data, which is written as it is where a value is encoded; what is encoded in a script stays
encoded, and a line feed at the beginning of a preformatted element is lost. -/
theorem texts_parse_render_changed :
    let markup := Compiler.web.compile {} "<div><b v-html=\"h\"></b><p>t</p></div>"
    let named := Compiler.web.compile {} "<div :[n]=\"m\"><p>t</p></div>"
    let script := Compiler.web.compile {} "<div><script type=\"x\">a < b</script></div>"
    let block := Compiler.web.compile {} "<pre>\n\nx</pre>"
    let texts (c : Compiled) := (c.shown .null).map fun e =>
      (e.head.name, e.children.map fun | .text run => run.text | _ => "")
    let read (html : String) := elementTexts ((parse Options.web.markup html).map Event.bare)
    (markup.errors = [] ∧ texts markup = [("div", ["", ""]), ("b", []), ("p", ["t"])] ∧
      markup.functions.render (.object [("h", .string "<textarea>")]) =
        .ok "<div><b><textarea></b><p>t</p></div>" ∧
      read "<div><b><textarea></b><p>t</p></div>" =
        [("div", []), ("b", []), ("textarea", ["</b><p>t</p></div>"])]) ∧
    (named.errors = [] ∧ texts named = [("div", [""]), ("p", ["t"])] ∧
      named.functions.render (.object [("m", .string "v"), ("n", .string "><textarea x")]) =
        .ok "<div ><textarea x=\"v\"><p>t</p></div>" ∧
      read "<div ><textarea x=\"v\"><p>t</p></div>" =
        [("div", []), ("textarea", ["<p>t</p></div>"])]) ∧
    (script.errors = [] ∧ texts script = [("div", [""]), ("script", ["a < b"])] ∧
      script.functions.render .null =
        .ok "<div><script type=\"x\">a &lt; b</script></div>" ∧
      read "<div><script type=\"x\">a &lt; b</script></div>" =
        [("div", []), ("script", ["a &lt; b"])]) ∧
    block.errors = [] ∧ texts block = [("pre", ["\nx"])] ∧
      block.functions.render .null = .ok "<pre>\nx</pre>" ∧
      read "<pre>\nx</pre>" = [("pre", ["x"])] := by
  decide +kernel

end HtmlTemplate.Template
