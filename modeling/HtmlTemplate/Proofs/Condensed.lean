import HtmlTemplate.Proofs.Preformatted
import HtmlTemplate.Proofs.TextRuns

/-!
# Blanks outside preformatted elements

Outside preformatted elements a run of blanks is one space. It is left out at the beginning of an
element and after another space, and goes again at the end of the element. So the children of such
an element are condensed (`compile_condensed`): what is blank is one space, and no space stands at
either end or next to another one. The references `&#32;` and the like would bring other blanks in,
so the markup must have none.
-/

namespace HtmlTemplate.Markup

/-- Decoding changes nothing where no reference begins. -/
theorem decodeFrom_of_not_mem (read : ReferenceReader) (done : List Char) {s : List Char}
    (h : '&' ∉ s) : decodeFrom read done s = done.reverse ++ s := by
  induction s generalizing done with
  | nil => simp [decodeFrom]
  | cons c s ih =>
    rw [List.mem_cons, not_or] at h
    have hc : (c == '&') = false := beq_eq_false_iff_ne.2 (Ne.symm h.1)
    rw [decodeFrom, hc, if_neg Bool.false_ne_true, ih _ h.2]
    simp

theorem decodeContent_of_not_mem {s : String} (h : '&' ∉ s.toList) : decodeContent s = s := by
  rw [decodeContent, decodeFrom_of_not_mem _ _ h, List.reverse_nil, List.nil_append,
    String.ofList_toList]

end HtmlTemplate.Markup

namespace HtmlTemplate.Template

open Text Markup

/-- Text that is not blank, or one space. -/
def Node.BlankIsSpace (n : Node) : Prop :=
  ∀ text ∈ n.text?, allBlank text.1 = true → text.1 = " "

/-- Blanks are single spaces, which stand neither at an end nor next to each other. -/
structure Condensed (children : List Node) : Prop where
  blank : ∀ n ∈ children, n.BlankIsSpace
  apart : children.IsChain Apart
  first : ∀ n ∈ children.head?, Growth.isSpace n = false
  last : ∀ n ∈ children.getLast?, Growth.isSpace n = false

theorem condensed_nil : Condensed [] := ⟨by simp, .nil, by simp, by simp⟩

/-- The children of an open element, newest first: a space may still be the last of them. -/
structure Condensing (children : List Node) : Prop where
  blank : ∀ n ∈ children, n.BlankIsSpace
  apart : children.IsChain Apart
  first : ∀ n ∈ children.getLast?, Growth.isSpace n = false

theorem condensing_nil : Condensing [] := ⟨by simp, .nil, by simp⟩

theorem Condensing.add {children : List Node} (h : Condensing children) {n : Node}
    (hn : n.BlankIsSpace)
    (hapart : Growth.isSpace n = true →
      ∃ last older, children = last :: older ∧ Growth.isSpace last = false) :
    Condensing (n :: children) := by
  refine ⟨List.forall_mem_cons.2 ⟨hn, h.blank⟩, ?_, ?_⟩
  · refine List.isChain_cons.2 ⟨fun m hm => ?_, h.apart⟩
    cases hspace : Growth.isSpace n with
    | false => rw [Apart, hspace, Bool.false_and]
    | true =>
      obtain ⟨last, older, rfl, hlast⟩ := hapart hspace
      obtain rfl := Option.some.inj hm
      rw [Apart, hlast, Bool.and_false]
  · cases children with
    | nil =>
      intro m hm
      obtain rfl := Option.some.inj hm
      rw [Bool.eq_false_iff]
      intro hspace
      obtain ⟨last, older, hnil, -⟩ := hapart hspace
      cases hnil
    | cons last older => exact h.first

/-- An element or a comment may stand anywhere. -/
theorem Condensing.addOther {children : List Node} (h : Condensing children) {n : Node}
    (hn : n.text? = none) : Condensing (n :: children) := by
  refine h.add ?_ fun hspace => ?_
  · intro text htext
    rw [hn] at htext
    cases htext
  · cases n with
    | text run => cases hn
    | element head children => cases hspace
    | comment content span => cases hspace

theorem Condensing.addApart {children : List Node} (h : Condensing children) {n : Node}
    (hn : n.BlankIsSpace) (hfirst : children = [] → Growth.isSpace n = false) :
    Condensing (addApart children n) := by
  unfold Template.addApart
  split
  · exact h
  · next hadds =>
    refine h.add hn fun hspace => ?_
    cases children with
    | nil => rw [hfirst rfl] at hspace; cases hspace
    | cons last older =>
      refine ⟨last, older, rfl, ?_⟩
      simpa [hspace] using hadds

/-- Closing the element takes the spaces at its end away. -/
theorem Condensing.closed {children : List Node} (h : Condensing children) :
    Condensed (Growth.closedChildren false children) := by
  have hsuffix := List.dropWhile_suffix (l := children) Growth.isSpace
  rw [Growth.closedChildren, if_neg Bool.false_ne_true]
  refine ⟨?_, ?_, ?_, ?_⟩
  · intro n hn
    exact h.blank n (hsuffix.subset (List.mem_reverse.1 hn))
  · rw [List.isChain_reverse]
    refine (h.apart.suffix hsuffix).imp fun n m hapart => ?_
    rwa [Apart, Bool.and_comm]
  · rw [List.head?_reverse]
    intro n hn
    obtain ⟨spaces, hspaces⟩ := hsuffix
    apply h.first n
    rw [← hspaces, List.getLast?_append, hn]
    rfl
  · rw [List.getLast?_reverse]
    intro n hn
    have hhead := List.head?_dropWhile_not Growth.isSpace children
    rw [hn] at hhead
    simpa using hhead

theorem blankIsSpace_textNode {d : Delimiters} {text : String} {span : Option Span}
    (h : allBlank text = true → text = " ") : (textNode d text span).BlankIsSpace := by
  rintro _ ⟨⟩ hblank
  exact h hblank

theorem textFor_outside (frame : Frame) (content : String) :
    Growth.textFor false frame content =
      if allBlank content then if frame.children.isEmpty then none else some " "
      else some (decodedIn frame.head.name content) := by
  unfold Growth.textFor
  cases allBlank content <;> rfl

/-- A text event in an element that is not preformatted. -/
theorem Condensing.addContent {o : Options} {frame : Frame} (h : Condensing frame.children)
    {content : String} (hplain : '&' ∉ content.toList) (span : Option Span) :
    Condensing (frame.addContent o false content span).children := by
  have hdecoded : decodedIn frame.head.name content = content := by
    unfold decodedIn
    split
    · rfl
    · exact decodeContent_of_not_mem hplain
  rw [Frame.addContent, textFor_outside, hdecoded]
  cases hblank : allBlank content with
  | false =>
    rw [if_neg Bool.false_ne_true]
    dsimp only
    rw [Growth.addText_eq]
    refine h.addApart (blankIsSpace_textNode fun htrue => ?_) fun _ => ?_
    · rw [hblank] at htrue
      cases htrue
    · refine beq_eq_false_iff_ne.2 ?_
      rintro rfl
      rw [show allBlank " " = true by decide] at hblank
      cases hblank
  | true =>
    rw [if_pos rfl]
    cases hempty : frame.children.isEmpty with
    | true => exact h
    | false =>
      rw [if_neg Bool.false_ne_true]
      dsimp only
      rw [Growth.addText_eq]
      refine h.addApart (blankIsSpace_textNode fun _ => rfl) fun hnil => ?_
      rw [hnil] at hempty
      cases hempty

/-- No text among the events has a reference in it. -/
def PlainTexts (events : List Event) : Prop :=
  ∀ content span, .text content span ∈ events → '&' ∉ content.toList

theorem PlainTexts.mono {events part : List Event} (h : PlainTexts events) (hsub : part ⊆ events) :
    PlainTexts part :=
  fun content span hmem => h content span (hsub hmem)

theorem PlainTexts.tail {e : Event} {events : List Event} (h : PlainTexts (e :: events)) :
    PlainTexts events :=
  h.mono (List.subset_cons_self e events)

theorem PlainTexts.after_element {inner rest : List Event} {e e' : Event}
    (h : PlainTexts (e :: inner ++ e' :: rest)) : PlainTexts rest :=
  PlainTexts.tail (h.mono (List.subset_append_right _ _))

/-- Filling an element that is not preformatted keeps its children in order. -/
theorem Fills.condensing {o : Options} (hnames : o.KeepsNames) {above : List String}
    {frame final : Frame} {events : List Event} (h : Fills o above frame events final)
    (hplain : PlainTexts events)
    (houtside : (frame.head.name :: above).any o.isPreformatted = false)
    (hframe : Condensing frame.children) : Condensing final.children := by
  induction h with
  | nil => exact hframe
  | warning _ _ _ ih => exact ih hplain.tail houtside hframe
  | comment _ _ _ ih => exact ih hplain.tail houtside (hframe.addOther rfl)
  | @text above frame final events kept content span hkept _ ih =>
    obtain rfl : kept = false := (hkept hnames).trans houtside
    have hsame := (frame.addContent_same o false content span).1
    exact ih hplain.tail (hsame ▸ houtside)
      (hframe.addContent (hplain content span (.head _)) span)
  | unary _ _ _ _ ih => exact ih hplain.tail houtside (hframe.addOther rfl)
  | element _ _ _ _ _ _ _ ih => exact ih hplain.after_element houtside (hframe.addOther rfl)
  | leftUnary _ _ ih => exact ih hplain.tail houtside hframe
  | leftElement _ _ _ ih => exact ih hplain.after_element houtside hframe

/-- The children of an element outside preformatted ones. -/
theorem Arises.condensed {o : Options} (hnames : o.KeepsNames) {above : List String}
    {events : List Event} {e : Element} (h : Arises o above events e)
    (hplain : PlainTexts events)
    (houtside : (e.head.name :: above).any o.isPreformatted = false) : Condensed e.children := by
  cases h with
  | unary => exact condensed_nil
  | element hpart _ _ hinner hkept =>
    obtain rfl := (hkept hnames).trans houtside
    have hinside : PlainTexts _ := (hplain.mono hpart.subset).mono (List.subset_append_left _ _)
    exact (hinner.condensing hnames hinside.tail houtside condensing_nil).closed

/-! ### The tree of a compile -/

/-- The text of a node, if it has one, is a single space. -/
def spaceText (text : Option (String × Option Span)) : Bool :=
  text.any fun text => text.1 == " "

theorem isSpace_eq (n : Node) : Growth.isSpace n = spaceText n.text? := by
  cases n <;> rfl

theorem isChain_apart_iff (nodes : List Node) :
    nodes.IsChain Apart ↔
      (nodes.map Node.text?).IsChain fun t u => (spaceText t && spaceText u) = false := by
  have happart : Apart = fun n m : Node => (spaceText n.text? && spaceText m.text?) = false := by
    funext n m
    rw [Apart, isSpace_eq, isSpace_eq]
  rw [happart, List.isChain_map]

/-- Whether children are condensed can be told from the texts among them. -/
theorem Condensed.congr {children children' : List Node} (h : Condensed children)
    (htexts : children.map Node.text? = children'.map Node.text?) : Condensed children' := by
  have hend : ∀ {end? end?' : Option Node}, end?.map Node.text? = end?'.map Node.text? →
      (∀ n ∈ end?, Growth.isSpace n = false) → ∀ n ∈ end?', Growth.isSpace n = false := by
    intro end? end?' hsame hspace n hn
    rw [Option.mem_def] at hn
    rw [hn, Option.map_some, Option.map_eq_some_iff] at hsame
    obtain ⟨m, hm, htext⟩ := hsame
    rw [isSpace_eq, ← htext, ← isSpace_eq]
    exact hspace m hm
  refine ⟨fun n hn => ?_, ?_, hend ?_ h.first, hend ?_ h.last⟩
  · obtain ⟨m, hm, htext⟩ := List.mem_map.1 (htexts ▸ List.mem_map_of_mem hn)
    rw [Node.BlankIsSpace, ← htext]
    exact h.blank m hm
  · rw [isChain_apart_iff, ← htexts, ← isChain_apart_iff]
    exact h.apart
  · rw [← List.head?_map, ← List.head?_map, htexts]
  · rw [← List.getLast?_map, ← List.getLast?_map, htexts]

theorem map_text?_unmarkAll (nodes : List Node) :
    (unmarkAll nodes).map Node.text? = nodes.map Node.text? := by
  rw [unmarkAll_eq_map, List.map_map]
  apply List.map_congr_left
  intro n _
  cases n <;> rfl

/-- A tree that differs in its marks only has the same elements in the same places, with the same
texts in them. -/
theorem Node.Holds.of_unmark_eq {n : Node} {outer above : List String} {e : Element}
    (h : n.Holds outer above e) {m : Node} (hm : m.unmark = n.unmark) :
    ∃ e' : Element, m.Holds outer above e' ∧ e'.head.name = e.head.name ∧
      e'.children.map Node.text? = e.children.map Node.text? := by
  induction h generalizing m with
  | self outer head children =>
    cases m with
    | text run => cases hm
    | comment content span => cases hm
    | element head' children' =>
      obtain ⟨hhead, hchildren⟩ := Node.element.inj hm
      have hname : head'.unmark.name = head.unmark.name := congrArg Head.name hhead
      refine ⟨⟨head', children'⟩, .self outer head' children', hname, ?_⟩
      rw [← map_text?_unmarkAll, hchildren, map_text?_unmarkAll]
  | @child outer above head children n e hn _ ih =>
    cases m with
    | text run => cases hm
    | comment content span => cases hm
    | element head' children' =>
      obtain ⟨hhead, hchildren⟩ := Node.element.inj hm
      have hname : head'.unmark.name = head.unmark.name := congrArg Head.name hhead
      have hmem : n.unmark ∈ unmarkAll children' := by
        rw [hchildren, unmarkAll_eq_map]
        exact List.mem_map_of_mem hn
      rw [unmarkAll_eq_map] at hmem
      obtain ⟨m', hm', hunmark⟩ := List.mem_map.1 hmem
      obtain ⟨e', hholds, htexts⟩ := ih hunmark
      refine ⟨e', .child hm' ?_, htexts⟩
      rwa [show head'.name = head.name from hname]

/-- Whatever the options of a compile for the web are, as long as they add no modules, the children
of every element of its tree are condensed that is neither preformatted nor below such an element,
if the template has no references. All along the events of the markup the count is that of the open
preformatted elements, so that it is not zero where one is closed, and at their end nothing is open
and the count is zero. -/
theorem compile_condensed {v : Overrides} (hmodules : v.modules = [])
    {check : Option (Element → List Report)} {template : String}
    (hplain : '&' ∉ template.toList) :
    let o := Options.web.override v
    let events := parse o.markup (trim template)
    let grown := Growth.ofEvents (trim template) o
    (∀ root, (Compiler.compile ⟨.web, webBackend, check⟩ v template).tree = some root →
      ∀ above e, root.toNode.Holds [] above e →
        (e.head.name :: above).any o.isPreformatted = false → Condensed e.children) ∧
      (∀ before after, events = before ++ after →
        (grown before).preformatted =
            (frameNames (grown before).frames).countP o.isPreformatted ∧
          ∀ frame ∈ (grown before).frames, o.isPreformatted frame.head.name = true →
            0 < (grown before).preformatted) ∧
      (grown events).frames = [] ∧ (grown events).preformatted = 0 := by
  intro o events grown
  have hnames : o.KeepsNames := keepsNames_override_web hmodules
  have hmodest := hnames.modest
  have hcounted : ∀ before, (grown before).Counted o := fun before =>
    Growth.counted_foldl (g := {}) hnames rfl (trim template) before
  refine ⟨?_, ?_, ?_⟩
  · intro root hroot above e hholds houtside
    have htree : (Compiler.compile ⟨.web, webBackend, check⟩ v template).tree =
        (v.root? template).map v.finish := by
      unfold Compiler.compile
      simp only [Compiler.optionsFor, webBackend_eq]
      rfl
    rw [htree] at hroot
    obtain ⟨grownRoot, hgrown, rfl⟩ := Option.map_eq_some_iff.1 hroot
    obtain ⟨e', hholds', hname, htexts⟩ := hholds.of_unmark_eq (v.unmark_finish grownRoot).symm
    have harises := arises_of_holds hgrown hholds'
    refine (harises.condensed hnames (fun content span hmem hamp => ?_) ?_).congr htexts
    · obtain ⟨trailing, htrailing⟩ := exists_append_trim template
      have htrim := mem_of_text hmem hamp
      exact hplain (htrailing ▸ by simp [htrim])
    · rwa [hname]
  · intro before after _
    refine ⟨hcounted before, fun frame hframe hpre => ?_⟩
    rw [hcounted before, List.countP_pos_iff]
    exact ⟨frame.head.name, List.mem_map_of_mem hframe, hpre⟩
  · obtain ⟨root, hsettled, -⟩ := Growth.settled_ofEvents o (trim template) (trim template)
    refine ⟨hsettled.frames, ?_⟩
    have hcount := hcounted events
    rw [Growth.Counted, show (grown events).frames = [] from hsettled.frames] at hcount
    exact hcount

theorem compile_condensed_sample :
    ∃ root, (Compiler.web.compile {} "<div> <p>a</p>\n <!--c--> <b></b> </div>").tree = some root ∧
      root.children.map Node.text? = [none, some (" ", some ⟨14, 2⟩), none] ∧
      Condensed root.children := by
  have hfacts : (Compiler.web.compile {} "<div> <p>a</p>\n <!--c--> <b></b> </div>").tree.map
      (fun root => (root.head.name, root.children.map Node.text?)) =
        some ("div", [none, some (" ", some ⟨14, 2⟩), none]) ∧
      (Options.web.override {}).isPreformatted "div" = false := by
    decide +kernel
  obtain ⟨root, hroot, hchildren⟩ := Option.map_eq_some_iff.1 hfacts.1
  obtain ⟨hname, htexts⟩ := Prod.ext_iff.1 hchildren
  have hmodules : ({} : Overrides).modules = [] := rfl
  have hplain : '&' ∉ "<div> <p>a</p>\n <!--c--> <b></b> </div>".toList := by decide
  obtain ⟨hcondensed, -, -⟩ := compile_condensed hmodules hplain
  refine ⟨root, hroot, htexts, hcondensed root hroot [] ⟨root.head, root.children⟩ (.self _ _ _) ?_⟩
  rw [List.any_cons, show root.head.name = "div" from hname, hfacts.2]
  rfl

end HtmlTemplate.Template
