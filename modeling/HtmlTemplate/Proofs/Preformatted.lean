import HtmlTemplate.Proofs.Filling
import Mathlib.Data.List.Destutter

/-!
# Text in preformatted elements

In a preformatted element, or below one, blanks are neither collapsed nor dropped at the ends of the
element. `Mirrors` says which nodes the events between its tags would then give: a node for every
text, with its references decoded, one for every comment and one for every element that is not left
out. There is one rule that does not ask where it is: a text that is a single space is dropped after
another one. So the children are these nodes without such spaces, and every text is kept exactly if
no two of them stand next to each other (`preformatted_texts_iff`).
-/

namespace HtmlTemplate.Template

open Markup

/-! ### Spaces next to each other -/

/-- The nodes are not both single spaces. -/
def Apart (n m : Node) : Prop := (Growth.isSpace n && Growth.isSpace m) = false

instance : DecidableRel Apart := fun _ _ => inferInstanceAs (Decidable (_ = false))

/-- Adds a node to children, newest first, unless it is a space after a space. -/
def addApart (children : List Node) (n : Node) : List Node :=
  if Growth.isSpace n && children.head?.any Growth.isSpace then children else n :: children

theorem addApart_of_not_isSpace {n : Node} (h : Growth.isSpace n = false) (children : List Node) :
    addApart children n = n :: children := by
  rw [addApart, h, Bool.false_and, if_neg Bool.false_ne_true]

theorem foldl_addApart_cons (n : Node) (older nodes : List Node) :
    (nodes.foldl addApart (n :: older)).reverse =
      older.reverse ++ nodes.destutter' Apart n := by
  induction nodes generalizing n older with
  | nil => simp
  | cons m nodes ih =>
    rw [List.foldl_cons, addApart, List.head?_cons, Option.any_some, Bool.and_comm]
    by_cases hapart : Apart n m
    · rw [List.destutter'_cons_pos _ hapart, if_neg (by rw [hapart]; exact Bool.false_ne_true), ih]
      simp
    · rw [List.destutter'_cons_neg _ hapart, if_pos (Bool.of_not_eq_false hapart), ih]

/-- Adding nodes one after the other gives them all but for the spaces after spaces. -/
theorem foldl_addApart (nodes : List Node) :
    (nodes.foldl addApart []).reverse = nodes.destutter Apart := by
  cases nodes with
  | nil => rfl
  | cons n nodes =>
    have hfirst : addApart [] n = [n] := by simp [addApart]
    rw [List.foldl_cons, hfirst, foldl_addApart_cons, List.destutter_cons', List.reverse_nil,
      List.nil_append]

/-- The text of a node with its span, if it is a text. -/
def Node.text? : Node → Option (String × Option Span)
  | .text run => some (run.text, run.span)
  | .element .. => none
  | .comment .. => none

theorem countP_destutter' (n : Node) (nodes : List Node) :
    (nodes.destutter' Apart n).countP (fun n => n.text?.isNone) =
      (n :: nodes).countP (fun n => n.text?.isNone) := by
  induction nodes generalizing n with
  | nil => rfl
  | cons m nodes ih =>
    by_cases hapart : Apart n m
    · rw [List.destutter'_cons_pos _ hapart, List.countP_cons, ih, ← List.countP_cons]
    · -- both are spaces, and a space is a text
      have hspaces : Growth.isSpace n = true ∧ Growth.isSpace m = true := by
        simpa [Apart] using hapart
      have hm : m.text?.isNone = false := by
        cases m with
        | text run => rfl
        | element head children => cases hspaces.2
        | comment content span => cases hspaces.2
      rw [List.destutter'_cons_neg _ hapart, ih, List.countP_cons, List.countP_cons,
        List.countP_cons, hm]
      simp

/-- Nodes are texts, or they are not. -/
theorem length_eq_texts_add (nodes : List Node) :
    nodes.length =
      (nodes.filterMap Node.text?).length + nodes.countP (fun n => n.text?.isNone) := by
  induction nodes with
  | nil => rfl
  | cons n nodes ih =>
    cases hn : n.text? with
    | none =>
      simp only [List.filterMap_cons, hn, List.length_cons, List.countP_cons, Option.isNone_none,
        if_true]
      omega
    | some text =>
      simp only [List.filterMap_cons, hn, List.length_cons, List.countP_cons, Option.isNone_some,
        Bool.false_eq_true, if_false]
      omega

/-- No text is lost exactly if no space follows a space. -/
theorem texts_destutter_iff (nodes : List Node) :
    (nodes.destutter Apart).filterMap Node.text? = nodes.filterMap Node.text? ↔
      nodes.IsChain Apart := by
  constructor
  · intro htexts
    have hothers : (nodes.destutter Apart).countP (fun n => n.text?.isNone) =
        nodes.countP (fun n => n.text?.isNone) := by
      cases nodes with
      | nil => rfl
      | cons n nodes => exact countP_destutter' n nodes
    have hlength : (nodes.destutter Apart).length = nodes.length := by
      rw [length_eq_texts_add, length_eq_texts_add nodes, htexts, hothers]
    have hsame := (List.destutter_sublist Apart nodes).eq_of_length hlength
    exact (List.destutter_eq_self_iff Apart nodes).1 hsame
  · intro hchain
    rw [List.destutter_of_isChain Apart nodes hchain]

/-! ### What events mean in a preformatted element -/

/-- What a text event says in an element of this name: in a script or a style as it stands, and
elsewhere with its references decoded. -/
def decodedIn (name content : String) : String :=
  if Growth.keepsReferences name then content else decodeContent content

/-- The node of a text, in its parts unless it is a single space. -/
def textNode (d : Delimiters) (text : String) (span : Option Span) : Node :=
  .text ⟨text, if text == " " then [.fixed text] else d.split text, span⟩

/-- The nodes that events directly in an element of the given name mean, where so many elements are
open: one for every text and every comment, and one for every element that is not left out. -/
inductive Mirrors (o : Options) (level : Nat) (name : String) : List Event → List Node → Prop where
  | nil : Mirrors o level name [] []
  | warning {events : List Event} {nodes : List Node} (message : String) (range : Locus)
      (hrest : Mirrors o level name events nodes) :
      Mirrors o level name (.warning message range :: events) nodes
  | comment {events : List Event} {nodes : List Node} (content : String) (span : Span)
      (hrest : Mirrors o level name events nodes) :
      Mirrors o level name (.comment content span :: events) (.comment content span :: nodes)
  | text {events : List Event} {nodes : List Node} (content : String) (span : Option Span)
      (hrest : Mirrors o level name events nodes) :
      Mirrors o level name (.text content span :: events)
        (textNode o.delimiters (decodedIn name content) span :: nodes)
  | unary {events : List Event} {nodes : List Node} {inside : String}
      {attributes : List Attribute} {span : Span} {head : Head} (hroom : level < nestingLimit)
      (hhead : head = (Growth.headOfTag o inside attributes true span).1)
      (hshows : Growth.hasSideEffects head = false) (hrest : Mirrors o level name events nodes) :
      Mirrors o level name (.startTag inside attributes true span :: events)
        (.element head [] :: nodes)
  | element {inner rest : List Event} {outlines : List Outline} {nodes : List Node}
      {inside : String} {attributes : List Attribute} {span span' : Span} {head : Head}
      (children : List Node) (hroom : level < nestingLimit)
      (hhead : head = (Growth.headOfTag o inside attributes false span).1)
      (hshows : Growth.hasSideEffects head = false) (hinner : Brackets inner outlines)
      (hrest : Mirrors o level name rest nodes) :
      Mirrors o level name
        (.startTag inside attributes false span :: inner ++ .endTag inside span' :: rest)
        (.element (head.endingAt span') children :: nodes)
  | leftUnary {events : List Event} {nodes : List Node} {inside : String}
      {attributes : List Attribute} {span : Span}
      (hleft : nestingLimit ≤ level ∨
        Growth.hasSideEffects (Growth.headOfTag o inside attributes true span).1 = true)
      (hrest : Mirrors o level name events nodes) :
      Mirrors o level name (.startTag inside attributes true span :: events) nodes
  | leftElement {inner rest : List Event} {outlines : List Outline} {nodes : List Node}
      {inside : String} {attributes : List Attribute} {span span' : Span}
      (hleft : nestingLimit ≤ level ∨
        Growth.hasSideEffects (Growth.headOfTag o inside attributes false span).1 = true)
      (hinner : Brackets inner outlines) (hrest : Mirrors o level name rest nodes) :
      Mirrors o level name
        (.startTag inside attributes false span :: inner ++ .endTag inside span' :: rest) nodes

/-- The texts directly in an element with their spans, among the events in it, where so many of its
elements are open. -/
def directTexts : Nat → List Event → List (String × Option Span)
  | _, [] => []
  | depth, .startTag _ _ unary _ :: events =>
    directTexts (if unary then depth else depth + 1) events
  | depth, .endTag .. :: events => directTexts (depth - 1) events
  | depth, .text content span :: events =>
    if depth = 0 then (content, span) :: directTexts depth events else directTexts depth events
  | depth, .comment .. :: events => directTexts depth events
  | depth, .warning .. :: events => directTexts depth events

/-- The texts of an element in an element are not directly in that one. -/
theorem directTexts_inner {inner : List Event} {outlines : List Outline}
    (h : Brackets inner outlines) (depth : Nat) (rest : List Event) :
    directTexts (depth + 1) (inner ++ rest) = directTexts (depth + 1) rest := by
  induction h generalizing depth rest with
  | nil => rfl
  | @content e events outlines he _ ih =>
    cases e with
    | startTag name attributes unary span => cases he
    | endTag name span => cases he
    | text content span =>
      rw [List.cons_append, directTexts, if_neg (Nat.succ_ne_zero depth), ih]
    | comment content span => exact ih depth rest
    | warning message range => exact ih depth rest
  | unary name attributes span _ ih => exact ih depth rest
  | @element inner more children outlines name attributes span span' _ _ ihinner ihrest =>
    rw [List.append_assoc, List.cons_append, directTexts, if_neg Bool.false_ne_true, ihinner,
      List.cons_append, directTexts, Nat.add_sub_cancel, ihrest]

theorem directTexts_element {inner : List Event} {outlines : List Outline}
    (h : Brackets inner outlines) (name : String) (attributes : List Attribute) (span span' : Span)
    (rest : List Event) :
    directTexts 0 (.startTag name attributes false span :: inner ++ .endTag name span' :: rest) =
      directTexts 0 rest := by
  rw [List.cons_append, directTexts, if_neg Bool.false_ne_true, directTexts_inner h, directTexts,
    Nat.zero_add, Nat.sub_self]

namespace Mirrors

variable {o : Options} {level : Nat} {name : String} {events : List Event} {nodes : List Node}

/-- The texts among the nodes are what the texts among the events say. -/
theorem texts (h : Mirrors o level name events nodes) :
    nodes.filterMap Node.text? =
      (directTexts 0 events).map fun text => (decodedIn name text.1, text.2) := by
  induction h with
  | nil => rfl
  | warning _ _ _ ih => exact ih
  | comment _ _ _ ih => exact ih
  | text content span _ ih =>
    rw [directTexts, if_pos rfl, List.map_cons, ← ih]
    rfl
  | unary _ _ _ _ ih => exact ih
  | element _ _ _ _ hinner _ ih =>
    rw [directTexts_element hinner, ← ih]
    rfl
  | leftUnary _ _ ih => exact ih
  | leftElement _ hinner _ ih =>
    rw [directTexts_element hinner]
    exact ih

/-- Nodes that stand next to each other come from events that do. -/
theorem split (h : Mirrors o level name events nodes) {first second : List Node}
    (hnodes : nodes = first ++ second) :
    ∃ before after, events = before ++ after ∧ Mirrors o level name before first ∧
      Mirrors o level name after second := by
  induction h generalizing first with
  | nil =>
    obtain ⟨rfl, rfl⟩ := List.append_eq_nil_iff.1 hnodes.symm
    exact ⟨[], [], rfl, .nil, .nil⟩
  | warning message range _ ih =>
    obtain ⟨before, after, rfl, hbefore, hafter⟩ := ih hnodes
    exact ⟨_, after, rfl, .warning message range hbefore, hafter⟩
  | comment content span hrest ih =>
    obtain ⟨rfl, rfl⟩ | ⟨first', rfl, hfirst⟩ := List.cons_eq_append_iff.1 hnodes
    · exact ⟨[], _, rfl, .nil, .comment content span hrest⟩
    · obtain ⟨before, after, rfl, hbefore, hafter⟩ := ih hfirst
      exact ⟨_, after, rfl, .comment content span hbefore, hafter⟩
  | text content span hrest ih =>
    obtain ⟨rfl, rfl⟩ | ⟨first', rfl, hfirst⟩ := List.cons_eq_append_iff.1 hnodes
    · exact ⟨[], _, rfl, .nil, .text content span hrest⟩
    · obtain ⟨before, after, rfl, hbefore, hafter⟩ := ih hfirst
      exact ⟨_, after, rfl, .text content span hbefore, hafter⟩
  | unary hroom hhead hshows hrest ih =>
    obtain ⟨rfl, rfl⟩ | ⟨first', rfl, hfirst⟩ := List.cons_eq_append_iff.1 hnodes
    · exact ⟨[], _, rfl, .nil, .unary hroom hhead hshows hrest⟩
    · obtain ⟨before, after, rfl, hbefore, hafter⟩ := ih hfirst
      exact ⟨_, after, rfl, .unary hroom hhead hshows hbefore, hafter⟩
  | element children hroom hhead hshows hinner hrest ih =>
    obtain ⟨rfl, rfl⟩ | ⟨first', rfl, hfirst⟩ := List.cons_eq_append_iff.1 hnodes
    · exact ⟨[], _, rfl, .nil, .element children hroom hhead hshows hinner hrest⟩
    · obtain ⟨before, after, rfl, hbefore, hafter⟩ := ih hfirst
      exact ⟨_, after, by rw [← List.cons_append, ← List.append_assoc],
        .element children hroom hhead hshows hinner hbefore, hafter⟩
  | leftUnary hleft _ ih =>
    obtain ⟨before, after, rfl, hbefore, hafter⟩ := ih hnodes
    exact ⟨_, after, rfl, .leftUnary hleft hbefore, hafter⟩
  | leftElement hleft hinner _ ih =>
    obtain ⟨before, after, rfl, hbefore, hafter⟩ := ih hnodes
    exact ⟨_, after, by rw [← List.cons_append, ← List.append_assoc],
      .leftElement hleft hinner hbefore, hafter⟩

end Mirrors

/-! ### Filling a preformatted element -/

theorem Growth.addText_eq (d : Delimiters) (text : String) (span : Option Span) (frame : Frame) :
    addText d text span frame =
      { frame with children := addApart frame.children (textNode d text span) } := by
  obtain ⟨head, children, placement⟩ := frame
  by_cases hspace : text = " "
  · subst hspace
    cases children with
    | nil => rfl
    | cons last older =>
      have hnew : isSpace (.text ⟨" ", [.fixed " "], span⟩) = true := rfl
      cases hlast : isSpace last <;> simp [addText, addApart, hnew, hlast, textNode]
  · have hother : isSpace (textNode d text span) = false := beq_eq_false_iff_ne.2 hspace
    rw [addApart_of_not_isSpace hother]
    simp [addText, textNode, hspace]

/-- Where blanks are kept, a text event adds its text, unless that is a space after a space. -/
theorem Frame.addContent_kept (o : Options) (content : String) (span : Option Span)
    (frame : Frame) :
    frame.addContent o true content span = { frame with
      children := addApart frame.children
        (textNode o.delimiters (decodedIn frame.head.name content) span) } :=
  Growth.addText_eq o.delimiters (decodedIn frame.head.name content) span frame

theorem Fills.brackets {o : Options} {above : List String} {frame final : Frame}
    {events : List Event} (h : Fills o above frame events final) :
    ∃ outlines, Brackets events outlines := by
  induction h with
  | nil => exact ⟨[], .nil⟩
  | warning _ _ _ ih =>
    obtain ⟨outlines, hrest⟩ := ih
    exact ⟨outlines, .content rfl hrest⟩
  | comment _ _ _ ih =>
    obtain ⟨outlines, hrest⟩ := ih
    exact ⟨outlines, .content rfl hrest⟩
  | text _ _ _ _ ih =>
    obtain ⟨outlines, hrest⟩ := ih
    exact ⟨outlines, .content rfl hrest⟩
  | unary _ _ _ _ ih =>
    obtain ⟨outlines, hrest⟩ := ih
    exact ⟨_, .unary _ _ _ hrest⟩
  | element _ _ _ _ _ _ ihinner ihrest =>
    obtain ⟨children, hinner⟩ := ihinner
    obtain ⟨outlines, hrest⟩ := ihrest
    exact ⟨_, .element _ _ _ _ hinner hrest⟩
  | leftUnary _ _ ih =>
    obtain ⟨outlines, hrest⟩ := ih
    exact ⟨_, .unary _ _ _ hrest⟩
  | leftElement _ hinner _ ih =>
    obtain ⟨outlines, hrest⟩ := ih
    exact ⟨_, .element _ _ _ _ hinner hrest⟩

/-- In a preformatted element events add the nodes that they mean, but for spaces after spaces. -/
theorem Fills.mirrors {o : Options} (hnames : o.KeepsNames) {above : List String}
    {frame final : Frame} {events : List Event} (h : Fills o above frame events final)
    (hpre : (frame.head.name :: above).any o.isPreformatted = true) :
    ∃ nodes, Mirrors o (above.length + 1) frame.head.name events nodes ∧
      final.children = nodes.foldl addApart frame.children := by
  induction h with
  | nil => exact ⟨[], .nil, rfl⟩
  | warning message range _ ih =>
    obtain ⟨nodes, hnodes, hfinal⟩ := ih hpre
    exact ⟨nodes, .warning message range hnodes, hfinal⟩
  | comment content span _ ih =>
    obtain ⟨nodes, hnodes, hfinal⟩ := ih hpre
    refine ⟨_, .comment content span hnodes, ?_⟩
    rw [List.foldl_cons, addApart_of_not_isSpace rfl]
    exact hfinal
  | @text above frame final events kept content span hkept _ ih =>
    obtain rfl : kept = true := (hkept hnames).trans hpre
    rw [frame.addContent_kept] at ih
    obtain ⟨nodes, hnodes, hfinal⟩ := ih hpre
    exact ⟨_, .text content span hnodes, hfinal⟩
  | unary hroom hhead hshows _ ih =>
    obtain ⟨nodes, hnodes, hfinal⟩ := ih hpre
    refine ⟨_, .unary hroom hhead hshows hnodes, ?_⟩
    rw [List.foldl_cons, addApart_of_not_isSpace rfl]
    exact hfinal
  | @element _ _ inside _ _ _ kept _ _ _ _ _ hroom hhead hshows hinner _ _ _ ih =>
    obtain ⟨nodes, hnodes, hfinal⟩ := ih hpre
    obtain ⟨outlines, hbrackets⟩ := hinner.brackets
    refine ⟨_, .element (Growth.closedChildren kept inside.children) hroom hhead hshows hbrackets
      hnodes, ?_⟩
    rw [List.foldl_cons, addApart_of_not_isSpace rfl]
    exact hfinal
  | leftUnary hleft _ ih =>
    obtain ⟨nodes, hnodes, hfinal⟩ := ih hpre
    exact ⟨nodes, .leftUnary hleft hnodes, hfinal⟩
  | leftElement hleft hinner _ ih =>
    obtain ⟨nodes, hnodes, hfinal⟩ := ih hpre
    exact ⟨nodes, .leftElement hleft hinner hnodes, hfinal⟩

/-! ### Elements of a tree -/

/-- The tags of an element among the events of a markup, with the events between them; there are
none in an element without an end tag. -/
inductive Encloses (o : Options) (events : List Event) (head : Head) : List Event → Prop where
  | unary {name : String} {attributes : List Attribute} {span : Span}
      (hpart : [.startTag name attributes true span] <:+: events)
      (hhead : head = (Growth.headOfTag o name attributes true span).1) :
      Encloses o events head []
  | element {name : String} {attributes : List Attribute} {span span' : Span} {inner : List Event}
      (hpart : .startTag name attributes false span :: inner ++ [.endTag name span'] <:+: events)
      (hhead : head = (Growth.headOfTag o name attributes false span).1.endingAt span') :
      Encloses o events head inner

/-- The children of an element in which blanks are kept. -/
theorem Arises.mirrors {o : Options} (hnames : o.KeepsNames) {above : List String}
    {events : List Event} {e : Element} (h : Arises o above events e)
    (hpre : (e.head.name :: above).any o.isPreformatted = true) :
    ∃ inner nodes, Encloses o events e.head inner ∧
      Mirrors o (above.length + 1) e.head.name inner nodes ∧
      e.children = nodes.destutter Apart := by
  cases h with
  | unary hpart _ hhead => exact ⟨[], [], .unary hpart hhead, .nil, rfl⟩
  | element hpart _ hhead hinner hkept =>
    obtain rfl := (hkept hnames).trans hpre
    obtain ⟨nodes, hnodes, hchildren⟩ := hinner.mirrors hnames hpre
    refine ⟨_, nodes, .element hpart (by rw [hhead]), hnodes, ?_⟩
    rw [← foldl_addApart, ← hchildren]
    rfl

/-- What becomes of text in a preformatted element, or below one. The element has its tags in the
markup, and its children are the nodes that the events between them mean, but for single spaces
after single spaces. So all texts directly in it are kept in order, as they stand in a script or a
style and decoded elsewhere, exactly if no two of these nodes are single spaces next to each other,
and then every run of children has the texts of the events that it comes from. -/
theorem preformatted_texts_iff {o : Options} (hnames : o.KeepsNames) {template : String}
    {root : Element} (hroot : (tree o template).1 = some root) {above : List String} {e : Element}
    (hholds : root.toNode.Holds [] above e)
    (hpre : (e.head.name :: above).any o.isPreformatted = true) :
    let say := fun text : String × Option Span => (decodedIn e.head.name text.1, text.2)
    ∃ inner nodes, Encloses o (parse o.markup template) e.head inner ∧
      Mirrors o (above.length + 1) e.head.name inner nodes ∧
      e.children = nodes.destutter Apart ∧
      (e.children.filterMap Node.text? = (directTexts 0 inner).map say ↔ nodes.IsChain Apart) ∧
      (nodes.IsChain Apart → ∀ before run after, e.children = before ++ (run ++ after) →
        ∃ earlier part later, inner = earlier ++ (part ++ later) ∧
          run.filterMap Node.text? = (directTexts 0 part).map say) := by
  intro say
  have hmodest := hnames.modest
  obtain ⟨inner, nodes, hencloses, hmirrors, hchildren⟩ :=
    (arises_of_holds hroot hholds).mirrors hnames hpre
  refine ⟨inner, nodes, hencloses, hmirrors, hchildren, ?_, ?_⟩
  · rw [← hmirrors.texts, hchildren, texts_destutter_iff]
  · intro hchain before run after hsplit
    rw [hchildren, List.destutter_of_isChain Apart nodes hchain] at hsplit
    obtain ⟨earlier, rest, rfl, -, hrest⟩ := hmirrors.split hsplit
    obtain ⟨part, later, rfl, hpart, -⟩ := hrest.split rfl
    exact ⟨earlier, part, later, rfl, hpart.texts⟩

theorem preformatted_texts_sample :
    let o := Options.web.override {}
    ∃ root inner nodes, (tree o "<pre> a <b> &lt;</b>\n\n</pre>").1 = some root ∧
      Encloses o (parse o.markup "<pre> a <b> &lt;</b>\n\n</pre>") root.head inner ∧
      Mirrors o 1 "pre" inner nodes ∧ root.children = nodes.destutter Apart := by
  intro o
  have hfacts : (tree o "<pre> a <b> &lt;</b>\n\n</pre>").1.map (fun root => root.head.name) =
      some "pre" ∧ o.isPreformatted "pre" = true := by
    decide +kernel
  obtain ⟨root, hroot, hname⟩ := Option.map_eq_some_iff.1 hfacts.1
  obtain ⟨inner, nodes, hencloses, hmirrors, hchildren, -⟩ :=
    preformatted_texts_iff (keepsNames_override_web rfl) hroot (.self [] root.head root.children)
      (by rw [hname, List.any_cons, hfacts.2]; rfl)
  exact ⟨root, inner, nodes, hroot, hencloses, hname ▸ hmirrors, hchildren⟩

/-- A comment that is dropped leaves two spaces next to each other, and one of them is lost: the
children are not the texts that the events between the tags of the element say. -/
theorem preformatted_space_lost :
    let o := Options.web.override {}
    let inner : List Event := [.text " " (some ⟨5, 1⟩), .text " " (some ⟨14, 1⟩)]
    parse o.markup "<pre> <!--c--> </pre>" =
        .startTag "pre" [] false ⟨0, 5⟩ :: inner ++ [.endTag "pre" ⟨15, 6⟩] ∧
      o.isPreformatted "pre" = true ∧
      (tree o "<pre> <!--c--> </pre>").1.map (fun root =>
        (root.head.name, root.children.filterMap Node.text?)) =
          some ("pre", [(" ", some ⟨5, 1⟩)]) ∧
      [(" ", some ⟨5, 1⟩)] ≠
        (directTexts 0 inner).map fun text => (decodedIn "pre" text.1, text.2) := by
  decide +kernel

end HtmlTemplate.Template
