import HtmlTemplate.Proofs.AttributeNames
import HtmlTemplate.Proofs.Filling
import HtmlTemplate.Proofs.Purposes

/-!
# Which names of attributes are rendered twice

What a template renders is put together from pieces, among them the start tags of the elements
that stand. Where no name is in brackets, a start tag repeats a name exactly if two bindings that it
shows have one name, or a binding has that of a plain attribute (`distinct_attributeNames_iff`): the
names of a template are told apart as they are spelled, so `id`, `:id` and `v-bind:id` pass for
different ones. A class and a style are merged and occur once.
-/

namespace HtmlTemplate.Template

open Markup
open HtmlTemplate.Code (Result)

/-! ### Plain attributes -/

/-- No two plain attributes have one name, and a class and a style are not among them. -/
structure Head.PlainApart (head : Head) : Prop where
  nodup : (head.plain.map Prod.fst).Nodup
  noClass : "class" ∉ head.plain.map Prod.fst
  noStyle : "style" ∉ head.plain.map Prod.fst

theorem Head.PlainApart.of_plain_eq {head other : Head} (h : head.PlainApart)
    (heq : other.plain = head.plain) : other.PlainApart :=
  ⟨heq ▸ h.nodup, heq ▸ h.noClass, heq ▸ h.noStyle⟩

theorem plainApart_headOfTag {o : Options} (hmodules : o.modules = Options.web.modules)
    (name : String) (attributes : List Attribute) (unary : Bool) (span : Span) :
    (Growth.headOfTag o name attributes unary span).1.PlainApart := by
  let registered d := (o.directives.find? d).isSome
  let head := ((Head.ofTag name attributes unary span).sorted registered).1
  have hseen : Remembers [] [] := fun _ => rfl
  have hcollects : (sortAttributes registered attributes).Collects _ :=
    collects_sortAfter hseen registered attributes
  have hnodup : (head.plain.map Prod.fst).Nodup := by
    rw [show head.plain = _ from hcollects.plain]
    exact nodup_plain_names attributes
  have hhead : (Growth.headOfTag o name attributes unary span).1 =
      (styleModule.onHead o.toSettings (classModule.onHead o.toSettings head).1).1 := by
    rw [Growth.headOfTag, hmodules]
    rfl
  rw [hhead, onHead_web hnodup rfl rfl]
  refine ⟨hnodup.sublist (List.filter_sublist.map _), ?_, ?_⟩ <;> simp

theorem plainApart_root {v : Overrides} (hmodules : v.modules = []) {template : String}
    {root : Element} (hroot : v.root? template = some root) {e : Element}
    (he : e ∈ root.toNode.elements) : e.head.PlainApart := by
  have hweb : (Options.web.override v).modules = Options.web.modules := by
    rw [Options.override, hmodules]
    rfl
  have hmodest := modest_override_web hmodules
  obtain ⟨name, attributes, unary, span, span', hhead⟩ := exists_headOfTag hroot he
  refine (plainApart_headOfTag hweb name attributes unary span).of_plain_eq ?_
  rw [hhead]

theorem plainApart_compiled {v : Overrides} (hmodules : v.modules = []) {template : String}
    {root : Element} (hroot : (Compiler.web.compile v template).tree = some root) {e : Element}
    (he : e ∈ root.toNode.elements) : e.head.PlainApart := by
  rw [compile_tree, Option.map_eq_some_iff] at hroot
  obtain ⟨grown, hgrown, rfl⟩ := hroot
  have hunmarked : e.head.unmark ∈ grown.toNode.unmark.elements.map Element.head := by
    rw [← v.unmark_finish, Node.elements_unmark, List.map_map]
    exact List.mem_map_of_mem (f := fun e : Element => e.head.unmark) he
  rw [Node.elements_unmark, List.map_map] at hunmarked
  obtain ⟨e', he', heq⟩ := List.mem_map.1 hunmarked
  have hplain : e'.head.unmark.plain = e.head.unmark.plain := congrArg Head.plain heq
  exact (plainApart_root hmodules hgrown he').of_plain_eq hplain.symm

/-! ### Names in a start tag -/

section

variable (data : Json.Value)

/-- The bindings that have an attribute of their own in the start tag. -/
def Head.shownBindings (head : Head) : List Binding :=
  head.bindings.filter fun b => !(b.attributes data).isEmpty

/-- The bindings that are shown have different names, and none that of a plain attribute. -/
structure Head.BindsApart (head : Head) : Prop where
  nodup : ((head.shownBindings data).map Binding.name).Nodup
  plain : ∀ b ∈ head.shownBindings data, b.name ∉ head.plain.map Prod.fst

/-- The bindings other than of a class or a style have different names, and none that of a plain
attribute. -/
@[mk_iff]
structure Head.SpellsApart (head : Head) : Prop where
  nodup : ((head.bindings.filter fun b => b.name != "class" && b.name != "style").map
    Binding.name).Nodup
  plain : ∀ b ∈ head.bindings, b.name ∉ head.plain.map Prod.fst

instance (head : Head) : Decidable head.SpellsApart :=
  decidable_of_iff' _ (Head.spellsApart_iff head)

variable {data}

theorem map_fst_mergedAttributes (name : String) (fixed : Option String) (bound : Option Binding)
    (separator : String) :
    (mergedAttributes data name fixed bound separator).map Prod.fst = [] ∨
      (mergedAttributes data name fixed bound separator).map Prod.fst = [name] := by
  unfold mergedAttributes
  split
  · exact .inr rfl
  · exact .inr rfl
  · rw [map_fst_shownAttribute]
    split
    · exact .inr rfl
    · exact .inl rfl
  · exact .inl rfl

theorem Binding.attributes_of_own {b : Binding} (hcomputed : b.isComputed = false) :
    b.attributes data = if b.name == "class" || b.name == "style" then []
      else shownAttribute b.name (evaluate data b.expression) := by
  rw [attributes, hcomputed, if_neg Bool.false_ne_true]

theorem Binding.map_fst_attributes {b : Binding} (hcomputed : b.isComputed = false) :
    (b.attributes data).map Prod.fst = if (b.attributes data).isEmpty then [] else [b.name] := by
  rw [attributes_of_own hcomputed]
  split
  · rfl
  · unfold shownAttribute
    split <;> rfl

/-- The bindings of a class and a style have no attributes of their own. -/
theorem Binding.ne_of_shown {b : Binding} (hcomputed : b.isComputed = false)
    (hshown : (b.attributes data).isEmpty = false) : b.name ≠ "class" ∧ b.name ≠ "style" := by
  rw [attributes_of_own hcomputed] at hshown
  split at hshown
  · cases hshown
  · next hown => simpa using hown

theorem map_fst_flatMap_attributes {bindings : List Binding}
    (h : ∀ b ∈ bindings, b.isComputed = false) :
    (bindings.flatMap (Binding.attributes data)).map Prod.fst =
      (bindings.filter fun b => !(b.attributes data).isEmpty).map Binding.name := by
  induction bindings with
  | nil => rfl
  | cons b bindings ih =>
    obtain ⟨hb, hbindings⟩ := List.forall_mem_cons.1 h
    rw [List.flatMap_cons, List.map_append, ih hbindings, Binding.map_fst_attributes hb,
      List.filter_cons]
    cases (b.attributes data).isEmpty <;> rfl

/-- A class or a style at the front of a start tag occurs in it once. -/
theorem nodup_merged_append {classes styles names : List String}
    (hclasses : classes = [] ∨ classes = ["class"]) (hstyles : styles = [] ∨ styles = ["style"])
    (hclass : "class" ∉ names) (hstyle : "style" ∉ names) :
    (classes ++ styles ++ names).Nodup ↔ names.Nodup := by
  rcases hclasses with rfl | rfl <;> rcases hstyles with rfl | rfl <;> simp [hclass, hstyle]

/-- A start tag repeats no name exactly if its bindings are apart. -/
theorem Head.nodup_names_iff {head : Head} (hplain : head.PlainApart)
    (hcomputed : ∀ b ∈ head.bindings, b.isComputed = false) :
    ((head.attributes data).map Prod.fst).Nodup ↔ head.BindsApart data := by
  let shown := (head.shownBindings data).map Binding.name
  have hshown : ∀ b ∈ head.shownBindings data, b.name ≠ "class" ∧ b.name ≠ "style" := by
    intro b hb
    obtain ⟨hmem, hshows⟩ := List.mem_filter.1 hb
    exact Binding.ne_of_shown (hcomputed b hmem) (by simpa using hshows)
  have hclass : "class" ∉ head.plain.map Prod.fst ++ shown := by
    simpa [shown, hplain.noClass] using fun b hb => (hshown b hb).1
  have hstyle : "style" ∉ head.plain.map Prod.fst ++ shown := by
    simpa [shown, hplain.noStyle] using fun b hb => (hshown b hb).2
  have hnames : (head.attributes data).map Prod.fst =
      (mergedAttributes data "class" head.fixedClass (head.binding? "class") " ").map Prod.fst ++
        (mergedAttributes data "style" head.fixedStyle (head.binding? "style") "").map Prod.fst ++
        (head.plain.map Prod.fst ++ shown) := by
    simp only [attributes, List.map_append, List.map_map, map_fst_flatMap_attributes hcomputed,
      List.append_assoc]
    rfl
  rw [hnames, nodup_merged_append (map_fst_mergedAttributes _ _ _ _)
    (map_fst_mergedAttributes _ _ _ _) hclass hstyle, List.nodup_append]
  constructor
  · rintro ⟨-, hnodup, hapart⟩
    exact ⟨hnodup, fun b hb hmem => hapart _ hmem _ (List.mem_map_of_mem hb) rfl⟩
  · rintro ⟨hnodup, hapart⟩
    refine ⟨hplain.nodup, hnodup, ?_⟩
    rintro name hname other hother rfl
    obtain ⟨b, hb, rfl⟩ := List.mem_map.1 hother
    exact hapart b hb hname

/-- Bindings with different names are apart whichever of them are shown. -/
theorem Head.SpellsApart.bindsApart {head : Head} (h : head.SpellsApart)
    (hcomputed : ∀ b ∈ head.bindings, b.isComputed = false) : head.BindsApart data := by
  have hsub : head.shownBindings data =
      (head.bindings.filter fun b => b.name != "class" && b.name != "style").filter
        fun b => !(b.attributes data).isEmpty := by
    rw [List.filter_filter]
    refine List.filter_congr fun b hb => ?_
    cases hshown : (b.attributes data).isEmpty with
    | true => rfl
    | false =>
      obtain ⟨hclass, hstyle⟩ := Binding.ne_of_shown (hcomputed b hb) hshown
      simp [hclass, hstyle]
  refine ⟨?_, fun b hb => h.plain b (List.mem_filter.1 hb).1⟩
  rw [hsub]
  exact h.nodup.sublist (List.filter_sublist.map _)

end

/-! ### Pieces of rendered markup -/

/-- What rendered markup is put together from: tokens, and markup that stands in the data. -/
inductive Piece where
  | token (t : Token)
  | raw (markup : String)

def Piece.text : Piece → String
  | .token t => written [t]
  | .raw markup => markup

/-- The attributes of a start tag. -/
def Piece.startTag? : Piece → Option (String × List (String × Option String))
  | .token (.opening name attributes) => some (name, attributes)
  | _ => none

def joined (pieces : List Piece) : String := String.join (pieces.map Piece.text)

/-- The start tags among the pieces, with their names and attributes. -/
def startTags (pieces : List Piece) : List (String × List (String × Option String)) :=
  pieces.filterMap Piece.startTag?

theorem joined_cons (p : Piece) (pieces : List Piece) :
    joined (p :: pieces) = p.text ++ joined pieces :=
  String.join_cons

theorem joined_singleton (p : Piece) : joined [p] = p.text := by
  rw [joined_cons]
  exact String.append_empty

theorem joined_append (pieces more : List Piece) :
    joined (pieces ++ more) = joined pieces ++ joined more := by
  rw [joined, List.map_append, String.join_append, joined, joined]

section

variable (data : Json.Value)

/-- The children that a directive supplies, as text or as markup. -/
def Directive.piece (d : Directive) : Piece :=
  if d.name == "html" then .raw (evaluate data d.value).display
  else .token (.text (evaluate data d.value).display)

/-- The element around its own children. -/
def Head.pieces (head : Head) (children : List Piece) : List Piece :=
  .token (.opening head.name (head.attributes data)) ::
    match head.supplier? with
    | some d => [d.piece data, .token (.closing head.name)]
    | none => if head.unary then [] else children ++ [.token (.closing head.name)]

mutual

/-- What a tree is rendered as, with an empty comment where a condition does not hold. -/
def Node.pieces : Node → List Piece
  | .element head children =>
    if head.stands data then head.pieces data (piecesAll children) else [.token (.comment "")]
  | .text run => [.token (.text (run.shown data))]
  | .comment content _ => [.token (.comment content)]

def piecesAll : List Node → List Piece
  | [] => []
  | node :: rest => node.pieces ++ piecesAll rest

end

theorem Directive.text_piece (d : Directive) : (d.piece data).text = d.html data := by
  unfold piece html
  split
  · rfl
  · exact written_text _

theorem Directive.startTag?_piece (d : Directive) : (d.piece data).startTag? = none := by
  unfold piece
  split <;> rfl

theorem joined_piecesAll {nodes : List Node}
    (h : ∀ n ∈ nodes, joined (n.pieces data) = n.render data) :
    joined (piecesAll data nodes) = String.join (renderAll data nodes) := by
  induction nodes with
  | nil => rfl
  | cons n nodes ih =>
    obtain ⟨hn, hnodes⟩ := List.forall_mem_cons.1 h
    rw [piecesAll, renderAll, String.join_cons, joined_append, hn, ih hnodes]

/-- The pieces of an element make up its tags and what is between them. -/
theorem Head.joined_pieces (head : Head) (children : List Piece) :
    joined (head.pieces data children) = head.html data (joined children) := by
  have hopening : (Piece.token (.opening head.name (head.attributes data))).text =
      head.startTag data := (head.startTag_eq data).symm
  have hclosing : joined [Piece.token (.closing head.name)] = head.endTag := by
    rw [joined_singleton]
    exact written_closing head.name
  rw [pieces, html, joined_cons, hopening]
  cases head.supplier? with
  | some d =>
    simp only
    rw [joined_cons, hclosing, d.text_piece, String.append_assoc]
  | none =>
    simp only
    split
    · exact String.append_empty
    · rw [joined_append, hclosing, String.append_assoc]

/-- The pieces of a tree make up what it renders. -/
theorem Node.joined_pieces (n : Node) : joined (n.pieces data) = n.render data := by
  induction n using Node.induction with
  | text run => exact (joined_singleton _).trans (written_text _)
  | comment content span => exact (joined_singleton _).trans (written_comment content)
  | element head children ih =>
    rw [pieces, render]
    split
    · rw [head.joined_pieces, joined_piecesAll data ih]
    · exact (joined_singleton _).trans (written_comment "")

theorem startTags_opening (name : String) (attributes : List (String × Option String))
    (pieces : List Piece) : startTags (.token (.opening name attributes) :: pieces) =
      (name, attributes) :: startTags pieces :=
  rfl

theorem startTags_append (pieces more : List Piece) :
    startTags (pieces ++ more) = startTags pieces ++ startTags more :=
  List.filterMap_append

theorem Head.startTags_pieces (head : Head) (children : List Piece) :
    startTags (head.pieces data children) = (head.name, head.attributes data) ::
      if head.keepsChildren then startTags children else [] := by
  rw [pieces, startTags_opening, keepsChildren]
  congr 1
  cases head.supplier? with
  | some d => exact List.filterMap_cons_none (d.startTag?_piece data)
  | none =>
    cases head.unary with
    | true => rfl
    | false => exact (startTags_append children _).trans (List.append_nil _)

theorem startTags_piecesAll {nodes : List Node}
    (h : ∀ n ∈ nodes, startTags (n.pieces data) =
      (n.standing data).map fun head => (head.name, head.attributes data)) :
    startTags (piecesAll data nodes) =
      (standingAll data nodes).map fun head => (head.name, head.attributes data) := by
  induction nodes with
  | nil => rfl
  | cons n nodes ih =>
    obtain ⟨hn, hnodes⟩ := List.forall_mem_cons.1 h
    rw [piecesAll, standingAll, startTags_append, List.map_append, hn, ih hnodes]

/-- The start tags among the pieces are those of the elements that stand. -/
theorem Node.startTags_pieces (n : Node) : startTags (n.pieces data) =
    (n.standing data).map fun head => (head.name, head.attributes data) := by
  induction n using Node.induction with
  | text run => rfl
  | comment content span => rfl
  | element head children ih =>
    rw [pieces, standing]
    split
    · rw [head.startTags_pieces, startTags_piecesAll data ih, List.map_cons,
        apply_ite (List.map _)]
      rfl
    · rfl

end

/-! ### What a template renders -/

/-- The pieces that a compiled template renders: none if its code gave no procedure, and an empty
comment if it has no root. -/
def Compiled.pieces (c : Compiled) (data : Json.Value) : List Piece :=
  if c.failed = [] then
    (c.tree.map fun root => root.toNode.pieces data).getD [.token (.comment "")]
  else []

theorem Compiled.startTags_pieces (c : Compiled) (data : Json.Value) :
    startTags (c.pieces data) = if c.failed = [] then
      (c.standing data).map fun head => (head.name, head.attributes data) else [] := by
  unfold pieces standing
  split
  · cases c.tree with
    | none => rfl
    | some root => exact root.toNode.startTags_pieces data
  · rfl

section

variable {template : String} (hsize : Text.extent template.toList ≤ Json.maxSignificand)
  (herrors : (Compiler.web.compile {} template).errors = [])
include hsize herrors

/-- All pieces of the code give procedures exactly if the main one does. -/
theorem exists_main : ∃ e, Code.Writes (Compiler.web.compile {} template).code.main e ∧
    ((Compiler.web.compile {} template).failed = [] ↔ e.Acceptable) := by
  have hcode := compile_code (v := {}) rfl template
  rw [Compiled.failed]
  cases hroot : Overrides.root? {} template with
  | none =>
    have hempty : (Compiler.web.compile {} template).code = emptyCode := by rw [hcode, hroot]
    rw [hempty]
    have hstatics : List.Forall₂ Code.Writes emptyCode.statics [] := .nil
    refine ⟨_, writes_emptyCode, ?_⟩
    rw [Code.failedPieces_eq_nil_iff, Code.forall_interpret_iff writes_emptyCode hstatics]
    simp
  | some root =>
    rw [hroot] at hcode
    rw [hcode]
    have hclean := (clean_of_errors_eq_nil rfl hsize herrors hroot).2
    have hrootless := rootless_of_grown (root_grown rfl hroot).1
    have hconstant := constant_optimize (inert_override_web (v := {}) rfl rfl) hrootless
    refine ⟨_, hclean.means.main, ?_⟩
    rw [Code.failedPieces_eq_nil_iff,
      Code.forall_interpret_iff hclean.means.main hclean.means.statics]
    exact and_iff_left fun s hs => acceptable_of_mem_statics hclean hconstant hs

theorem render_eq_joined (data : Json.Value) :
    (Compiler.web.compile {} template).functions.render data =
      .ok (joined ((Compiler.web.compile {} template).pieces data)) := by
  unfold Compiled.pieces
  split
  · next hbuilt =>
    rw [render_functions herrors hsize hbuilt data]
    cases (Compiler.web.compile {} template).tree with
    | none =>
      have hempty : joined [.token (.comment "")] = Code.emptyNode :=
        (joined_singleton _).trans (written_comment "")
      exact congrArg Except.ok hempty.symm
    | some root => exact congrArg Except.ok (root.toNode.joined_pieces data).symm
  · next hfailed =>
    obtain ⟨e, hmain, hbuilt⟩ := exists_main hsize herrors
    exact Code.render_of_not_acceptable hmain (mt hbuilt.2 hfailed) _ data

end

/-- The names of attributes in what a template without errors renders, if none of them is in
brackets. What is rendered is put together from pieces, and a start tag among them repeats a name
exactly if its element stands and two bindings that it shows have one name, or one of them has the
name of a plain attribute. No names are repeated under any data if the names of the bindings other
than of classes and styles differ from each other and from those of plain attributes. The number of
bytes in the template fits 64 bits. -/
theorem distinct_attributeNames_iff {template : String}
    (hsize : Text.extent template.toList ≤ Json.maxSignificand)
    (herrors : (Compiler.web.compile {} template).errors = [])
    (hcomputed : ∀ root ∈ (Compiler.web.compile {} template).tree, ∀ e ∈ root.toNode.elements,
      ∀ b ∈ e.head.bindings, b.isComputed = false) :
    let compiled := Compiler.web.compile {} template
    (∀ data, compiled.functions.render data = .ok (joined (compiled.pieces data))) ∧
    (∀ data, (∀ tag ∈ startTags (compiled.pieces data), (tag.2.map Prod.fst).Nodup) ↔
      (compiled.failed = [] → ∀ head ∈ compiled.standing data, head.BindsApart data)) ∧
    ((∀ root ∈ compiled.tree, ∀ e ∈ root.toNode.elements, e.head.SpellsApart) →
      ∀ data, ∀ tag ∈ startTags (compiled.pieces data), (tag.2.map Prod.fst).Nodup) := by
  intro compiled
  have hnames : ∀ data, ∀ head ∈ compiled.standing data,
      (((head.attributes data).map Prod.fst).Nodup ↔ head.BindsApart data) ∧
        (head.SpellsApart → head.BindsApart data) ∧
        ∃ root ∈ compiled.tree, ∃ e ∈ root.toNode.elements, e.head = head := by
    intro data head hhead
    obtain ⟨-, root, hroot, e, he, rfl⟩ := read_of_mem_standing herrors hhead
    have hbindings := hcomputed root hroot e he
    exact ⟨Head.nodup_names_iff (plainApart_compiled rfl hroot he) hbindings,
      fun h => h.bindsApart hbindings, root, hroot, e, he, rfl⟩
  have htags : ∀ data, (∀ tag ∈ startTags (compiled.pieces data), (tag.2.map Prod.fst).Nodup) ↔
      (compiled.failed = [] → ∀ head ∈ compiled.standing data, head.BindsApart data) := by
    intro data
    rw [compiled.startTags_pieces]
    split
    · next hbuilt =>
      rw [List.forall_mem_map, imp_iff_right hbuilt]
      exact forall₂_congr fun head hhead => (hnames data head hhead).1
    · next hfailed => simp [hfailed]
  refine ⟨render_eq_joined hsize herrors, htags, fun happart data => (htags data).2 fun _ => ?_⟩
  intro head hhead
  obtain ⟨-, hspells, root, hroot, e, he, rfl⟩ := hnames data head hhead
  exact hspells (happart root hroot e he)

/-- Attributes of all kinds, some of them for one name, and markup from the data. -/
def sampleAttributes : String :=
  "<div id=\"a\" class=\"b\" :class=\"c\" v-bind:title=\"t\"><img :src=\"u\">" ++
    "<p v-html=\"m\"></p></div>"

theorem distinct_attributeNames_sample :
    let compiled := Compiler.web.compile {} sampleAttributes
    let data : Json.Value := .object [("c", .string "d"), ("t", .bool true), ("m", .string "<i>")]
    compiled.errors = [] ∧
      compiled.functions.render data =
        .ok "<div class=\"b d\" id=\"a\" title><img><p><i></p></div>" ∧
      (startTags (compiled.pieces data)).map (fun tag => tag.2.map Prod.fst) =
        [["class", "id", "title"], [], []] ∧
      ∀ data, ∀ tag ∈ startTags (compiled.pieces data), (tag.2.map Prod.fst).Nodup := by
  intro compiled data
  have hsize : Text.extent sampleAttributes.toList ≤ Json.maxSignificand := by decide +kernel
  obtain ⟨herrors, hcomputed, hspells, hhtml, hnames⟩ : compiled.errors = [] ∧
      (∀ root ∈ compiled.tree, ∀ e ∈ root.toNode.elements, ∀ b ∈ e.head.bindings,
        b.isComputed = false) ∧
      (∀ root ∈ compiled.tree, ∀ e ∈ root.toNode.elements, e.head.SpellsApart) ∧
      joined (compiled.pieces data) = "<div class=\"b d\" id=\"a\" title><img><p><i></p></div>" ∧
      (startTags (compiled.pieces data)).map (fun tag => tag.2.map Prod.fst) =
        [["class", "id", "title"], [], []] := by
    decide +kernel
  obtain ⟨hrender, -, hdistinct⟩ := distinct_attributeNames_iff hsize herrors hcomputed
  exact ⟨herrors, (hrender data).trans (congrArg Except.ok hhtml), hnames, hdistinct hspells⟩

/-- A name with and without a colon is not taken for one name. -/
theorem repeated_attributeName :
    let compiled := Compiler.web.compile {} "<div id=\"a\" :id=\"b\"></div>"
    let data : Json.Value := .object [("b", .string "x")]
    compiled.errors = [] ∧ compiled.tips = [] ∧
      (∀ root ∈ compiled.tree, ∀ e ∈ root.toNode.elements, ∀ a ∈ e.head.written,
        readBracketOpening? a.name.toList = none) ∧
      compiled.functions.render data = .ok "<div id=\"a\" id=\"x\"></div>" ∧
      ∃ tag ∈ startTags (compiled.pieces data), ¬ (tag.2.map Prod.fst).Nodup := by
  decide +kernel

end HtmlTemplate.Template
