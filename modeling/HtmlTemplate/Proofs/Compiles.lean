import HtmlTemplate.Proofs.Checked
import HtmlTemplate.Proofs.StartTags
import HtmlTemplate.Proofs.Totality

/-!
# What a compile for the web gives

A compile for the web is put together from the root of the template before it is optimized and from
the reports about that root (`compile_eq`): the check does not see whether the tree was optimized.
If there are no errors, the tree is clean, optimized or not (`clean_of_errors_eq_nil`), and its code
is read as it is meant (`Node.Clean.means`).
-/

namespace HtmlTemplate.Template

open HtmlTemplate.Code (Expr)
open HtmlTemplate.Text (trim)

/-- The last step before the code is generated. -/
def Options.finish (o : Options) (root : Element) : Element :=
  if o.optimize then root.optimize o.effectiveStaticKeys else root

theorem Options.unmark_finish (o : Options) (root : Element) :
    (o.finish root).toNode.unmark = root.toNode.unmark := by
  unfold finish
  split
  · exact root.unmark_optimize _
  · rfl

/-- The check does not see whether the tree was optimized. -/
theorem Options.check_finish (o : Options) (root : Element) :
    (o.finish root).check = root.check := by
  rw [Element.check, Element.check, ← Node.check_unmark, o.unmark_finish, Node.check_unmark]

theorem webBackend_tree (o : Options) (template : String) :
    (webBackend o template).1.tree = (tree o template).1.map o.finish := by
  unfold webBackend
  split <;> simp_all [Options.finish]

theorem webBackend_code (o : Options) (template : String) :
    (webBackend o template).1.code =
      ((webBackend o template).1.tree.map (Element.code o)).getD emptyCode := by
  unfold webBackend
  split <;> rfl

theorem webBackend_reports (o : Options) (template : String) :
    (webBackend o template).2 = (tree o template).2 := by
  unfold webBackend
  split <;> simp_all

namespace Compiler

/-- Both compilers for the web have its options and its backend. -/
theorem of_web {c : Compiler} (hc : c = .web ∨ c = .webUnchecked) :
    c.options = .web ∧ c.backend = webBackend := by
  rcases hc with rfl | rfl <;> exact ⟨rfl, rfl⟩

/-- What the check of a compiler says about the root, if there are both. -/
def checked (c : Compiler) (root : Option Element) : List Report :=
  match c.check, root with
  | some check, some e => check e
  | _, _ => []

/-- What there is to report, with positions in the template without outer blanks. -/
def reports (c : Compiler) (v : Overrides) (template : String) : List Report :=
  let (output, reports) := c.backend (c.optionsFor v) (trim template)
  reports ++ c.checked output.tree

/-- The number of blanks before the template, if positions are asked for. -/
def leading (c : Compiler) (v : Overrides) (template : String) : Option Nat :=
  if (c.optionsFor v).givePositions then
    some (Text.extent (Text.leadingBlanks template.toList))
  else none

theorem compile_diagnostics (c : Compiler) (v : Overrides) (template : String) :
    (c.compile v template).errors =
        (Diagnostics.of (c.leading v template) (c.reports v template)).errors ∧
      (c.compile v template).tips =
        (Diagnostics.of (c.leading v template) (c.reports v template)).tips :=
  ⟨rfl, rfl⟩

end Compiler

namespace Overrides

/-- The root before the tree is optimized. -/
def root? (v : Overrides) (template : String) : Option Element :=
  (tree (Options.web.override v) (trim template)).1

/-- What there is to report, with positions in the template without outer blanks. -/
def reports (v : Overrides) (template : String) : List Report :=
  (tree (Options.web.override v) (trim template)).2 ++
    ((v.root? template).map Element.check).getD []

/-- The number of blanks before the template, if positions are asked for. -/
def leading (v : Overrides) (template : String) : Option Nat :=
  if (Options.web.override v).givePositions then
    some (Text.extent (Text.leadingBlanks template.toList))
  else none

/-- The last step before the code is generated. -/
def finish (v : Overrides) (root : Element) : Element :=
  if (Options.web.override v).optimize then
    root.optimize (Options.web.override v).effectiveStaticKeys
  else root

/-- The tree and the code of a compile. -/
def output (v : Overrides) (template : String) : Output where
  tree := (v.root? template).map v.finish
  code := ((v.root? template).map fun root =>
    (v.finish root).code (Options.web.override v)).getD emptyCode

end Overrides

variable {v : Overrides} {template : String}

theorem Overrides.unmark_finish (v : Overrides) (root : Element) :
    (v.finish root).toNode.unmark = root.toNode.unmark :=
  (Options.web.override v).unmark_finish root

theorem Overrides.check_finish (v : Overrides) (root : Element) :
    (v.finish root).check = root.check :=
  (Options.web.override v).check_finish root

theorem webBackend_eq (v : Overrides) (template : String) :
    webBackend (Options.web.override v) (trim template) =
      (v.output template, (tree (Options.web.override v) (trim template)).2) := by
  unfold webBackend Overrides.output Overrides.root?
  split <;> simp_all [Overrides.finish]

/-- A compile for the web, with its reports told from the tree that is not optimized. -/
theorem compile_eq (v : Overrides) (template : String) :
    Compiler.web.compile v template =
      ⟨(v.output template).tree, (v.output template).code,
        (Diagnostics.of (v.leading template) (v.reports template)).errors,
        (Diagnostics.of (v.leading template) (v.reports template)).tips⟩ := by
  have hbackend := webBackend_eq v template
  unfold Compiler.compile Overrides.reports
  simp only [Compiler.optionsFor, Compiler.web, hbackend]
  cases hroot : v.root? template with
  | none =>
    simp only [Overrides.output, hroot, Option.map_none, Option.getD_none]
    rfl
  | some root =>
    simp only [Overrides.output, hroot, Option.map_some, Option.getD_some, v.check_finish]
    rfl

/-! ### Clean trees -/

/-- What is known of a tree that was compiled without errors. -/
structure Node.Clean (n : Node) : Prop where
  height : n.height ≤ nestingLimit
  few : n.elements.length ≤ Json.maxSignificand
  hoisted : n.Hoisted
  spliced : ∀ u ∈ n.spliced, expressionFault? u = none
  supplied : ∀ u ∈ n.supplied, u.isEmpty = true ∨ expressionFault? u = none

theorem Node.clean_of_unmark {n m : Node} (h : n.unmark = m.unmark) (hm : m.Clean)
    (hhoisted : n.Hoisted) : n.Clean := by
  have hheight : n.height = m.height := by rw [← n.height_unmark, h, m.height_unmark]
  have hlength : n.elements.length = m.elements.length := by
    have helements := congrArg List.length (congrArg Node.elements h)
    simpa [elements_unmark] using helements
  have hspliced : n.spliced = m.spliced := by rw [← n.spliced_unmark, h, m.spliced_unmark]
  have hsupplied : n.supplied = m.supplied := by rw [← n.supplied_unmark, h, m.supplied_unmark]
  exact ⟨hheight ▸ hm.height, hlength ▸ hm.few, hhoisted, hspliced ▸ hm.spliced,
    hsupplied ▸ hm.supplied⟩

theorem length_trim_le (s : String) : (trim s).toList.length ≤ s.toList.length := by
  obtain ⟨trailing, htrailing⟩ := Text.exists_append_trim s
  have hlength := congrArg List.length htrailing
  simp only [List.length_append] at hlength
  omega

theorem root_grown (hmodules : v.modules = []) {root : Element}
    (hroot : v.root? template = some root) :
    root.toNode.Grown Head.IsUnmarked 0 ∧ root.toNode.elements.length ≤ Text.extent template.toList := by
  have hmodest := modest_override_web hmodules
  obtain ⟨hgrown, hcount⟩ := grown_tree (keepsMarks_override_web hmodules) hroot
  have hstarts := Markup.countP_isStart_parse_le (Options.web.override v).markup (trim template)
  have htrim := length_trim_le template
  have hextent := Text.length_le_extent template.toList
  exact ⟨hgrown, by omega⟩

theorem clean_of_errors_eq_nil (hmodules : v.modules = [])
    (hsize : Text.extent template.toList ≤ Json.maxSignificand)
    (herrors : (Compiler.web.compile v template).errors = []) {root : Element}
    (hroot : v.root? template = some root) :
    root.toNode.Clean ∧ (v.finish root).toNode.Clean := by
  obtain ⟨hgrown, hcount⟩ := root_grown hmodules hroot
  have hrootless := rootless_of_grown hgrown
  rw [compile_eq, Diagnostics.errors_of_eq_nil_iff] at herrors
  have hcheck : root.toNode.check = [] := by
    apply List.eq_nil_iff_forall_not_mem.2
    intro r hr
    have hfalse := herrors r (by simp [Overrides.reports, hroot, Element.check, hr])
    rw [Node.isError_of_mem_check hr] at hfalse
    cases hfalse
  have hclean : root.toNode.Clean :=
    ⟨hgrown.height, by omega, Node.hoisted_of_rootless hrootless,
      Node.spliced_accepted_of_check hcheck, Node.supplied_accepted_of_check hcheck⟩
  refine ⟨hclean, Node.clean_of_unmark (v.unmark_finish root) hclean ?_⟩
  unfold Overrides.finish
  split
  · exact hoisted_optimize _ hrootless
  · exact Node.hoisted_of_rootless hrootless

/-- The code of a clean tree is read as it is meant. -/
theorem Node.Clean.means {n : Node} (h : n.Clean) :
    (n.code Options.web.directives 0).Means (n.intent 0) := by
  apply Node.means_intent
  · exact fun u hu => writes_of_fault? (h.spliced u hu)
  · exact fun u hu => (h.supplied u hu).imp_right writes_of_fault?
  · have hlength := n.length_statics_le 0
    have := h.few
    omega

/-! ### Procedures of a compile -/

/-- The procedures for the code of a compile. -/
def Compiled.functions (c : Compiled) : Code.Functions :=
  Code.buildFunctions Code.interpret c.code.main c.code.statics

/-- The pieces of the code of a compile that give no procedure. -/
def Compiled.failed (c : Compiled) : List Code.Failed :=
  Code.failedPieces Code.interpret c.code.main c.code.statics

theorem writes_emptyCode : Code.Writes emptyCode.main (.call "_e" [] 0) :=
  writes_nullary "_e(" "_e" rfl (by decide)

theorem acceptable_empty : (Expr.call "_e" [] 0).Acceptable := ⟨by decide, rfl⟩

theorem compile_tree (v : Overrides) (template : String) :
    (Compiler.web.compile v template).tree = (v.root? template).map v.finish := by
  rw [compile_eq, Overrides.output]

/-- Without a root the code of a compile is an empty node; else it is the code of the tree. -/
theorem compile_code (hdirectives : v.directives = []) (template : String) :
    (Compiler.web.compile v template).code =
      match v.root? template with
      | none => emptyCode
      | some root => (v.finish root).toNode.code Options.web.directives 0 := by
  have hweb : (Options.web.override v).directives = Options.web.directives := by
    rw [Options.override, hdirectives]
    rfl
  rw [compile_eq, Overrides.output]
  cases v.root? template with
  | none => rfl
  | some root => simp only [Option.map_some, Option.getD_some, Element.code, hweb]

end HtmlTemplate.Template
