import HtmlTemplate.Proofs.Compiles
import HtmlTemplate.Session.Notice
import HtmlTemplate.Template.Sample

/-!
# Which templates give procedures

A compile without errors does not mean that all of its code gives procedures. The code of a clean
tree does so exactly if the tree fits (`Node.Clean.forall_interpret_iff`): every directive that
supplies children has a value, which the check does not ask for, and the code is not nested too
deep, although every expression in it can be read on its own. If all expressions are nested at most
600 deep, only the values remain to be asked for (`Node.within_depthLimit`).
-/

namespace HtmlTemplate.Template

open HtmlTemplate.Code (Expr)

/-- All code of the tree gives procedures. -/
structure Node.Fits (n : Node) : Prop where
  values : ∀ u ∈ n.supplied, u.isEmpty = false
  depth : (n.intent 0).Within Code.depthLimit

theorem Node.Clean.forall_interpret_iff {n : Node} (h : n.Clean) {code : Code}
    (hmeans : code.Means (n.intent 0)) :
    (∀ c ∈ code.main :: code.statics, ∃ p, Code.interpret c = .ok p) ↔ n.Fits := by
  have hcalls := Node.wellCalled_intent h.spliced h.supplied 0
  rw [Code.forall_interpret_iff hmeans.main hmeans.statics]
  constructor
  · rintro ⟨⟨hdepth, hmain⟩, hstatics⟩
    constructor
    · exact hcalls.1 ⟨hmain, fun e he => (hstatics e he).2⟩
    · exact ⟨hdepth, fun e he => (hstatics e he).1⟩
  · rintro ⟨hvalues, hdepth, hdepths⟩
    obtain ⟨hmain, hstatics⟩ := hcalls.2 hvalues
    constructor
    · exact ⟨hdepth, hmain⟩
    · exact fun e he => ⟨hdepths e he, hstatics e he⟩

/-! ### What a compile leaves behind -/

theorem Compiled.blank_notMem_iff (c : Compiled) :
    Code.Procedure.blank ∉ c.functions.main :: c.functions.statics ↔
      ∀ code ∈ c.code.main :: c.code.statics, ∃ p, Code.interpret code = .ok p := by
  have hprocedures : c.functions.main :: c.functions.statics =
      (c.code.main :: c.code.statics).map fun code =>
        (Code.buildOrBlank Code.interpret code).1 := rfl
  rw [hprocedures, List.mem_map]
  push Not
  exact forall₂_congr fun code _ => Code.buildOrBlank_ne_blank_iff

/-- Without errors every piece that failed is told of. -/
theorem Compiled.failureMessages_eq_nil_iff {c : Compiled} (herrors : c.errors = []) :
    Session.failureMessages c.errors c.failed = [] ↔
      ∀ code ∈ c.code.main :: c.code.statics, ∃ p, Code.interpret code = .ok p := by
  have hfailed : c.failed = [] ↔ _ := Code.failedPieces_eq_nil_iff
  rw [← hfailed, Session.failureMessages, herrors]
  cases c.failed <;> simp

theorem forall_interpret_compile_iff {v : Overrides} (hmodules : v.modules = [])
    (hdirectives : v.directives = []) {template : String}
    (hsize : Text.extent template.toList ≤ Json.maxSignificand)
    (herrors : (Compiler.web.compile v template).errors = []) :
    (∀ code ∈ (Compiler.web.compile v template).code.main ::
        (Compiler.web.compile v template).code.statics, ∃ p, Code.interpret code = .ok p) ↔
      ∀ root ∈ (Compiler.web.compile v template).tree, root.toNode.Fits := by
  rw [compile_code hdirectives, compile_tree]
  cases hroot : v.root? template with
  | none =>
    have hempty := (Code.forall_interpret_iff writes_emptyCode .nil).2 ⟨acceptable_empty, by simp⟩
    exact iff_of_true hempty (by simp)
  | some root =>
    have hclean := (clean_of_errors_eq_nil hmodules hsize herrors hroot).2
    simpa using hclean.forall_interpret_iff hclean.means

/-- A compile without errors gives procedures for all of its code exactly if its tree fits. Exactly
then no procedure is blank, and nothing is said about code that gave none. With expressions nested
at most 600 deep it takes no more than a value for every directive that supplies children. The
number of bytes in a text fits 64 bits. -/
theorem built_iff_fits {v : Overrides} (hmodules : v.modules = [])
    (hdirectives : v.directives = []) {template : String}
    (hsize : Text.extent template.toList ≤ Json.maxSignificand)
    (herrors : (Compiler.web.compile v template).errors = []) :
    let compiled := Compiler.web.compile v template
    ((∀ code ∈ compiled.code.main :: compiled.code.statics, ∃ p, Code.interpret code = .ok p) ↔
        ∀ root ∈ compiled.tree, root.toNode.Fits) ∧
      (Code.Procedure.blank ∉ compiled.functions.main :: compiled.functions.statics ↔
        ∀ root ∈ compiled.tree, root.toNode.Fits) ∧
      (Session.failureMessages compiled.errors compiled.failed = [] ↔
        ∀ root ∈ compiled.tree, root.toNode.Fits) ∧
      ∀ root ∈ compiled.tree,
        (∀ u ∈ root.toNode.spliced ++ root.toNode.supplied, (userExpr u).depth ≤ 600) →
          (root.toNode.Fits ↔ ∀ u ∈ root.toNode.supplied, u.isEmpty = false) := by
  have hfits := forall_interpret_compile_iff hmodules hdirectives hsize herrors
  refine ⟨hfits, ?_, ?_, ?_⟩
  · rw [Compiled.blank_notMem_iff, hfits]
  · rw [Compiled.failureMessages_eq_nil_iff herrors, hfits]
  · intro root hroot hdepth
    rw [compile_tree] at hroot
    obtain ⟨plain, hplain, rfl⟩ := Option.map_eq_some_iff.1 hroot
    have hclean := (clean_of_errors_eq_nil hmodules hsize herrors hplain).2
    constructor
    · intro h
      exact h.values
    · intro h
      exact ⟨h, Node.within_depthLimit hclean.height hdepth 0⟩

/-- A part of the sample is hoisted, and all of its code gives procedures. -/
theorem built_iff_fits_sample :
    (Compiler.web.compile {} sampleBlock).code.statics.length = 1 ∧
      ∀ root ∈ (Compiler.web.compile {} sampleBlock).tree, root.toNode.Fits := by
  have hsize : Text.extent sampleBlock.toList ≤ Json.maxSignificand := by decide +kernel
  obtain ⟨herrors, hlength, hsaid⟩ : (Compiler.web.compile {} sampleBlock).errors = [] ∧
      (Compiler.web.compile {} sampleBlock).code.statics.length = 1 ∧
      Session.failureMessages (Compiler.web.compile {} sampleBlock).errors
        (Compiler.web.compile {} sampleBlock).failed = [] := by
    decide +kernel
  exact ⟨hlength, (built_iff_fits rfl rfl hsize herrors).2.2.1.1 hsaid⟩

/-- The check lets a directive without a value pass, yet its code calls a helper without an
argument. -/
theorem not_built_text_without_value :
    let compiled := Compiler.web.compile {} "<p v-text></p>"
    compiled.errors = [] ∧
      Session.failureMessages compiled.errors compiled.failed =
        ["Failed to generate render function:\n\n" ++
          "TypeError: _s expects 1 argument(s), got 0 in\n\n_c(\"p\",[],[_v(_s())])\n"] := by
  decide +kernel

end HtmlTemplate.Template
