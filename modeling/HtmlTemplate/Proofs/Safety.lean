import HtmlTemplate.Proofs.Compiles
import HtmlTemplate.Template.Sample

/-!
# Rendering does not fail

The procedures of a template that was compiled without errors render under any data
(`exists_render_of_errors_eq_nil`): their helpers always get what they expect, every static
procedure that is called is there, and static procedures do not run inside others. A procedure that
had to be replaced by a blank one renders nothing, which is no failure either.
-/

namespace HtmlTemplate.Template

open HtmlTemplate.Code (Expr)

theorem render_emptyCode (data : Json.Value) :
    (Code.buildFunctions Code.interpret emptyCode.main emptyCode.statics).render data =
      .ok Code.emptyNode := by
  rw [Code.Functions.render, Code.buildFunctions,
    (Code.buildOrBlank_of_acceptable writes_emptyCode acceptable_empty).2]
  exact Expr.render_of_evaluates (Expr.eval_call "_e" .empty rfl (by decide) .nil)

/-- The procedures of a clean tree render under any data, those that are blank included. -/
theorem Node.Clean.exists_render {n : Node} (h : n.Clean) {code : Code}
    (hmeans : code.Means (n.intent 0)) (data : Json.Value) :
    ∃ html, (Code.buildFunctions Code.interpret code.main code.statics).render data =
      .ok html := by
  have hstatics : ∀ i < (n.intent 0).statics.length, ∃ html,
      Code.runStatic (Code.buildFunctions Code.interpret code.main code.statics).statics data
        Code.staticNestingLimit (0 + i) = .ok html := by
    intro i hi
    rw [Nat.zero_add]
    apply Code.exists_runStatic hmeans.statics _ 63 hi
    intro e he hok callStatic
    exact exists_render_of_mem_statics h.spliced h.supplied h.hoisted he hok.2
  by_cases hok : (n.intent 0).main.Acceptable
  · obtain ⟨html, hhtml⟩ : ∃ html, Code.Evaluates data _ (n.intent 0).main (.markup html) :=
      Node.exists_evaluates_intent h.spliced h.supplied hok.2 hstatics
    refine ⟨html, ?_⟩
    rw [Code.Functions.render, Code.buildFunctions,
      (Code.buildOrBlank_of_acceptable hmeans.main hok).2]
    exact Expr.render_of_evaluates hhtml
  · exact ⟨"", Code.render_of_not_acceptable hmeans.main hok code.statics data⟩

/-- A template whose tree, if it has one, is clean renders under any data. -/
theorem exists_render_of_clean {v : Overrides} (hdirectives : v.directives = []) {template : String}
    (hclean : ∀ root, v.root? template = some root → (v.finish root).toNode.Clean)
    (data : Json.Value) :
    ∃ html, (Compiler.web.compile v template).functions.render data = .ok html := by
  rw [Compiled.functions, compile_code hdirectives]
  cases hroot : v.root? template with
  | none => exact ⟨_, render_emptyCode data⟩
  | some root => exact (hclean root hroot).exists_render (hclean root hroot).means data

/-- The procedures of a template that was compiled without errors render under any data. The number
of bytes in a text fits 64 bits, as every number does that the code can hold. -/
theorem exists_render_of_errors_eq_nil {v : Overrides} (hmodules : v.modules = [])
    (hdirectives : v.directives = []) {template : String}
    (hsize : Text.extent template.toList ≤ Json.maxSignificand)
    (herrors : (Compiler.web.compile v template).errors = []) (data : Json.Value) :
    ∃ html, (Compiler.web.compile v template).functions.render data = .ok html :=
  exists_render_of_clean hdirectives
    (fun _ hroot => (clean_of_errors_eq_nil hmodules hsize herrors hroot).2) data

/-- The sample, of which a part is hoisted, renders under any data. -/
theorem exists_render_sample :
    (Compiler.web.compile {} sampleBlock).code.statics.length = 1 ∧
      ∀ data, ∃ html, (Compiler.web.compile {} sampleBlock).functions.render data = .ok html := by
  have hsize : Text.extent sampleBlock.toList ≤ Json.maxSignificand := by decide +kernel
  obtain ⟨herrors, hlength⟩ : (Compiler.web.compile {} sampleBlock).errors = [] ∧
      (Compiler.web.compile {} sampleBlock).code.statics.length = 1 := by
    decide +kernel
  exact ⟨hlength, exists_render_of_errors_eq_nil rfl rfl hsize herrors⟩

end HtmlTemplate.Template
