import HtmlTemplate.Proofs.Calls
import HtmlTemplate.Proofs.Growth
import HtmlTemplate.Proofs.Procedures
import HtmlTemplate.Proofs.ReadBack
import HtmlTemplate.Proofs.Rendering
import HtmlTemplate.Template.Sample

/-!
# The code of a template renders its tree

The code that is generated for the tree of a template gives a procedure, and whatever the data, the
procedure renders what the tree looks like (`render_code_eq_render`). The expressions of the
template cannot interact with the code around them: on the side of the tree each of them is read
and evaluated on its own.
-/

namespace HtmlTemplate.Template

open HtmlTemplate.Code (Expr)

theorem exists_parse_of_fault? {u : String} (h : expressionFault? u = none) :
    ∃ e, Code.parse u = .ok e := by
  unfold expressionFault? at h
  split at h
  · cases h
  · next e he => exact ⟨e, he⟩

theorem writes_of_fault? {u : String} (h : expressionFault? u = none) :
    Code.Writes u (userExpr u) := by
  obtain ⟨e, he⟩ := exists_parse_of_fault? h
  exact writes_userExpr he

/-- What an override leaves alone: the modules and the directives of the web. -/
theorem override_web {v : Overrides} (hmodules : v.modules = []) (hdirectives : v.directives = []) :
    (Options.web.override v).modules = [classModule, styleModule] ∧
      (Options.web.override v).directives = Options.web.directives := by
  constructor
  · rw [Options.override, hmodules, List.append_nil]
    rfl
  · rw [Options.override, hdirectives]
    rfl

theorem keepsMarks_override_web {v : Overrides} (hmodules : v.modules = []) :
    ∀ m ∈ (Options.web.override v).modules, m.Keeps Head.marks :=
  forall_mem_modules_web hmodules (keeps_takingModule _ (fun _ => rfl) fun _ _ => rfl)
    (keeps_takingModule _ (fun _ => rfl) fun _ _ => rfl)

/-- The tree that is not optimized: all of its code is one piece. -/
theorem rootless_of_grown {n : Node} (h : n.Grown Head.IsUnmarked 0) : Rootless n.elements :=
  fun e he => (h.heads e he).2

section

variable {n : Node} (hrootless : Rootless n.elements)
  (hexpressions : ∀ u ∈ n.spliced ++ n.supplied, expressionFault? u = none)
include hrootless hexpressions

theorem Node.means_of_rootless : (n.code Options.web.directives 0).Means (n.intent 0) := by
  obtain ⟨hspliced, hsupplied⟩ := List.forall_mem_append.1 hexpressions
  apply Node.means_intent
  · exact fun u hu => writes_of_fault? (hspliced u hu)
  · exact fun u hu => .inr (writes_of_fault? (hsupplied u hu))
  · rw [Node.statics_intent hrootless 0]
    exact Nat.zero_le _

theorem Node.evaluates_of_rootless (data : Json.Value)
    (callStatic : Nat → Except Code.RenderFailure String) :
    Code.Evaluates data callStatic (n.intent 0).main (.markup (n.render data)) := by
  obtain ⟨hspliced, hsupplied⟩ := List.forall_mem_append.1 hexpressions
  apply Node.evaluates_intent hspliced hsupplied
  · intro r hr hroot
    rw [hrootless r hr] at hroot
    cases hroot
  · rw [Node.statics_intent hrootless 0]
    exact runsStatics_nil 0

end

theorem Node.acceptable_of_expressions {n : Node} (hheight : n.height ≤ nestingLimit)
    (hexpressions : ∀ u ∈ n.spliced ++ n.supplied,
      expressionFault? u = none ∧ (userExpr u).depth ≤ 600) : (n.intent 0).main.Acceptable := by
  obtain ⟨hspliced, hsupplied⟩ := List.forall_mem_append.1 hexpressions
  have hwithin := Node.within_depthLimit hheight (fun u hu => (hexpressions u hu).2) 0
  have hcalls := Node.wellCalled_intent (fun u hu => (hspliced u hu).1)
    (fun u hu => .inr (hsupplied u hu).1) 0
  have hvalues : ∀ u ∈ n.supplied, u.isEmpty = false :=
    fun u hu => isEmpty_eq_false_of_fault? (hsupplied u hu).1
  exact ⟨hwithin.1, (hcalls.2 hvalues).1⟩

/-- The compiler is correct: the code of a tree, one piece as long as nothing is hoisted, gives a
procedure, and the procedure renders the tree. All expressions that stand in the code may stand in
a template and are nested at most 600 deep. -/
theorem render_code_eq_render {v : Overrides} (hmodules : v.modules = [])
    (hdirectives : v.directives = []) {template : String} {root : Element}
    (htree : (tree (Options.web.override v) template).1 = some root)
    (hexpressions : ∀ u ∈ root.toNode.spliced ++ root.toNode.supplied,
      expressionFault? u = none ∧ (userExpr u).depth ≤ 600) :
    (root.code (Options.web.override v)).statics = [] ∧
      ∃ p, Code.interpret (root.code (Options.web.override v)).main = .ok p ∧
        ∀ (statics : List Code.Procedure) (data : Json.Value),
          (Code.Functions.mk p statics).render data = .ok (root.toNode.render data) := by
  have hmodest := modest_override_web hmodules
  have hgrown := (grown_tree (keepsMarks_override_web hmodules) htree).1
  have hrootless := rootless_of_grown hgrown
  have haccepted : ∀ u ∈ root.toNode.spliced ++ root.toNode.supplied, expressionFault? u = none :=
    fun u hu => (hexpressions u hu).1
  rw [Element.code, (override_web hmodules hdirectives).2]
  have hmeans := Node.means_of_rootless hrootless haccepted
  have hok := Node.acceptable_of_expressions hgrown.height hexpressions
  constructor
  · have hstatics := hmeans.statics
    rw [Node.statics_intent hrootless 0] at hstatics
    exact List.forall₂_nil_right_iff.1 hstatics
  · obtain ⟨e, he, hbare⟩ := Code.interpret_of_acceptable hmeans.main hok
    refine ⟨.code e, he, ?_⟩
    intro statics data
    rw [Code.Functions.render, Code.Procedure.run, ← Expr.render_bare, hbare]
    exact Expr.render_of_evaluates (Node.evaluates_of_rootless hrootless haccepted data _)

/-- The code of the sample renders the sample. -/
theorem render_code_eq_render_sample :
    ∃ root, (tree (Options.web.override {}) sampleBlock).1 = some root ∧
      (root.code (Options.web.override {})).statics = [] ∧
      ∃ p, Code.interpret (root.code (Options.web.override {})).main = .ok p ∧
        ∀ (statics : List Code.Procedure) (data : Json.Value),
          (Code.Functions.mk p statics).render data = .ok (root.toNode.render data) := by
  have hsome : (tree (Options.web.override {}) sampleBlock).1.isSome = true := by
    decide +kernel
  exact ⟨_, (Option.some_get hsome).symm,
    render_code_eq_render rfl rfl (Option.some_get hsome).symm (by decide +kernel +revert)⟩

end HtmlTemplate.Template
