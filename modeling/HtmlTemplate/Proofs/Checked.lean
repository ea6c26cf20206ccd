import HtmlTemplate.Proofs.Correctness
import HtmlTemplate.Proofs.Hoisting
import HtmlTemplate.Template.Compile

/-!
# Compiles without errors

The check of a tree reports errors only, so a compile without errors has a tree in which every
expression of the template was checked: it may stand in a template, but for a directive without any
value (`Node.Clean`). The check does not depend on whether the tree is optimized.
-/

namespace HtmlTemplate

/-! ### Reports -/

theorem Report.isError_relocate (leading : Option Nat) (r : Report) :
    (r.relocate leading).isError = r.isError := by
  cases leading <;> rfl

theorem Diagnostics.errors_of_eq_nil_iff {leading : Option Nat} {reports : List Report} :
    (Diagnostics.of leading reports).errors = [] ↔ ∀ r ∈ reports, r.isError = false := by
  simp [Diagnostics.of, List.filter_eq_nil_iff, Report.isError_relocate]

end HtmlTemplate

namespace HtmlTemplate.Template

open HtmlTemplate.Code (Expr)
open HtmlTemplate.Text (trim)

/-! ### What the check says -/

theorem checkExpression_eq_nil_iff {expression written : String} {span : Option Span} :
    checkExpression expression written span = [] ↔ expressionFault? expression = none := by
  unfold checkExpression
  split <;> simp_all

theorem isError_of_mem_checkExpression {expression written : String} {span : Option Span}
    {r : Report} (h : r ∈ checkExpression expression written span) : r.isError = true := by
  unfold checkExpression at h
  split at h
  · cases h
  · rw [List.mem_singleton.1 h]
    rfl

theorem Binding.isError_of_mem_check {b : Binding} {r : Report} (h : r ∈ b.check) :
    r.isError = true := by
  rcases List.mem_append.1 h with h | h
  · split at h
    · exact isError_of_mem_checkExpression h
    · cases h
  · exact isError_of_mem_checkExpression h

theorem Directive.isError_of_mem_check {d : Directive} {r : Report} (h : r ∈ d.check) :
    r.isError = true := by
  unfold check at h
  split at h
  · cases h
  · exact isError_of_mem_checkExpression h

theorem Head.isError_of_mem_check {head : Head} {r : Report} (h : r ∈ head.check) :
    r.isError = true := by
  rcases List.mem_append.1 h with h | h
  · rcases List.mem_append.1 h with h | h
    · rcases List.mem_flatMap.1 h with ⟨b, -, h⟩
      exact b.isError_of_mem_check h
    · unfold checkCondition at h
      split at h
      · cases h
      · exact isError_of_mem_checkExpression h
  · rcases List.mem_flatMap.1 h with ⟨d, -, h⟩
    exact d.isError_of_mem_check h

/-- The check of a tree gives no tips. -/
theorem Node.isError_of_mem_check {n : Node} {r : Report} (h : r ∈ n.check) :
    r.isError = true := by
  induction n using Node.induction with
  | comment content span => cases h
  | text run =>
    rcases List.mem_flatMap.1 h with ⟨p, -, h⟩
    cases p with
    | fixed text => cases h
    | expression code => exact isError_of_mem_checkExpression h
  | element head children ih =>
    rw [check, checkAll_eq] at h
    rcases List.mem_append.1 h with h | h
    · exact head.isError_of_mem_check h
    · rcases List.mem_flatMap.1 h with ⟨n, hn, h⟩
      exact ih n hn h

theorem Binding.accepted_of_check {b : Binding} (h : b.check = []) :
    (b.isComputed = true → expressionFault? b.name = none) ∧
      expressionFault? b.expression = none := by
  obtain ⟨hname, hexpression⟩ := List.append_eq_nil_iff.1 h
  constructor
  · intro hcomputed
    rw [if_pos hcomputed] at hname
    exact checkExpression_eq_nil_iff.1 hname
  · exact checkExpression_eq_nil_iff.1 hexpression

/-- A directive that supplies children is not skipped by the check unless it has no value. -/
theorem Directive.accepted_of_check {d : Directive} (hname : d.name = "html" ∨ d.name = "text")
    (h : d.check = []) : d.value.isEmpty = true ∨ expressionFault? d.value = none := by
  have hchecked : uncheckedDirectives.contains d.name = false := by
    rcases hname with hname | hname <;> rw [hname] <;> decide
  rw [check, hchecked, Bool.false_or] at h
  split at h
  · next hempty => exact .inl hempty
  · exact .inr (checkExpression_eq_nil_iff.1 h)

namespace Head

variable {head : Head} (h : head.check = [])
include h

theorem spliced_accepted_of_check : ∀ u ∈ head.spliced, expressionFault? u = none := by
  obtain ⟨⟨hbindings, hcondition⟩, -⟩ : (head.bindings.flatMap Binding.check = [] ∧
      head.checkCondition = []) ∧ head.directives.flatMap Directive.check = [] := by
    simpa only [check, List.append_eq_nil_iff] using h
  have hbinding : ∀ b ∈ head.bindings, b.check = [] := List.flatMap_eq_nil_iff.1 hbindings
  have hmerged : ∀ name, ∀ b ∈ head.binding? name, expressionFault? b.expression = none := by
    intro name b hb
    exact (b.accepted_of_check (hbinding b (List.mem_of_find?_eq_some hb))).2
  intro u hu
  simp only [spliced, List.mem_append, List.mem_map, Option.mem_toList, List.mem_flatMap] at hu
  rcases hu with (⟨b, hb | hb, rfl⟩ | ⟨b, hb, hu⟩) | hu
  · exact hmerged "class" b hb
  · exact hmerged "style" b hb
  · obtain ⟨hname, hexpression⟩ := b.accepted_of_check (hbinding b hb)
    unfold Binding.spliced at hu
    split at hu
    · next hcomputed =>
      simp only [List.mem_cons, List.not_mem_nil, or_false] at hu
      rcases hu with rfl | rfl
      · exact hname hcomputed
      · exact hexpression
    · split at hu
      · cases hu
      · rw [List.mem_singleton.1 hu]
        exact hexpression
  · rw [checkCondition, Option.mem_def.1 hu] at hcondition
    exact checkExpression_eq_nil_iff.1 hcondition

theorem supplier_accepted_of_check : ∀ d ∈ head.supplier?,
    d.value.isEmpty = true ∨ expressionFault? d.value = none := by
  have hdirectives : head.directives.flatMap Directive.check = [] :=
    (List.append_eq_nil_iff.1 h).2
  intro d hd
  have hname : d.name = "html" ∨ d.name = "text" := by
    simpa using List.find?_some hd
  apply d.accepted_of_check hname
  exact List.flatMap_eq_nil_iff.1 hdirectives d (List.mem_of_find?_eq_some hd)

end Head

theorem Node.check_of_generated {n m : Node} (h : n.check = []) (hm : m ∈ n.generated) :
    m.check = [] := by
  induction n using Node.induction with
  | text run =>
    rw [List.mem_singleton.1 hm]
    exact h
  | comment content span =>
    rw [List.mem_singleton.1 hm]
    exact h
  | element head children ih =>
    rw [generated] at hm
    rcases List.mem_cons.1 hm with rfl | hm
    · exact h
    · rw [check, checkAll_eq] at h
      have hchildren := List.flatMap_eq_nil_iff.1 (List.append_eq_nil_iff.1 h).2
      split at hm
      · rw [generatedAll_eq] at hm
        rcases List.mem_flatMap.1 hm with ⟨n, hn, hm⟩
        exact ih n hn (hchildren n hn) hm
      · cases hm

/-- The check covers all expressions that stand in the code. -/
theorem Node.spliced_accepted_of_check {n : Node} (h : n.check = []) :
    ∀ u ∈ n.spliced, expressionFault? u = none := by
  intro u hu
  rcases List.mem_flatMap.1 hu with ⟨m, hm, hu⟩
  have hcheck := check_of_generated h hm
  cases m with
  | comment content span => cases hu
  | text run =>
    rcases List.mem_flatMap.1 hu with ⟨p, hp, hu⟩
    cases p with
    | fixed text => cases hu
    | expression code =>
      rw [List.mem_singleton.1 hu]
      exact checkExpression_eq_nil_iff.1 (List.flatMap_eq_nil_iff.1 hcheck _ hp)
  | element head children =>
    exact head.spliced_accepted_of_check (List.append_eq_nil_iff.1 hcheck).1 u hu

/-- The check covers all values that supply children, if there are any. -/
theorem Node.supplied_accepted_of_check {n : Node} (h : n.check = []) :
    ∀ u ∈ n.supplied, u.isEmpty = true ∨ expressionFault? u = none := by
  intro u hu
  rcases List.mem_flatMap.1 hu with ⟨m, hm, hu⟩
  have hcheck := check_of_generated h hm
  cases m with
  | comment content span => cases hu
  | text run => cases hu
  | element head children =>
    rcases List.mem_map.1 hu with ⟨d, hd, rfl⟩
    exact head.supplier_accepted_of_check (List.append_eq_nil_iff.1 hcheck).1 d
      (Option.mem_toList.1 hd)

end HtmlTemplate.Template
