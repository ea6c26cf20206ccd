import HtmlTemplate.Proofs.Evaluation
import HtmlTemplate.Proofs.Intent

/-!
# What generated expressions are made of

The text and the attributes of a tree are put together from fixed texts and from expressions of the
template by a few calls. `Made` says so, with the number of levels above the parts. How deep such an
expression is (`Made.depth_le`) and whether its calls are as they should be (`Made.wellCalled`) can
be told from the parts.
-/

namespace HtmlTemplate.Template

open HtmlTemplate.Code (Expr Helper depthAll)

/-- Put together from texts and from the given expressions of a template, at most so many levels
above them. -/
inductive Made (users : List String) : Nat → Expr → Prop
  | text (s : String) {levels : Nat} : Made users levels (textExpr s)
  | user {u : String} {levels : Nat} : u ∈ users → Made users levels (userExpr u)
  | call (name : String) (helper : Helper) {arguments : List Expr} {levels : Nat} :
      Helper.named? name = some helper → helper.arity.admits arguments.length = true →
      (∀ e ∈ arguments, Made users levels e) → Made users (levels + 1) (.call name arguments 0)

/-- All calls of an expression name a helper and have as many arguments as it takes. -/
def WellCalled (e : Expr) : Prop := e.checkCalls = .ok ()

theorem wellCalled_call (name : String) (helper : Helper) (hname : Helper.named? name = some helper)
    {arguments : List Expr} : WellCalled (.call name arguments 0) ↔
      helper.arity.admits arguments.length = true ∧ ∀ e ∈ arguments, WellCalled e :=
  Expr.checkCalls_call name helper hname

theorem wellCalled_array {items : List Expr} :
    WellCalled (.array items) ↔ ∀ e ∈ items, WellCalled e :=
  Expr.checkCalls_array

theorem depthAll_le_iff {items : List Expr} {bound : Nat} :
    depthAll items ≤ bound ↔ ∀ e ∈ items, e.depth ≤ bound := by
  induction items with
  | nil => simp [depthAll]
  | cons e items ih => rw [depthAll, Nat.max_le, ih, List.forall_mem_cons]

theorem depth_call_le_iff (name : String) {arguments : List Expr} {bound : Nat} :
    (Expr.call name arguments 0).depth ≤ bound + 1 ↔ ∀ e ∈ arguments, e.depth ≤ bound := by
  rw [Expr.depth, Nat.succ_le_succ_iff, depthAll_le_iff]

theorem depth_array_le_iff {items : List Expr} {bound : Nat} :
    (Expr.array items).depth ≤ bound + 1 ↔ ∀ e ∈ items, e.depth ≤ bound := by
  rw [Expr.depth, Nat.succ_le_succ_iff, depthAll_le_iff]

theorem depth_textExpr (s : String) : (textExpr s).depth = 1 := rfl

theorem wellCalled_userExpr {code : String} (h : expressionFault? code = none) :
    WellCalled (userExpr code) := by
  unfold expressionFault? at h
  unfold userExpr
  split at h
  · cases h
  · next e he =>
    simp only [he]
    exact e.checkCalls_bare.2 (checkCalls_of_fault? h)

theorem wellCalled_textExpr (s : String) : WellCalled (textExpr s) := rfl

namespace Made

variable {users : List String}

theorem depth_le {levels bound : Nat} {e : Expr} (h : Made users levels e) (hpos : 1 ≤ bound)
    (husers : ∀ u ∈ users, (userExpr u).depth ≤ bound) : e.depth ≤ levels + bound := by
  induction h with
  | text s =>
    rw [depth_textExpr]
    omega
  | user hu =>
    have := husers _ hu
    omega
  | call name _ _ _ _ ih =>
    have := (depth_call_le_iff name).2 ih
    omega

theorem wellCalled {levels : Nat} {e : Expr} (h : Made users levels e)
    (husers : ∀ u ∈ users, expressionFault? u = none) : WellCalled e := by
  induction h with
  | text s => exact wellCalled_textExpr s
  | user hu => exact wellCalled_userExpr (husers _ hu)
  | call name helper hname hadmits _ ih =>
    exact (wellCalled_call name helper hname).2 ⟨hadmits, ih⟩

theorem mono {levels more : Nat} {e : Expr} (h : Made users levels e) (hle : levels ≤ more) :
    Made users more e := by
  induction h generalizing more with
  | text s => exact .text s
  | user hu => exact .user hu
  | call name helper hname hadmits _ ih =>
    obtain ⟨more, rfl⟩ : ∃ k, more = k + 1 := Nat.exists_eq_succ_of_ne_zero (by omega)
    exact .call name helper hname hadmits fun e he => ih e he (by omega)

end Made

section

variable {users : List String} {levels : Nat}

theorem made_shown {e : Expr} (h : Made users levels e) :
    Made users (levels + 1) (.call "_s" [e] 0) :=
  .call "_s" .display rfl rfl (by simpa using h)

theorem made_joined {exprs : List Expr} (h : ∀ e ∈ exprs, Made users levels e) :
    Made users (levels + 1) (.call "_j" exprs 0) :=
  .call "_j" .join rfl (by simp [Code.Arity.admits, Helper.arity]) h

theorem made_escaped {e : Expr} (h : Made users levels e) :
    Made users (levels + 1) (.call "_v" [e] 0) :=
  .call "_v" .text rfl rfl (by simpa using h)

theorem made_attribute {name value : Expr} (hname : Made users levels name)
    (hvalue : Made users levels value) : Made users (levels + 1) (attributeExpr name value) :=
  .call "_a" .attribute rfl rfl (by simp [hname, hvalue])

theorem made_part {p : Part} (h : ∀ u ∈ p.spliced, u ∈ users) : Made users 1 p.expr := by
  cases p with
  | fixed text => exact .text text
  | expression code => exact made_shown (.user (h code (by simp [Part.spliced])))

theorem made_run {parts : List Part} (h : ∀ u ∈ parts.flatMap Part.spliced, u ∈ users) :
    Made users 3 (runExpr parts) := by
  have hparts : ∀ e ∈ parts.map Part.expr, Made users 1 e := by
    intro e he
    rcases List.mem_map.1 he with ⟨p, hp, rfl⟩
    exact made_part fun u hu => h u (List.mem_flatMap.2 ⟨p, hp, hu⟩)
  unfold runExpr
  generalize parts.map Part.expr = exprs at hparts ⊢
  split
  · exact made_escaped (.text "")
  · next e => exact (made_escaped (hparts e (by simp))).mono (by omega)
  · exact made_escaped (made_joined hparts)

theorem made_merged {name : String} {fixed : Option String} {bound : Option Binding}
    {separator : String} (h : ∀ b ∈ bound, b.expression ∈ users) :
    ∀ e ∈ mergedExprs name fixed bound separator, Made users 3 e := by
  cases fixed with
  | none =>
    cases bound with
    | none => simp [mergedExprs]
    | some b => simpa [mergedExprs] using made_attribute (.text name) (.user (h b rfl))
  | some value =>
    cases bound with
    | none => simpa [mergedExprs] using made_attribute (.text name) (.text value)
    | some b =>
      have hshown : Made users 1 (.call "_s" [userExpr b.expression] 0) :=
        made_shown (.user (h b rfl))
      have hjoin : Made users 2 (.call "_j" [textExpr (value ++ separator),
          .call "_s" [userExpr b.expression] 0] 0) := by
        apply made_joined
        simpa using ⟨.text (value ++ separator), hshown⟩
      simpa [mergedExprs] using made_attribute (.text name) hjoin

theorem made_binding {b : Binding} (h : ∀ u ∈ b.spliced, u ∈ users) :
    ∀ e ∈ b.exprs, Made users 1 e := by
  unfold Binding.spliced at h
  unfold Binding.exprs
  split
  · next hcomputed =>
    rw [if_pos hcomputed] at h
    simpa using made_attribute (.user (h b.name (by simp))) (.user (h b.expression (by simp)))
  · next hcomputed =>
    rw [if_neg hcomputed] at h
    split
    · simp
    · next hmerged =>
      rw [if_neg hmerged] at h
      simpa using made_attribute (.text b.name) (.user (h b.expression (by simp)))

/-- Attributes are at most three levels above what is bound to them. -/
theorem Head.made_attributes (head : Head) : ∀ e ∈ head.attributeExprs, Made head.spliced 3 e := by
  unfold attributeExprs
  simp only [List.forall_mem_append]
  refine ⟨⟨⟨?_, ?_⟩, ?_⟩, ?_⟩
  · exact made_merged fun b hb => mem_spliced_class hb
  · exact made_merged fun b hb => mem_spliced_style hb
  · intro e he
    rcases List.mem_map.1 he with ⟨a, -, rfl⟩
    exact made_attribute (.text a.1) (.text a.2)
  · intro e he
    rcases List.mem_flatMap.1 he with ⟨b, hb, he⟩
    exact (made_binding (fun u hu => mem_spliced_binding hb hu) e he).mono (by omega)

end

end HtmlTemplate.Template
