import HtmlTemplate.Proofs.Offsets
import HtmlTemplate.Template.Check
import Mathlib.Data.List.Forall2

/-!
# Evaluating calls

Calls are evaluated argument by argument (`Expr.eval_call`), lists item by item
(`evalAll_eq_ok_iff`), and calls are as they should be if their parts are (`Expr.checkCalls_call`).
An expression that a template may hold has no calls at all: it evaluates under any data, whatever
static procedures do (`exists_eval_of_fault?`).
-/

namespace HtmlTemplate.Code

/-- The expression evaluates to this result. -/
abbrev Evaluates (data : Json.Value) (callStatic : Nat → Except RenderFailure String) (e : Expr)
    (r : Result) : Prop :=
  e.eval data callStatic = .ok r

variable {data : Json.Value} {callStatic : Nat → Except RenderFailure String}

@[simp] theorem Result.display_string (s : String) : (Result.data (.string s)).display = s := rfl

/-- Markup is rendered as it is. -/
theorem Expr.render_of_evaluates {e : Expr} {html : String}
    (h : Evaluates data callStatic e (.markup html)) : e.render data callStatic = .ok html := by
  rw [Expr.render, h]

theorem evalAll_eq_ok_iff {items : List Expr} {results : List Result} :
    evalAll data callStatic items = .ok results ↔
      List.Forall₂ (Evaluates data callStatic) items results := by
  induction items generalizing results with
  | nil => simp [evalAll, eq_comm]
  | cons e items ih =>
    rw [evalAll]
    constructor
    · intro h
      split at h
      · cases h
      · next r hr =>
        split at h
        · cases h
        · next rs hrs =>
          cases h
          exact .cons hr (ih.1 hrs)
    · rintro (_ | ⟨hr, hrs⟩)
      simp only [hr, ih.2 hrs]

theorem Expr.eval_call (name : String) (helper : Helper) (hname : Helper.named? name = some helper)
    (hcondition : helper ≠ .condition) {arguments : List Expr} {results : List Result}
    (h : List.Forall₂ (Evaluates data callStatic) arguments results) :
    (Expr.call name arguments 0).eval data callStatic =
      applyHelper callStatic name (some helper) results := by
  rw [Expr.eval, hname]
  split
  · next heq => exact absurd (Option.some.inj heq) hcondition
  · rw [evalAll_eq_ok_iff.2 h]

theorem Expr.eval_array {items : List Expr} {results : List Result}
    (h : List.Forall₂ (Evaluates data callStatic) items results) :
    Evaluates data callStatic (.array items) (.list results) := by
  rw [Evaluates, Expr.eval, evalAll_eq_ok_iff.2 h]

theorem checkCallsAll_iff {items : List Expr} :
    checkCallsAll items = .ok () ↔ ∀ e ∈ items, e.checkCalls = .ok () := by
  induction items with
  | nil => simp [checkCallsAll]
  | cons e items ih =>
    rw [checkCallsAll]
    split
    · next f hf => simp [hf]
    · next hok => simp [hok, ih]

theorem Expr.checkCalls_call (name : String) (helper : Helper)
    (hname : Helper.named? name = some helper) {arguments : List Expr} :
    (Expr.call name arguments 0).checkCalls = .ok () ↔
      helper.arity.admits arguments.length = true ∧ ∀ e ∈ arguments, e.checkCalls = .ok () := by
  rw [Expr.checkCalls, hname]
  simp only
  split
  · next hadmits => simp [hadmits, checkCallsAll_iff]
  · next hadmits => simp [hadmits]

theorem Expr.checkCalls_array {items : List Expr} :
    (Expr.array items).checkCalls = .ok () ↔ ∀ e ∈ items, e.checkCalls = .ok () := by
  rw [Expr.checkCalls, checkCallsAll_iff]

end HtmlTemplate.Code

namespace HtmlTemplate.Template

open HtmlTemplate.Code (Expr Result RenderFailure)

theorem faultIn?_eq_none_iff {items : List Expr} :
    faultIn? items = none ↔ ∀ e ∈ items, fault? e = none := by
  induction items with
  | nil => simp [faultIn?]
  | cons e items ih =>
    rw [faultIn?]
    split
    · next reason h => simp [h]
    · next h => simp [h, ih]

mutual

/-- An expression that a template may hold has no calls that could be wrong. -/
theorem checkCalls_of_fault? {e : Expr} (h : fault? e = none) : e.checkCalls = .ok () := by
  cases e with
  | literal v => rfl
  | path segments => rfl
  | array items => exact checkCallsAll_of_faultIn? h
  | call helper arguments offset => cases h

theorem checkCallsAll_of_faultIn? {items : List Expr} (h : faultIn? items = none) :
    Code.checkCallsAll items = .ok () := by
  cases items with
  | nil => rfl
  | cons e rest =>
    rw [faultIn?_eq_none_iff, List.forall_mem_cons] at h
    rw [Code.checkCallsAll, checkCalls_of_fault? h.1]
    exact checkCallsAll_of_faultIn? (faultIn?_eq_none_iff.2 h.2)

end

section

variable (data : Json.Value)

mutual

/-- An expression that a template may hold evaluates, and no static procedure has a say in it. -/
theorem exists_eval_of_fault? {e : Expr} (h : fault? e = none) :
    ∃ r, ∀ callStatic, e.eval data callStatic = .ok r := by
  cases e with
  | literal v => exact ⟨_, fun _ => rfl⟩
  | path segments => exact ⟨_, fun _ => rfl⟩
  | array items =>
    obtain ⟨results, hresults⟩ := exists_evalAll_of_faultIn? h
    exact ⟨.list results, fun callStatic => by rw [Expr.eval, hresults]⟩
  | call helper arguments offset => cases h

theorem exists_evalAll_of_faultIn? {items : List Expr} (h : faultIn? items = none) :
    ∃ results, ∀ callStatic, Code.evalAll data callStatic items = .ok results := by
  cases items with
  | nil => exact ⟨[], fun _ => rfl⟩
  | cons e rest =>
    rw [faultIn?_eq_none_iff, List.forall_mem_cons] at h
    obtain ⟨r, hr⟩ := exists_eval_of_fault? h.1
    obtain ⟨results, hresults⟩ := exists_evalAll_of_faultIn? (faultIn?_eq_none_iff.2 h.2)
    exact ⟨r :: results, fun callStatic => by rw [Code.evalAll, hr, hresults]⟩

end

end

end HtmlTemplate.Template
