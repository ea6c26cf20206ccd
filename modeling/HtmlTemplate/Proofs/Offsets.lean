import HtmlTemplate.Code.Procedure

/-!
# Expressions without offsets

A call keeps the byte at which its helper stands, for the sake of messages alone. The expression
with all offsets at 0 is as deep, keeps to the helpers in the same cases and evaluates alike.
-/

namespace HtmlTemplate.Code

mutual

/-- The expression with all offsets at 0. -/
def Expr.bare : Expr → Expr
  | .literal v => .literal v
  | .path segments => .path segments
  | .array items => .array (bareAll items)
  | .call helper arguments _ => .call helper (bareAll arguments) 0

def bareAll : List Expr → List Expr
  | [] => []
  | e :: rest => e.bare :: bareAll rest

end

theorem bareAll_eq_map (items : List Expr) : bareAll items = items.map Expr.bare := by
  induction items with
  | nil => rfl
  | cons e rest ih => rw [bareAll, ih, List.map_cons]

@[simp] theorem length_bareAll (items : List Expr) : (bareAll items).length = items.length := by
  rw [bareAll_eq_map, List.length_map]

theorem Expr.depth_pos (e : Expr) : 0 < e.depth := by
  cases e <;> simp [Expr.depth]

mutual

@[simp] theorem Expr.depth_bare (e : Expr) : e.bare.depth = e.depth := by
  cases e with
  | literal v => rfl
  | path segments => rfl
  | array items => simp only [Expr.bare, Expr.depth, depthAll_bareAll items]
  | call helper arguments offset =>
    simp only [Expr.bare, Expr.depth, depthAll_bareAll arguments]

@[simp] theorem depthAll_bareAll (items : List Expr) :
    depthAll (bareAll items) = depthAll items := by
  cases items with
  | nil => rfl
  | cons e rest => simp only [bareAll, depthAll, Expr.depth_bare e, depthAll_bareAll rest]

end

mutual

/-- Only the message about an unknown helper tells the offset. -/
theorem Expr.checkCalls_bare (e : Expr) : e.bare.checkCalls = .ok () ↔ e.checkCalls = .ok () := by
  cases e with
  | literal v => rfl
  | path segments => rfl
  | array items => exact checkCallsAll_bareAll items
  | call helper arguments offset =>
    simp only [Expr.bare, Expr.checkCalls, length_bareAll]
    split
    · simp
    · split
      · exact checkCallsAll_bareAll arguments
      · simp

theorem checkCallsAll_bareAll (items : List Expr) :
    checkCallsAll (bareAll items) = .ok () ↔ checkCallsAll items = .ok () := by
  cases items with
  | nil => rfl
  | cons e rest =>
    have he := Expr.checkCalls_bare e
    have hrest := checkCallsAll_bareAll rest
    simp only [bareAll, checkCallsAll]
    split <;> split <;> simp_all

end

section

variable (data : Json.Value) (callStatic : Nat → Except RenderFailure String)

mutual

theorem Expr.eval_bare (e : Expr) : e.bare.eval data callStatic = e.eval data callStatic := by
  cases e with
  | literal v => rfl
  | path segments => rfl
  | array items => simp only [Expr.bare, Expr.eval, evalAll_bareAll items]
  | call helper arguments offset =>
    simp only [Expr.bare, Expr.eval]
    split
    · exact evalCondition_bareAll helper arguments
    · rw [evalAll_bareAll arguments]

theorem evalCondition_bareAll (name : String) (items : List Expr) :
    evalCondition data callStatic name (bareAll items) =
      evalCondition data callStatic name items := by
  match items with
  | [] => rfl
  | [condition] => simp only [bareAll, evalCondition, Expr.eval_bare condition]
  | condition :: node :: rest =>
    simp only [bareAll, evalCondition, Expr.eval_bare condition, Expr.eval_bare node]

theorem evalAll_bareAll (items : List Expr) :
    evalAll data callStatic (bareAll items) = evalAll data callStatic items := by
  cases items with
  | nil => rfl
  | cons e rest => simp only [bareAll, evalAll, Expr.eval_bare e, evalAll_bareAll rest]

end

theorem Expr.render_bare (e : Expr) :
    e.bare.render data callStatic = e.render data callStatic := by
  simp only [Expr.render, Expr.eval_bare]

end

end HtmlTemplate.Code
