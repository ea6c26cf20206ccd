import HtmlTemplate.Json.Value

/-!
# Expressions of render code
-/

namespace HtmlTemplate.Code

inductive Expr where
  | literal (value : Json.Value)
  /-- A look-up in the data, one member after the other. -/
  | path (segments : List String)
  | array (items : List Expr)
  /-- A call of a helper, whose name stands at byte `offset` of the code. -/
  | call (helper : String) (arguments : List Expr) (offset : Nat)
  deriving Repr, Inhabited

mutual

/-- How many expressions stand in each other, the outermost included. -/
def Expr.depth : Expr → Nat
  | .literal _ => 1
  | .path _ => 1
  | .array items => depthAll items + 1
  | .call _ arguments _ => depthAll arguments + 1

def depthAll : List Expr → Nat
  | [] => 0
  | e :: rest => max e.depth (depthAll rest)

end

end HtmlTemplate.Code
