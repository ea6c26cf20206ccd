import HtmlTemplate.Code.Reader

/-!
# Helpers of render code

Render code may call a fixed set of helpers, each with a fixed range of arguments. Whether code
keeps to that is checked once, before it ever runs.
-/

namespace HtmlTemplate.Code

inductive Helper where
  | element
  | attribute
  | condition
  | text
  | display
  | markup
  | static
  | comment
  | empty
  | join
  deriving DecidableEq, Repr, Inhabited

/-- The helper of a name. -/
def Helper.named? (name : String) : Option Helper :=
  match name with
  | "_c" => some .element
  | "_a" => some .attribute
  | "_i" => some .condition
  | "_v" => some .text
  | "_s" => some .display
  | "_h" => some .markup
  | "_m" => some .static
  | "_cm" => some .comment
  | "_e" => some .empty
  | "_j" => some .join
  | _ => none

/-- How many arguments a helper takes: a least number and, unless any number will do, a greatest. -/
structure Arity where
  least : Nat
  greatest : Option Nat
  deriving DecidableEq, Repr

def Helper.arity : Helper → Arity
  | .element => ⟨2, some 3⟩
  | .attribute => ⟨2, some 2⟩
  | .condition => ⟨2, some 2⟩
  | .text => ⟨1, some 1⟩
  | .display => ⟨1, some 1⟩
  | .markup => ⟨1, some 1⟩
  | .static => ⟨1, some 1⟩
  | .comment => ⟨1, some 1⟩
  | .empty => ⟨0, some 0⟩
  | .join => ⟨0, none⟩

def Arity.admits (a : Arity) (n : Nat) : Bool := a.least ≤ n && a.greatest.all (n ≤ ·)

def Arity.description : Arity → String
  | ⟨_, none⟩ => "any number of"
  | ⟨least, some greatest⟩ =>
    if least == greatest then least.repr else least.repr ++ " or " ++ greatest.repr

/-- Why a piece of code gives no procedure. -/
inductive BuildError where
  /-- No procedures are built here at all. -/
  | restricted
  | malformed (e : SyntaxError)
  | unknownHelper (name : String) (offset : Nat)
  | wrongArity (name : String) (expected : String) (found : Nat)
  deriving DecidableEq, Repr, Inhabited

mutual

/-- The first call, from the outside in and from left to right, that is not as it should be. -/
def Expr.checkCalls : Expr → Except BuildError Unit
  | .literal _ => .ok ()
  | .path _ => .ok ()
  | .array items => checkCallsAll items
  | .call name arguments offset =>
    match Helper.named? name with
    | none => .error (.unknownHelper name offset)
    | some helper =>
      if helper.arity.admits arguments.length then checkCallsAll arguments
      else .error (.wrongArity name helper.arity.description arguments.length)

def checkCallsAll : List Expr → Except BuildError Unit
  | [] => .ok ()
  | e :: rest =>
    match e.checkCalls with
    | .error f => .error f
    | .ok () => checkCallsAll rest

end

end HtmlTemplate.Code
