import HtmlTemplate.Code.Helper
import HtmlTemplate.Json.Printer
import HtmlTemplate.Markup.Escape

/-!
# Evaluating render code

Code is evaluated with the data at hand and with a way to run the static procedures that go with
it. Arguments are evaluated from left to right; the node of a condition only if the condition
holds.
-/

namespace HtmlTemplate.Code

open Markup (encodeText)

/-- What code evaluates to. -/
inductive Result where
  /-- Markup as it goes out. -/
  | markup (html : String)
  | data (value : Json.Value)
  | list (items : List Result)
  /-- An attribute with the space before it, or none at all. -/
  | attribute (written : Option String)
  deriving Repr, Inhabited

/-- Why rendering fails. -/
inductive RenderFailure where
  | missingStatic (index : Nat)
  | mismatch (helper message : String)
  | tooDeep (limit : Nat)
  deriving DecidableEq, Repr, Inhabited

def RenderFailure.message : RenderFailure → String
  | .missingStatic index => "no static render procedure at index " ++ index.repr
  | .mismatch helper message => helper ++ ": " ++ message
  | .tooDeep limit => "render nesting exceeds " ++ limit.repr ++ " levels"

/-- The markup of a node that is not there. -/
def emptyNode : String := "<!---->"

/-- Data as they appear in text: nothing for null, texts as they are. -/
def displayData : Json.Value → String
  | .null => ""
  | .string s => s
  | v => v.text

mutual

/-- A result as text. -/
def Result.display : Result → String
  | .markup html => html
  | .data v => displayData v
  | .list items => String.join (displays items)
  | .attribute _ => ""

def displays : List Result → List String
  | [] => []
  | r :: rest => r.display :: displays rest

end

def isTrueNumber : Json.Number → Bool
  | .integer n => n != 0
  | .float x => x != 0.0 && !x.isNaN

/-- Whether a condition with this result holds. -/
def Result.isTrue : Result → Bool
  | .data .null => false
  | .data (.bool b) => b
  | .data (.string s) => !s.isEmpty
  | .data (.number n) => isTrueNumber n
  | .markup html => !html.isEmpty
  | _ => true

/-- An attribute of a name: null and false leave it out, true writes the name alone. -/
def writeAttribute (name : String) : Result → Option String
  | .data .null => none
  | .data (.bool false) => none
  | .data (.bool true) => some (" " ++ name)
  | r => some (" " ++ name ++ "=\"" ++ encodeText r.display ++ "\"")

/-- What an attribute adds to its start tag. -/
def attributeText (helper : String) : Result → Except RenderFailure String
  | .attribute written => .ok (written.getD "")
  | _ => .error (.mismatch helper "attribute list holds a non-attribute")

/-- What a child adds to the content of its element. -/
def childText (helper : String) : Result → Except RenderFailure String
  | .markup html => .ok html
  | .attribute _ => .error (.mismatch helper "attribute in child list")
  | other => .ok (encodeText other.display)

/-- An element; without children it has no end tag. -/
def writeElement (helper : String) (name attributes : Result) (children : Option Result) :
    Except RenderFailure Result :=
  match attributes with
  | .list attributes =>
    match attributes.mapM (attributeText helper) with
    | .error f => .error f
    | .ok written =>
      let opening := "<" ++ name.display ++ String.join written ++ ">"
      match children with
      | none => .ok (.markup opening)
      | some (.list children) =>
        match children.mapM (childText helper) with
        | .error f => .error f
        | .ok content =>
          .ok (.markup (opening ++ String.join content ++ "</" ++ name.display ++ ">"))
      | some _ => .error (.mismatch helper "children must be a list")
  | _ => .error (.mismatch helper "attributes must be a list")

/-- The index of a static procedure. -/
def staticIndex? : Result → Option Nat
  | .data (.number (.integer (.ofNat n))) => some n
  | _ => none

def missingArgument (helper : String) (place : Nat) : RenderFailure :=
  .mismatch helper ("missing argument " ++ place.repr)

/-- What a helper other than the condition makes of its arguments. -/
def applyHelper (callStatic : Nat → Except RenderFailure String) (name : String)
    (helper : Option Helper) (arguments : List Result) : Except RenderFailure Result :=
  let withFirst (f : Result → Except RenderFailure Result) : Except RenderFailure Result :=
    match arguments with
    | [] => .error (missingArgument name 1)
    | first :: _ => f first
  match helper with
  | some .empty => .ok (.markup emptyNode)
  | some .text => withFirst fun r => .ok (.markup (encodeText r.display))
  | some .display => withFirst fun r => .ok (.data (.string r.display))
  | some .markup => withFirst fun r => .ok (.markup r.display)
  | some .join => .ok (.data (.string (String.join (displays arguments))))
  | some .comment => withFirst fun r => .ok (.markup ("<!--" ++ r.display ++ "-->"))
  | some .static => withFirst fun r =>
    match staticIndex? r with
    | none => .error (.mismatch name "index must be a non-negative integer")
    | some index => (callStatic index).map .markup
  | some .attribute => withFirst fun key =>
    match arguments with
    | _ :: value :: _ => .ok (.attribute (writeAttribute key.display value))
    | _ => .error (missingArgument name 2)
  | some .element => withFirst fun tag =>
    match arguments with
    | _ :: attributes :: rest => writeElement name tag attributes rest.head?
    | _ => .error (missingArgument name 2)
  | some .condition => .error (.mismatch name "unknown helper")
  | none => .error (.mismatch name "unknown helper")

/-- The member of the data that a path leads to; null if there is none. -/
def lookup : Json.Value → List String → Json.Value
  | v, [] => v
  | v, segment :: rest =>
    match v.member? segment with
    | some member => lookup member rest
    | none => .null

mutual

def Expr.eval (data : Json.Value) (callStatic : Nat → Except RenderFailure String) :
    Expr → Except RenderFailure Result
  | .literal v => .ok (.data v)
  | .path segments => .ok (.data (lookup data segments))
  | .array items =>
    match evalAll data callStatic items with
    | .error f => .error f
    | .ok results => .ok (.list results)
  | .call name arguments _ =>
    match Helper.named? name with
    | some .condition => evalCondition data callStatic name arguments
    | helper =>
      match evalAll data callStatic arguments with
      | .error f => .error f
      | .ok results => applyHelper callStatic name helper results

/-- A condition and the node that stands only if it holds. -/
def evalCondition (data : Json.Value) (callStatic : Nat → Except RenderFailure String)
    (name : String) : List Expr → Except RenderFailure Result
  | [] => .error (missingArgument name 1)
  | [condition] =>
    match condition.eval data callStatic with
    | .error f => .error f
    | .ok r =>
      if r.isTrue then .error (missingArgument name 2) else .ok (.markup emptyNode)
  | condition :: node :: _ =>
    match condition.eval data callStatic with
    | .error f => .error f
    | .ok r => if r.isTrue then node.eval data callStatic else .ok (.markup emptyNode)

def evalAll (data : Json.Value) (callStatic : Nat → Except RenderFailure String) :
    List Expr → Except RenderFailure (List Result)
  | [] => .ok []
  | e :: rest =>
    match e.eval data callStatic with
    | .error f => .error f
    | .ok r =>
      match evalAll data callStatic rest with
      | .error f => .error f
      | .ok results => .ok (r :: results)

end

/-- What code renders: markup as it is, anything else as text. -/
def Expr.render (e : Expr) (data : Json.Value) (callStatic : Nat → Except RenderFailure String) :
    Except RenderFailure String :=
  match e.eval data callStatic with
  | .error f => .error f
  | .ok (.markup html) => .ok html
  | .ok r => .ok (encodeText r.display)

end HtmlTemplate.Code
