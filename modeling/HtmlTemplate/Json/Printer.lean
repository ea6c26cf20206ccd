import HtmlTemplate.Decimal.Layout
import HtmlTemplate.Json.Literal
import HtmlTemplate.Json.Value

/-!
# Data as text

Arrays and objects are written over several lines, with two spaces for each level; empty ones are
a pair of brackets.
-/

namespace HtmlTemplate.Json

def Number.text : Number → String
  | .integer n => n.repr
  | .float x => Decimal.floatText x

def lineBreak (level : Nat) : String := "\n" ++ String.ofList (List.replicate (2 * level) ' ')

/-- Written items between brackets, each on a line of its own. -/
def enclosed (opening closing : String) (level : Nat) (items : List String) : String :=
  if items.isEmpty then opening ++ closing
  else
    opening ++ lineBreak (level + 1) ++ ("," ++ lineBreak (level + 1)).intercalate items ++
      lineBreak level ++ closing

mutual

/-- The text of a value at a level of nesting. -/
def Value.textAt (level : Nat) : Value → String
  | .null => "null"
  | .bool b => if b then "true" else "false"
  | .number n => n.text
  | .string s => literal s
  | .array items => enclosed "[" "]" level (itemTexts (level + 1) items)
  | .object fields => enclosed "\x7b" "\x7d" level (fieldTexts (level + 1) fields)

def itemTexts (level : Nat) : List Value → List String
  | [] => []
  | v :: rest => v.textAt level :: itemTexts level rest

def fieldTexts (level : Nat) : List (String × Value) → List String
  | [] => []
  | (key, v) :: rest => (literal key ++ ": " ++ v.textAt level) :: fieldTexts level rest

end

def Value.text (v : Value) : String := v.textAt 0

end HtmlTemplate.Json
