import HtmlTemplate.OrderedMap

/-!
# Data values

The values of a JSON document. A number without fraction and exponent that fits 64 bits is an
integer, any other a binary floating-point number. Objects are in the order of their keys.
-/

namespace HtmlTemplate.Json

inductive Number where
  | integer (n : Int)
  | float (x : Float)
  deriving Repr, Inhabited

inductive Value where
  | null
  | bool (b : Bool)
  | number (n : Number)
  | string (s : String)
  | array (items : List Value)
  | object (fields : List (String × Value))
  deriving Repr, Inhabited

namespace Value

/-- The member of an object; there is none in anything else. -/
def member? (v : Value) (key : String) : Option Value :=
  match v with
  | .object fields => OrderedMap.find? fields key
  | _ => none

end Value

end HtmlTemplate.Json
