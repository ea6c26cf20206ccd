import HtmlTemplate.Markup.Event

/-!
# Listings of events

One line for each event and a last line `EOF`. A listing leaves out the spans of tags, comments
and attributes; of text it says only whether it has a span.
-/

namespace HtmlTemplate.Markup

def hexDigitUpper (n : Nat) : Char :=
  if n < 10 then Char.ofNat ('0'.toNat + n) else Char.ofNat ('A'.toNat + (n - 10))

/-- A character as it stands between the quotes of a listing. -/
def escapeChar (c : Char) : List Char :=
  if c == '\\' then ['\\', '\\']
  else if c == '"' then ['\\', '"']
  else if c == '\n' then ['\\', 'n']
  else if c == '\r' then ['\\', 'r']
  else if c == '\t' then ['\\', 't']
  else if c < ' ' then
    ['\\', 'u', '{', hexDigitUpper (c.toNat / 16), hexDigitUpper (c.toNat % 16), '}']
  else [c]

def escape (s : String) : String := String.ofList (s.toList.flatMap escapeChar)

def quoted (s : String) : String := "\"" ++ escape s ++ "\""

def listedSide (side : Option Nat) : String := (side.map Nat.repr).getD "?"

def listedRange (r : Locus) : String := listedSide r.start ++ ".." ++ listedSide r.stop

def Attribute.listed (a : Attribute) : String := a.name ++ "=" ++ quoted a.value

def listedFlag (b : Bool) : String := if b then "true" else "false"

def Event.listed : Event → String
  | .startTag name attributes unary _ =>
    "START name=" ++ name ++ " attrs=[" ++ " ".intercalate (attributes.map Attribute.listed) ++
      "] unary=" ++ listedFlag unary
  | .endTag name _ => "END name=" ++ name
  | .text content span => "CHARS text=" ++ quoted content ++ " raw=" ++ listedFlag span.isNone
  | .comment content _ => "COMMENT text=" ++ quoted content
  | .warning message range => "WARN msg=" ++ quoted message ++ " at=" ++ listedRange range

def listing (events : List Event) : List String := events.map Event.listed ++ ["EOF"]

end HtmlTemplate.Markup
