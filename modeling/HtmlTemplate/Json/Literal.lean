/-!
# Text literals

How a text is written between quotes: quotes, backslashes and control characters are escaped, and
everything else stands for itself.
-/

namespace HtmlTemplate.Json

def hexDigit (n : Nat) : Char :=
  if n < 10 then Char.ofNat ('0'.toNat + n) else Char.ofNat ('a'.toNat + (n - 10))

def escapeChar (c : Char) : List Char :=
  if c == '"' then ['\\', '"']
  else if c == '\\' then ['\\', '\\']
  else if c == '\x08' then ['\\', 'b']
  else if c == '\x0c' then ['\\', 'f']
  else if c == '\n' then ['\\', 'n']
  else if c == '\r' then ['\\', 'r']
  else if c == '\t' then ['\\', 't']
  else if c < ' ' then ['\\', 'u', '0', '0', hexDigit (c.toNat / 16), hexDigit (c.toNat % 16)]
  else [c]

def literalChars (s : List Char) : List Char := '"' :: s.flatMap escapeChar ++ ['"']

/-- The literal of a text. -/
def literal (s : String) : String := String.ofList (literalChars s.toList)

end HtmlTemplate.Json
