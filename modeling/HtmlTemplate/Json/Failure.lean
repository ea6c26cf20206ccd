import HtmlTemplate.Text.Extent

/-!
# What is wrong with a document

A reader fails with a cause and the place where it noticed: the text that it had not read yet and
how many bytes of that it had looked at. Places are given as a line and a column, which counts the
bytes after the last line feed.
-/

namespace HtmlTemplate.Json

open Text

inductive Cause where
  | endInValue
  | endInList
  | endInObject
  | endInString
  | expectedColon
  | expectedListCommaOrEnd
  | expectedObjectCommaOrEnd
  | expectedWord
  | expectedValue
  | invalidEscape
  | invalidNumber
  | numberOutOfRange
  | controlCharacter
  | keyNotString
  | loneSurrogate
  | trailingComma
  | trailingCharacters
  | unpairedSurrogate
  | tooDeep
  deriving DecidableEq, Repr, Inhabited

def Cause.message : Cause → String
  | .endInValue => "EOF while parsing a value"
  | .endInList => "EOF while parsing a list"
  | .endInObject => "EOF while parsing an object"
  | .endInString => "EOF while parsing a string"
  | .expectedColon => "expected \x60:\x60"
  | .expectedListCommaOrEnd => "expected \x60,\x60 or \x60]\x60"
  | .expectedObjectCommaOrEnd => "expected \x60,\x60 or \x60\x7d\x60"
  | .expectedWord => "expected ident"
  | .expectedValue => "expected value"
  | .invalidEscape => "invalid escape"
  | .invalidNumber => "invalid number"
  | .numberOutOfRange => "number out of range"
  | .controlCharacter => "control character (\\u0000-\\u001F) found while parsing a string"
  | .keyNotString => "key must be a string"
  | .loneSurrogate => "lone leading surrogate in hex escape"
  | .trailingComma => "trailing comma"
  | .trailingCharacters => "trailing characters"
  | .unpairedSurrogate => "unexpected end of hex escape"
  | .tooDeep => "recursion limit exceeded"

structure Failure where
  cause : Cause
  /-- What was not read yet. -/
  rest : List Char
  /-- How many bytes of it were looked at. -/
  looked : Nat
  deriving DecidableEq, Repr, Inhabited

/-- A failure noticed before a place. -/
def Failure.before (cause : Cause) (rest : List Char) : Failure := ⟨cause, rest, 0⟩

/-- A failure noticed at the first byte of what is left. -/
def Failure.at (cause : Cause) (rest : List Char) : Failure := ⟨cause, rest, 1⟩

/-- The line and the column after some bytes of a text that begins at the given ones. -/
def positionFrom (line column : Nat) : (bytes : Nat) → List Char → Nat × Nat
  | 0, _ => (line, column)
  | _, [] => (line, column)
  | bytes + 1, c :: rest =>
    if c == '\n' then positionFrom (line + 1) 0 bytes rest
    else
      positionFrom line (column + min (bytes + 1) c.utf8Size) (bytes + 1 - c.utf8Size) rest

/-- The line and the column of a failure in a document. -/
def Failure.position (document : List Char) (f : Failure) : Nat × Nat :=
  positionFrom 1 0 (extent document - extent f.rest + f.looked) document

def Failure.message (document : List Char) (f : Failure) : String :=
  let (line, column) := f.position document
  f.cause.message ++ " at line " ++ line.repr ++ " column " ++ column.repr

end HtmlTemplate.Json
