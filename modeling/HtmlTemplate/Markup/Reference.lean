/-!
# Character references

Attribute values know a few named references; text also knows numeric ones. Decoding goes once
from left to right: at a reference its character is written and reading goes on behind it, so that
nothing is decoded twice.
-/

namespace HtmlTemplate.Markup

/-- A way to read a reference: given the text after `&`, the character that it stands for and how
many characters it has after the `&`. -/
abbrev ReferenceReader := List Char → Option (Char × Nat)

/-- Looks a reference up by the text after `&`, the semicolon included. -/
def readListed (table : List (String × Char)) : ReferenceReader := fun s =>
  (table.find? fun entry => entry.1.toList.isPrefixOf s).map fun entry =>
    (entry.2, entry.1.length)

def attributeReferences : List (String × Char) :=
  [("lt;", '<'), ("gt;", '>'), ("quot;", '"'), ("amp;", '&'), ("#39;", '\'')]

def lineFeedReferences : List (String × Char) := [("#10;", '\n'), ("#9;", '\t')]

def namedTextReferences : List (String × Char) :=
  [("amp;", '&'), ("lt;", '<'), ("gt;", '>'), ("quot;", '"'), ("apos;", '\''),
    ("nbsp;", '\u00a0')]

/-- The value of a digit in a base up to sixteen. -/
def digitValue? (base : Nat) (c : Char) : Option Nat :=
  let value :=
    if c.isDigit then c.toNat - '0'.toNat
    else if 'a' ≤ c ∧ c ≤ 'f' then c.toNat - 'a'.toNat + 10
    else if 'A' ≤ c ∧ c ≤ 'F' then c.toNat - 'A'.toNat + 10
    else base
  if value < base then some value else none

/-- The number that digits write in a base. -/
def ofDigits? (base : Nat) (digits : List Char) : Option Nat :=
  digits.foldl (fun n c => match n, digitValue? base c with
    | some n, some d => some (n * base + d)
    | _, _ => none) (some 0)

/-- The character with a given scalar value; a surrogate or a number that is too large has none. -/
def charOfScalar? (n : Nat) : Option Char :=
  if h : n.isValidChar then some (Char.ofNatAux n h) else none

/-- Digits of a numeric reference, at most `limit`, and the semicolon; `skipped` characters stand
between `&` and the digits. -/
def readDigits (base limit skipped : Nat) : ReferenceReader := fun s =>
  let digits := (s.take (limit + 1)).takeWhile Char.isAlphanum
  match digits.isEmpty || limit < digits.length, s.drop digits.length with
  | false, ';' :: _ =>
    match ofDigits? base digits with
    | some n => (charOfScalar? n).map fun c => (c, skipped + digits.length + 1)
    | none => none
  | _, _ => none

/-- `#` with up to seven decimal digits, or `#x` with up to six hexadecimal ones. -/
def readNumeric : ReferenceReader
  | '#' :: 'x' :: s => readDigits 16 6 2 s
  | '#' :: 'X' :: s => readDigits 16 6 2 s
  | '#' :: s => readDigits 10 7 1 s
  | _ => none

def readAttributeReference (lineFeeds : Bool) : ReferenceReader := fun s =>
  match readListed attributeReferences s with
  | some found => some found
  | none => if lineFeeds then readListed lineFeedReferences s else none

def readTextReference : ReferenceReader := fun s =>
  match readListed namedTextReferences s with
  | some found => some found
  | none => readNumeric s

/-- Decodes a text, with what is decoded so far in reverse. -/
def decodeFrom (read : ReferenceReader) (done : List Char) (s : List Char) : List Char :=
  match s with
  | [] => done.reverse
  | c :: rest =>
    if c == '&' then
      match read rest with
      | some (d, n) => decodeFrom read (d :: done) (rest.drop n)
      | none => decodeFrom read (c :: done) rest
    else decodeFrom read (c :: done) rest
termination_by s.length
decreasing_by all_goals simp; try omega

/-- Decodes an attribute value; the references of line feed and tab only if asked for. -/
def decodeValue (lineFeeds : Bool) (s : List Char) : List Char :=
  decodeFrom (readAttributeReference lineFeeds) [] s

def decodeContent (s : String) : String := String.ofList (decodeFrom readTextReference [] s.toList)

end HtmlTemplate.Markup
