import HtmlTemplate.Json.NumberReader
import HtmlTemplate.Json.TextReader

/-!
# Reading data

One document is one value with blanks around it. Every reader takes at least one character and
says so in its type, so that lists and objects of any length are read by recursion on the text.
Containers may be nested 127 deep.
-/

namespace HtmlTemplate.Json

/-- A text of less than a given length. -/
abbrev Below (n : Nat) := { rest : List Char // rest.length < n }

/-- A value with what is left of the text, or a failure. -/
abbrev Reading (α : Type) (n : Nat) := Except Failure (α × Below n)

/-- A reader of values that takes at least one character. -/
abbrev ValueReader := (s : List Char) → Reading Value s.length

def isJsonBlank (c : Char) : Bool := c == ' ' || c == '\n' || c == '\t' || c == '\r'

def skipBlanks (s : List Char) : List Char := s.dropWhile isJsonBlank

theorem length_skipBlanks_le (s : List Char) : (skipBlanks s).length ≤ s.length :=
  (List.dropWhile_sublist isJsonBlank).length_le

theorem length_lt_of_skipBlanks {s : List Char} {c : Char} {rest : List Char}
    (h : skipBlanks s = c :: rest) : rest.length < s.length := by
  have := length_skipBlanks_le s
  rw [h] at this
  simp at this
  omega

/-- The items of a list from one of them on, with those before it in reverse. -/
def readItems (value : ValueReader) (bound : Nat) (done : List Value) (s : List Char)
    (hs : s.length ≤ bound) : Reading (List Value) bound :=
  match value s with
  | .error f => .error f
  | .ok (v, ⟨rest, hrest⟩) =>
    match hsep : skipBlanks rest with
    | [] => .error (.at .endInList [])
    | c :: after =>
      have := length_lt_of_skipBlanks hsep
      if c == ']' then .ok ((v :: done).reverse, ⟨after, by omega⟩)
      else if c == ',' then
        match hnext : skipBlanks after with
        | [] => .error (.at .endInValue [])
        | d :: more =>
          if d == ']' then .error (.at .trailingComma (d :: more))
          else
            have := length_skipBlanks_le after
            readItems value bound (v :: done) (skipBlanks after) (by omega)
      else .error (.at .expectedListCommaOrEnd (c :: after))
termination_by s.length
decreasing_by omega

/-- A list after its opening bracket. -/
def readList (value : ValueReader) (s : List Char) : Reading (List Value) s.length :=
  match h : skipBlanks s with
  | [] => .error (.at .endInList [])
  | c :: rest =>
    if c == ']' then .ok ([], ⟨rest, length_lt_of_skipBlanks h⟩)
    else readItems value s.length [] (skipBlanks s) (length_skipBlanks_le s)

/-- The fields of an object from behind the opening quote of a key on, with those before it. -/
def readFields (value : ValueReader) (bound : Nat) (done : OrderedMap Value) (s : List Char)
    (hs : s.length ≤ bound) : Reading (OrderedMap Value) bound :=
  match hkey : readText s with
  | .error f => .error f
  | .ok (key, afterKey) =>
    have := length_readText hkey
    match hcolon : skipBlanks afterKey with
    | [] => .error (.at .endInObject [])
    | c :: rest =>
      have := length_lt_of_skipBlanks hcolon
      if c == ':' then
        match value rest with
        | .error f => .error f
        | .ok (v, ⟨afterValue, _⟩) =>
          let fields := done.insert (String.ofList key) v
          match hsep : skipBlanks afterValue with
          | [] => .error (.at .endInObject [])
          | d :: after =>
            have := length_lt_of_skipBlanks hsep
            if d == '}' then .ok (fields, ⟨after, by omega⟩)
            else if d == ',' then
              match hnext : skipBlanks after with
              | [] => .error (.at .endInValue [])
              | e :: more =>
                have := length_lt_of_skipBlanks hnext
                if e == '"' then readFields value bound fields more (by omega)
                else if e == '}' then .error (.at .trailingComma (e :: more))
                else .error (.at .keyNotString (e :: more))
            else .error (.at .expectedObjectCommaOrEnd (d :: after))
      else .error (.at .expectedColon (c :: rest))
termination_by s.length
decreasing_by omega

/-- An object after its opening brace. -/
def readObject (value : ValueReader) (s : List Char) : Reading (OrderedMap Value) s.length :=
  match h : skipBlanks s with
  | [] => .error (.at .endInObject [])
  | c :: rest =>
    have := length_lt_of_skipBlanks h
    if c == '}' then .ok ([], ⟨rest, this⟩)
    else if c == '"' then readFields value s.length [] rest (by omega)
    else .error (.at .keyNotString (c :: rest))

/-- The rest of a word of which the first character is read. -/
def readWord (v : Value) : (word s : List Char) → Reading Value (s.length + 1)
  | [], s => .ok (v, ⟨s, by simp⟩)
  | _ :: _, [] => .error (.before .endInValue [])
  | w :: word, c :: rest =>
    if w == c then
      match readWord v word rest with
      | .error f => .error f
      | .ok (v, ⟨after, _⟩) => .ok (v, ⟨after, by simp; omega⟩)
    else .error (.at .expectedWord (c :: rest))

/-- A value that begins at the first character. Containers need a reader for their contents. -/
def readValueHere (inner : Option ValueReader) (s : List Char) : Reading Value s.length :=
  match s with
  | [] => .error (.at .endInValue [])
  | c :: rest =>
    if c == 'n' then readWord .null ['u', 'l', 'l'] rest
    else if c == 't' then readWord (.bool true) ['r', 'u', 'e'] rest
    else if c == 'f' then readWord (.bool false) ['a', 'l', 's', 'e'] rest
    else if c == '-' || c.isDigit then
      match h : readNumber (c :: rest) with
      | .error f => .error f
      | .ok (n, after) => .ok (.number n, ⟨after, length_readNumber h⟩)
    else if c == '"' then
      match h : readText rest with
      | .error f => .error f
      | .ok (text, after) =>
        .ok (.string (String.ofList text), ⟨after, by have := length_readText h; simp; omega⟩)
    else if c == '[' then
      match inner with
      | none => .error (.at .tooDeep (c :: rest))
      | some value =>
        match readList value rest with
        | .error f => .error f
        | .ok (items, ⟨after, _⟩) => .ok (.array items, ⟨after, by simp; omega⟩)
    else if c == '{' then
      match inner with
      | none => .error (.at .tooDeep (c :: rest))
      | some value =>
        match readObject value rest with
        | .error f => .error f
        | .ok (fields, ⟨after, _⟩) => .ok (.object fields, ⟨after, by simp; omega⟩)
    else .error (.at .expectedValue (c :: rest))

/-- A value with blanks before it that may hold containers of the given depth. -/
def readValue : (depth : Nat) → ValueReader
  | 0, s =>
    match readValueHere none (skipBlanks s) with
    | .error f => .error f
    | .ok (v, ⟨rest, _⟩) => .ok (v, ⟨rest, by have := length_skipBlanks_le s; omega⟩)
  | depth + 1, s =>
    match readValueHere (some (readValue depth)) (skipBlanks s) with
    | .error f => .error f
    | .ok (v, ⟨rest, _⟩) => .ok (v, ⟨rest, by have := length_skipBlanks_le s; omega⟩)

/-- How deep containers may be nested. -/
def nestingLimit : Nat := 127

def readDocument (s : List Char) : Except Failure Value :=
  match readValue nestingLimit s with
  | .error f => .error f
  | .ok (v, ⟨rest, _⟩) =>
    match skipBlanks rest with
    | [] => .ok v
    | c :: more => .error (.at .trailingCharacters (c :: more))

/-- Reads a document; what is wrong with it comes as text. -/
def parse (s : String) : Except String Value :=
  match readDocument s.toList with
  | .ok v => .ok v
  | .error f => .error (f.message s.toList)

end HtmlTemplate.Json
