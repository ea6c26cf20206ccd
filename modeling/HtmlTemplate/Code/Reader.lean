import HtmlTemplate.Code.Expr
import HtmlTemplate.Json.NumberReader
import HtmlTemplate.Json.TextReader
import HtmlTemplate.Text.Blank

/-!
# Reading render code

Render code is one expression: a call `name(…)`, an array `[…]`, a text or a number as in data, a
word that stands for a value, or a path of names with points between. Blanks may stand before
every token, but not inside a path; only before the point or the parenthesis after a first name.
Expressions may be nested 1024 deep.

A reader walks along a cursor, which knows its byte position for the sake of offsets, and says in
its type that it takes at least one character.
-/

namespace HtmlTemplate.Code

open Text

/-- Why code is not well formed, and at which byte. -/
structure SyntaxError where
  offset : Nat
  message : String
  deriving DecidableEq, Repr, Inhabited

/-- A place in code: its byte position and the text from there on. -/
structure Cursor where
  position : Nat
  rest : List Char

namespace Cursor

/-- The number of characters from the cursor on. -/
def size (c : Cursor) : Nat := c.rest.length

def skipBlanks (c : Cursor) : Cursor :=
  ⟨c.position + extent (leadingBlanks c.rest), dropBlanks c.rest⟩

theorem size_skipBlanks_le (c : Cursor) : c.skipBlanks.size ≤ c.size :=
  length_dropBlanks_le c.rest

/-- Steps over one character after blanks, if it is the given one. -/
def take? (mark : Char) (c : Cursor) : Option Cursor :=
  match c.skipBlanks.rest with
  | [] => none
  | d :: rest =>
    if d == mark then some ⟨c.skipBlanks.position + d.utf8Size, rest⟩ else none

theorem size_take? {mark : Char} {c d : Cursor} (h : c.take? mark = some d) : d.size < c.size := by
  have hle := c.size_skipBlanks_le
  unfold take? at h
  split at h
  · cases h
  · next heq =>
    split at h
    · cases h
      simp only [size, heq, List.length_cons] at hle ⊢
      omega
    · cases h

/-- Steps over a text that stands at the cursor and leaves `rest`. -/
def past (c : Cursor) (taken rest : List Char) : Cursor := ⟨c.position + extent taken, rest⟩

def error (c : Cursor) (message : String) : SyntaxError := ⟨c.position, message⟩

end Cursor

/-- A cursor with fewer than `n` characters behind it. -/
abbrev CursorBelow (n : Nat) := { c : Cursor // c.size < n }

abbrev Reading (α : Type) (n : Nat) := Except SyntaxError (α × CursorBelow n)

/-- A reader of expressions that takes at least one character. -/
abbrev ExprReader := (c : Cursor) → Reading Expr c.size

def isWordStart (c : Char) : Bool := c.isAlpha || c == '_' || c == '$'

def isWordPart (c : Char) : Bool := c.isAlphanum || c == '_' || c == '$'

def isNumberPart (c : Char) : Bool :=
  c.isDigit || c == '-' || c == '+' || c == '.' || c == 'e' || c == 'E'

/-- Expressions with commas between, from one of them on, up to a closing mark. -/
def readItemsFrom (expression : ExprReader) (close : Char) (bound : Nat) (done : List Expr)
    (c : Cursor) (hc : c.size ≤ bound) : Reading (List Expr) bound :=
  match expression c with
  | .error f => .error f
  | .ok (e, ⟨d, hd⟩) =>
    match h : d.take? close with
    | some after => .ok ((e :: done).reverse, ⟨after, by have := Cursor.size_take? h; omega⟩)
    | none =>
      match h : d.take? ',' with
      | some next =>
        have := Cursor.size_take? h
        readItemsFrom expression close bound (e :: done) next (by omega)
      | none =>
        .error (d.skipBlanks.error ("expected \x60,\x60 or \x60" ++ close.toString ++ "\x60"))
termination_by c.size
decreasing_by omega

/-- A list behind its opening mark. -/
def readItems (expression : ExprReader) (close : Char) (c : Cursor) :
    Reading (List Expr) c.size :=
  match h : c.take? close with
  | some after => .ok ([], ⟨after, Cursor.size_take? h⟩)
  | none => readItemsFrom expression close c.size [] c (Nat.le_refl _)

/-- A literal as written, from behind its opening quote to before its closing one, and what
follows that. A backslash takes the next character with it. -/
def splitLiteralFrom (done : List Char) : List Char → Option (List Char × List Char)
  | [] => none
  | '"' :: rest => some (done.reverse, rest)
  | '\\' :: c :: rest => splitLiteralFrom (c :: '\\' :: done) rest
  | c :: rest => splitLiteralFrom (c :: done) rest

def splitLiteral? (s : List Char) : Option (List Char × List Char) := splitLiteralFrom [] s

theorem splitLiteralFrom_append {done s body rest : List Char}
    (h : splitLiteralFrom done s = some (body, rest)) :
    body ++ '"' :: rest = done.reverse ++ s := by
  fun_induction splitLiteralFrom done s with
  | case1 => cases h
  | case2 =>
    cases h
    rfl
  | case3 _ _ _ ih => simp [ih h]
  | case4 _ _ _ _ _ ih => simp [ih h]

theorem splitLiteral?_append {s body rest : List Char} (h : splitLiteral? s = some (body, rest)) :
    body ++ '"' :: rest = s := by
  simpa using splitLiteralFrom_append h

/-- A text behind its opening quote, which is at `start`. -/
def readLiteral (start : Cursor) (s : List Char) : Reading Expr (s.length + 1) :=
  match h : splitLiteral? s with
  | none => .error (start.error "unterminated string literal")
  | some (body, rest) =>
    let written := body ++ ['"']
    match Json.textOfLiteral written with
    | .error f =>
      .error (start.error ("invalid string literal: " ++ f.message ('"' :: written)))
    | .ok text =>
      .ok (.literal (.string (String.ofList text)),
        ⟨start.past ('"' :: written) rest, by
          simp [Cursor.past, Cursor.size, ← splitLiteral?_append h]; omega⟩)

/-- A number, which begins at `start` with `c`. -/
def readNumber (start : Cursor) (c : Char) (s : List Char) : Reading Expr (s.length + 1) :=
  let written := c :: s.takeWhile isNumberPart
  match Json.number? written with
  | none => .error (start.error ("invalid number \x60" ++ String.ofList written ++ "\x60"))
  | some n =>
    .ok (.literal (.number n),
      ⟨start.past written (s.dropWhile isNumberPart), by
        have := (List.dropWhile_sublist isNumberPart (l := s)).length_le
        simp [Cursor.past, Cursor.size]; omega⟩)

/-- The words that stand for values. -/
def wordValue? (word : String) : Option Json.Value :=
  match word with
  | "true" => some (.bool true)
  | "false" => some (.bool false)
  | "null" => some .null
  | "undefined" => some .null
  | _ => none

/-- The further names of a path, with those before them in reverse. -/
def readSegments (bound : Nat) (done : List String) (c : Cursor) (hc : c.size < bound) :
    Reading (List String) bound :=
  match h : c.rest with
  | '.' :: d :: rest =>
    if isWordStart d then
      let word := d :: rest.takeWhile isWordPart
      have := (List.dropWhile_sublist isWordPart (l := rest)).length_le
      have hsize : c.size = rest.length + 2 := by simp [Cursor.size, h]
      readSegments bound (String.ofList word :: done)
        (c.past ('.' :: word) (rest.dropWhile isWordPart))
        (by simp [Cursor.past, Cursor.size] at *; omega)
    else .error ((c.past ['.'] (d :: rest)).error "expected property name after \x60.\x60")
  | ['.'] => .error ((c.past ['.'] []).error "expected property name after \x60.\x60")
  | _ => .ok (done.reverse, ⟨c, hc⟩)
termination_by c.size
decreasing_by simp [Cursor.past, Cursor.size, h]; omega

/-- An expression that begins with a word, whose first character is at `start`. -/
def readWordExpression (expression : ExprReader) (start : Cursor) (c : Char) (s : List Char)
    (hstart : start.size = s.length + 1) : Reading Expr start.size :=
  let written := c :: s.takeWhile isWordPart
  let word := String.ofList written
  let behind := start.past written (s.dropWhile isWordPart)
  have hbehind : behind.size < start.size := by
    have := (List.dropWhile_sublist isWordPart (l := s)).length_le
    simp only [behind, Cursor.past, Cursor.size] at hstart ⊢
    omega
  match h : behind.take? '(' with
  | some inside =>
    match readItems expression ')' inside with
    | .error f => .error f
    | .ok (arguments, ⟨after, hafter⟩) =>
      .ok (.call word arguments start.position,
        ⟨after, by have := Cursor.size_take? h; omega⟩)
  | none =>
    have := behind.size_skipBlanks_le
    match wordValue? word with
    | some v => .ok (.literal v, ⟨behind.skipBlanks, by omega⟩)
    | none =>
      match readSegments start.size [word] behind.skipBlanks (by omega) with
      | .error f => .error f
      | .ok (segments, after) => .ok (.path segments, after)

/-- An expression that begins at the cursor. -/
def readHere (expression : ExprReader) (start : Cursor) : Reading Expr start.size :=
  match h : start.rest with
  | [] => .error (start.error "unexpected end of code")
  | c :: rest =>
    have hsize : start.size = rest.length + 1 := by simp [Cursor.size, h]
    if c == '"' then
      match readLiteral start rest with
      | .error f => .error f
      | .ok (e, ⟨after, _⟩) => .ok (e, ⟨after, by omega⟩)
    else if c == '[' then
      let inside := start.past [c] rest
      have : inside.size = rest.length := rfl
      match readItems expression ']' inside with
      | .error f => .error f
      | .ok (items, ⟨after, _⟩) => .ok (.array items, ⟨after, by omega⟩)
    else if c.isDigit || c == '-' then
      match readNumber start c rest with
      | .error f => .error f
      | .ok (e, ⟨after, _⟩) => .ok (e, ⟨after, by omega⟩)
    else if isWordStart c then readWordExpression expression start c rest hsize
    else .error (start.error ("unexpected character \x60" ++ c.toString ++ "\x60"))

/-- An expression of at most the given depth, with blanks before it. -/
def readExpr : (depth : Nat) → ExprReader
  | 0, c => .error (c.skipBlanks.error "expression nested too deeply")
  | depth + 1, c =>
    match readHere (readExpr depth) c.skipBlanks with
    | .error f => .error f
    | .ok (e, ⟨after, _⟩) => .ok (e, ⟨after, by have := c.size_skipBlanks_le; omega⟩)

/-- How deep expressions may be nested. -/
def depthLimit : Nat := 1024

/-- Reads a complete piece of render code. -/
def parse (code : String) : Except SyntaxError Expr :=
  match readExpr depthLimit ⟨0, code.toList⟩ with
  | .error f => .error f
  | .ok (e, ⟨after, _⟩) =>
    if after.skipBlanks.rest.isEmpty then .ok e
    else .error (after.skipBlanks.error "unexpected token")

end HtmlTemplate.Code
