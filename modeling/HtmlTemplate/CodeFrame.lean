import HtmlTemplate.Text.Extent

/-!
# Code frames

A code frame shows the lines of a source around a range, up to two on either side, with a row of
carets under the part of each line that the range covers. Offsets count bytes, columns count
characters.
-/

namespace HtmlTemplate.CodeFrame

open Text

/-- How many lines are shown before and after the line where the range begins. -/
def context : Nat := 2

/-- A line of a source. -/
structure Line where
  number : Nat
  start : Nat
  text : List Char
  /-- The bytes of the line end. The last line counts as if it had one of one byte. -/
  terminator : Nat
  deriving DecidableEq, Repr

namespace Line

/-- The first byte after the line and its end. -/
def stop (l : Line) : Nat := l.start + extent l.text + l.terminator

/-- How many characters of a text begin before a byte, counted from the beginning of the text. -/
def charsBefore (bytes : Nat) : List Char → Nat
  | [] => 0
  | c :: rest => if bytes = 0 then 0 else charsBefore (bytes - c.utf8Size) rest + 1

/-- How many characters of the line begin before a byte of the source. -/
def column (l : Line) (offset : Nat) : Nat := charsBefore (offset - l.start) l.text

end Line

/-- A line with the given text before a line feed, which may be the second half of its end. -/
def Line.beforeLineFeed (number start : Nat) (reversed : List Char) : Line :=
  match reversed with
  | '\r' :: text => ⟨number, start, text.reverse, 2⟩
  | text => ⟨number, start, text.reverse, 1⟩

/-- The lines of a text, the first of which was begun before, in reverse. -/
def linesFrom (number start : Nat) (begun : List Char) : List Char → List Line
  | [] => [⟨number, start, begun.reverse, 1⟩]
  | c :: rest =>
    if c == '\n' then
      let line := Line.beforeLineFeed number start begun
      line :: linesFrom (number + 1) line.stop [] rest
    else linesFrom number start (c :: begun) rest

def lines (source : String) : List Line := linesFrom 1 0 [] source.toList

def spaces (n : Nat) : String := String.ofList (List.replicate n ' ')

def carets (n : Nat) : String := String.ofList (List.replicate n '^')

/-- A line with its number, padded to three places. -/
def Line.row (l : Line) : String :=
  l.number.repr ++ spaces (3 - l.number.repr.length) ++ "|  " ++ String.ofList l.text

def caretRow (indent width : Nat) : String := "   |  " ++ spaces indent ++ carets width

/-- The rows for the line in which the range begins. -/
def firstRows (start stop : Nat) (l : Line) : List String :=
  let indent := l.column start
  let width :=
    if l.stop < stop then l.text.length - indent else l.column stop - indent
  [l.row, caretRow indent width]

/-- The rows for a line after it. -/
def laterRows (stop : Nat) (l : Line) : List String :=
  if l.start < stop then [l.row, caretRow 0 (l.column stop)] else [l.row]

/-- The frame for the bytes from `start` to `stop`; empty if the source does not reach `start`. -/
def frame (source : String) (start stop : Nat) : String :=
  let all := lines source
  match all.dropWhile fun l => l.stop ≤ start with
  | [] => ""
  | first :: later =>
    let earlier := all.take (first.number - 1)
    let shown := (later.zipIdx 1).takeWhile fun (l, i) => i ≤ context || l.start < stop
    "\n".intercalate
      ((earlier.drop (earlier.length - context)).map Line.row ++ firstRows start stop first ++
        shown.flatMap fun (l, _) => laterRows stop l)

end HtmlTemplate.CodeFrame
