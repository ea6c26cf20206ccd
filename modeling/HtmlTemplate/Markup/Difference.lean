/-!
# Differences between listings

The first line in which two listings differ, with two lines around it on either side, and how long
the two are.
-/

namespace HtmlTemplate.Markup

/-- A line of a listing, or what stands for one that is not there. -/
def lineOrMissing (lines : List String) (i : Nat) : String := lines[i]?.getD "<missing>"

/-- A number with blanks before it, at least four places wide. -/
def paddedNumber (n : Nat) : String :=
  String.ofList (List.replicate (4 - n.repr.length) ' ') ++ n.repr

/-- The two rows for a line, marked if it is the one that differs. -/
def differenceRows (expected actual : List String) (differing i : Nat) : String :=
  let marker := if i == differing then "> " else "  "
  marker ++ paddedNumber (i + 1) ++ "  expected: " ++ lineOrMissing expected i ++ "\n" ++
    marker ++ paddedNumber (i + 1) ++ "    actual: " ++ lineOrMissing actual i ++ "\n"

/-- The rows around the line that differs. -/
def differenceExcerpt (expected actual : List String) (differing : Nat) : String :=
  let first := differing - 2
  let stop := min (differing + 3) (max expected.length actual.length)
  "first mismatch at line " ++ (differing + 1).repr ++ " (showing " ++ (first + 1).repr ++ "..=" ++
    stop.repr ++ "):\n" ++
    String.join ((List.range' first (stop - first)).map (differenceRows expected actual differing))

/-- The first line in which two listings differ. -/
def firstDifference? (expected actual : List String) : Option Nat :=
  (List.range (max expected.length actual.length)).find? fun i =>
    lineOrMissing expected i != lineOrMissing actual i

def difference (expected actual : List String) : String :=
  ((firstDifference? expected actual).map (differenceExcerpt expected actual)).getD "" ++
    "expected " ++ expected.length.repr ++ " lines, actual " ++ actual.length.repr ++ " lines\n"

end HtmlTemplate.Markup
