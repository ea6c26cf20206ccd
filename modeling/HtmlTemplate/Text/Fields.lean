import HtmlTemplate.Text.Blank

/-!
# Fields and words

The fields of a text are what stands between the occurrences of a separator, empty ones included;
its words are the maximal runs without blanks.
-/

namespace HtmlTemplate.Text

/-- The fields of a text, the first of which continues a field begun before it, kept in reverse. -/
def fieldsFrom (separator : Char) (begun : List Char) : List Char → List (List Char)
  | [] => [begun.reverse]
  | c :: rest =>
    if c == separator then begun.reverse :: fieldsFrom separator [] rest
    else fieldsFrom separator (c :: begun) rest

def fields (separator : Char) (s : List Char) : List (List Char) := fieldsFrom separator [] s

def wordsFrom (begun : List Char) : List Char → List (List Char)
  | [] => if begun.isEmpty then [] else [begun.reverse]
  | c :: rest =>
    if isBlank c then
      if begun.isEmpty then wordsFrom [] rest else begun.reverse :: wordsFrom [] rest
    else wordsFrom (c :: begun) rest

def words (s : List Char) : List (List Char) := wordsFrom [] s

/-- What stands before the first occurrence of a separator and after it. -/
def splitOnce? (separator : Char) (s : List Char) : Option (List Char × List Char) :=
  match s.dropWhile (· != separator) with
  | [] => none
  | _ :: rest => some (s.takeWhile (· != separator), rest)

end HtmlTemplate.Text
