import HtmlTemplate.Text.Search

/-!
# Replacing a mark
-/

namespace HtmlTemplate.Text

def replaceFrom (mark substitute : List Char) (nonempty : mark ≠ []) (done s : List Char) :
    List Char :=
  match h : cut? mark s with
  | none => done.reverse ++ s
  | some (before, rest) =>
    have := length_lt_of_cut? nonempty h
    replaceFrom mark substitute nonempty (substitute.reverse ++ (before.reverse ++ done)) rest
termination_by s.length

/-- Replaces every occurrence of a mark, from left to right; an empty mark has none. -/
def replace (mark substitute s : String) : String :=
  if h : mark.toList = [] then s
  else String.ofList (replaceFrom mark.toList substitute.toList h [] s.toList)

end HtmlTemplate.Text
