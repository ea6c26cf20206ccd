/-!
# Text as markup

The five characters that mean something in markup are written as references.
-/

namespace HtmlTemplate.Markup

def encodedChar (c : Char) : List Char :=
  if c == '&' then ['&', 'a', 'm', 'p', ';']
  else if c == '<' then ['&', 'l', 't', ';']
  else if c == '>' then ['&', 'g', 't', ';']
  else if c == '"' then ['&', 'q', 'u', 'o', 't', ';']
  else if c == '\'' then ['&', '#', '3', '9', ';']
  else [c]

def encodeText (s : String) : String := String.ofList (s.toList.flatMap encodedChar)

end HtmlTemplate.Markup
