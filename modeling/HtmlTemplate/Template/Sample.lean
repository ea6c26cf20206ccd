/-!
# A sample template

A block with a bound attribute, an interpolation, a void element and a static subtree, as often as
one likes.
-/

namespace HtmlTemplate.Template

def sampleBlock : String :=
  "<div class=\"box\" :title=\"t\"><span>hello \x7b\x7b name \x7d\x7d</span>" ++
    "<img src=\"x\"><ul><li>a</li></ul></div>"

/-- So many blocks in one root. -/
def sampleComponent (blocks : Nat) : String :=
  "<main>" ++ String.join (List.replicate blocks sampleBlock) ++ "</main>"

end HtmlTemplate.Template
