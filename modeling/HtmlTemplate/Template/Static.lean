import HtmlTemplate.Template.Options

/-!
# Static subtrees

An element is static when all its features are static keys, its name is not reserved, and all its
children are static. The topmost static elements with content worth it are static roots, which get
procedures of their own.
-/

namespace HtmlTemplate.Template

/-- Elements that stand for content from elsewhere. -/
def isReservedName (name : String) : Bool := name == "slot" || name == "component"

/-- Whether an element's own features leave it static. -/
def Head.allowsStatic (keys : List String) (head : Head) : Bool :=
  !isReservedName head.name && head.features.all keys.contains

mutual

/-- Marks every element of a tree that is static. -/
def Node.withStatic (keys : List String) : Node → Node
  | .element head children =>
    let children := withStaticAll keys children
    .element { head with isStatic := head.allowsStatic keys && children.all Node.isStatic } children
  | .text run => .text run
  | .comment content span => .comment content span

def withStaticAll (keys : List String) : List Node → List Node
  | [] => []
  | node :: rest => node.withStatic keys :: withStaticAll keys rest

end

/-- Whether there is nothing among the children, or one text or comment. -/
def isSlight : List Node → Bool
  | [] => true
  | [.text _] => true
  | [.comment ..] => true
  | _ => false

mutual

/-- Marks the topmost static elements that are not slight as static roots. -/
def Node.withRoots : Node → Node
  | .element head children =>
    if head.isStatic && !isSlight children then
      .element { head with isStaticRoot := true } children
    else .element { head with isStaticRoot := false } (withRootsAll children)
  | .text run => .text run
  | .comment content span => .comment content span

def withRootsAll : List Node → List Node
  | [] => []
  | node :: rest => node.withRoots :: withRootsAll rest

end

def Element.ofNode (default : Element) : Node → Element
  | .element head children => ⟨head, children⟩
  | _ => default

/-- Marks static elements and static roots. -/
def Element.optimize (keys : List String) (e : Element) : Element :=
  .ofNode e (e.toNode.withStatic keys).withRoots

end HtmlTemplate.Template
