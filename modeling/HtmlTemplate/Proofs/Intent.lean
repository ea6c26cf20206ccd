import HtmlTemplate.Proofs.Offsets
import HtmlTemplate.Template.RenderCode

/-!
# What the code of a tree is meant to be

The code of a tree is a text with the template's expressions in it as they were written.
`Node.intent` is the expression that the text should be: built from the tree without any text, with
every expression of the template read on its own. The code of a tree for the web is read as its
intent if all expressions that stand in it can be read (`Node.means_intent`).
-/

namespace HtmlTemplate.Template

open HtmlTemplate.Code (Expr)

/-- The expression that a text of the template holds, offsets aside. -/
def userExpr (code : String) : Expr :=
  match Code.parse code with
  | .ok e => e.bare
  | .error _ => .literal .null

/-- The arguments of a helper that is called with what stands between the parentheses: there is no
argument if nothing does. -/
def userArguments (code : String) : List Expr := if code.isEmpty then [] else [userExpr code]

def textExpr (s : String) : Expr := .literal (.string s)

def Part.expr : Part → Expr
  | .fixed text => textExpr text
  | .expression code => .call "_s" [userExpr code] 0

def runExpr (parts : List Part) : Expr :=
  match parts.map Part.expr with
  | [] => .call "_v" [textExpr ""] 0
  | [single] => .call "_v" [single] 0
  | many => .call "_v" [.call "_j" many 0] 0

def attributeExpr (name value : Expr) : Expr := .call "_a" [name, value] 0

def mergedExprs (name : String) (fixed : Option String) (bound : Option Binding)
    (separator : String) : List Expr :=
  match fixed, bound with
  | some value, some b =>
    [attributeExpr (textExpr name)
      (.call "_j" [textExpr (value ++ separator), .call "_s" [userExpr b.expression] 0] 0)]
  | some value, none => [attributeExpr (textExpr name) (textExpr value)]
  | none, some b => [attributeExpr (textExpr name) (userExpr b.expression)]
  | none, none => []

def Binding.exprs (b : Binding) : List Expr :=
  if b.isComputed then [attributeExpr (userExpr b.name) (userExpr b.expression)]
  else if b.name == "class" || b.name == "style" then []
  else [attributeExpr (textExpr b.name) (userExpr b.expression)]

/-- The directive of the web that supplies the children of an element. -/
def Head.supplier? (head : Head) : Option Directive :=
  head.directives.find? fun d => d.name == "html" || d.name == "text"

def Directive.childrenExpr (d : Directive) : Expr :=
  if d.name == "html" then .array [.call "_h" (userArguments d.value) 0]
  else .array [.call "_v" [.call "_s" (userArguments d.value) 0] 0]

namespace Head

def attributeExprs (head : Head) : List Expr :=
  mergedExprs "class" head.fixedClass (head.binding? "class") " " ++
    mergedExprs "style" head.fixedStyle (head.binding? "style") "" ++
    head.plain.map (fun (name, value) => attributeExpr (textExpr name) (textExpr value)) ++
    head.bindings.flatMap Binding.exprs

def expr (head : Head) (children : Option Expr) : Expr :=
  .call "_c" (textExpr head.name :: .array head.attributeExprs :: children.toList) 0

end Head

/-- The expressions of a piece of code and of the static bodies that it refers to. -/
structure Intent where
  main : Expr
  statics : List Expr
  deriving Inhabited

namespace Head

/-- The call for an element whose children have these expressions and static bodies. -/
def bodyIntent (head : Head) (children : List Expr × List Expr) : Intent :=
  match head.supplier? with
  | some d => ⟨head.expr (some d.childrenExpr), []⟩
  | none =>
    if head.unary then ⟨head.expr none, []⟩
    else ⟨head.expr (some (.array children.1)), children.2⟩

def wrapIntent (head : Head) (first : Nat) (body : Intent) : Intent :=
  if head.isStaticRoot then
    ⟨.call "_m" [.literal (.number (.integer (first + body.statics.length)))] 0,
      body.statics ++ [body.main]⟩
  else
    match head.condition with
    | some condition => ⟨.call "_i" [userExpr condition, body.main] 0, body.statics⟩
    | none => body

end Head

mutual

def Node.intent (first : Nat) : Node → Intent
  | .element head children => head.wrapIntent first (head.bodyIntent (intentAll first children))
  | .text run => ⟨runExpr run.parts, []⟩
  | .comment content _ => ⟨.call "_cm" [textExpr content] 0, []⟩

def intentAll (first : Nat) : List Node → List Expr × List Expr
  | [] => ([], [])
  | node :: rest =>
    let intent := node.intent first
    let (exprs, statics) := intentAll (first + intent.statics.length) rest
    (intent.main :: exprs, intent.statics ++ statics)

end

/-! ### The expressions that stand in the code -/

def Part.spliced : Part → List String
  | .fixed _ => []
  | .expression code => [code]

def Binding.spliced (b : Binding) : List String :=
  if b.isComputed then [b.name, b.expression]
  else if b.name == "class" || b.name == "style" then []
  else [b.expression]

def Head.spliced (head : Head) : List String :=
  ((head.binding? "class").toList ++ (head.binding? "style").toList).map Binding.expression ++
    head.bindings.flatMap Binding.spliced ++ head.condition.toList

/-- The expressions that the code of a node itself holds, other than those that supply children. -/
def Node.ownSpliced : Node → List String
  | .element head _ => head.spliced
  | .text run => run.parts.flatMap Part.spliced
  | .comment .. => []

/-- The value of the directive that supplies the children of a node. -/
def Node.ownSupplied : Node → List String
  | .element head _ => head.supplier?.toList.map Directive.value
  | .text _ => []
  | .comment .. => []

/-- Whether there is code for the children of an element. -/
def Head.keepsChildren (head : Head) : Bool := head.supplier?.isNone && !head.unary

mutual

/-- The nodes for which there is code, in order. -/
def Node.generated : Node → List Node
  | .element head children =>
    .element head children :: if head.keepsChildren then generatedAll children else []
  | .text run => [.text run]
  | .comment content span => [.comment content span]

def generatedAll : List Node → List Node
  | [] => []
  | node :: rest => node.generated ++ generatedAll rest

end

/-- All expressions that stand in the code of a tree, other than those that supply children. -/
def Node.spliced (n : Node) : List String := n.generated.flatMap Node.ownSpliced

/-- The values of all directives that supply children in the code of a tree. -/
def Node.supplied (n : Node) : List String := n.generated.flatMap Node.ownSupplied

/-- What holds of a node if it holds of the children of elements first. -/
theorem Node.induction {motive : Node → Prop}
    (element : ∀ head children, (∀ n ∈ children, motive n) → motive (.element head children))
    (text : ∀ run, motive (.text run)) (comment : ∀ content span, motive (.comment content span))
    (n : Node) : motive n :=
  match n with
  | .element head children =>
    element head children fun n _ => Node.induction element text comment n
  | .text run => text run
  | .comment content span => comment content span

theorem generatedAll_eq (nodes : List Node) :
    generatedAll nodes = nodes.flatMap Node.generated := by
  induction nodes with
  | nil => rfl
  | cons node rest ih => rw [generatedAll, ih, List.flatMap_cons]

theorem Node.spliced_element (head : Head) (children : List Node) :
    (Node.element head children).spliced = head.spliced ++
      if head.keepsChildren then children.flatMap Node.spliced else [] := by
  unfold spliced
  rw [generated, List.flatMap_cons, ownSpliced, generatedAll_eq,
    apply_ite (List.flatMap Node.ownSpliced), List.flatMap_assoc]
  rfl

theorem Node.supplied_element (head : Head) (children : List Node) :
    (Node.element head children).supplied = head.supplier?.toList.map Directive.value ++
      if head.keepsChildren then children.flatMap Node.supplied else [] := by
  unfold supplied
  rw [generated, List.flatMap_cons, ownSupplied, generatedAll_eq,
    apply_ite (List.flatMap Node.ownSupplied), List.flatMap_assoc]
  rfl

/-- The children of an element count only if there is code for them. -/
theorem mem_generated_children {head : Head} {children : List Node} {n m : Node}
    (hkeeps : head.keepsChildren = true) (hn : n ∈ children) (hm : m ∈ n.generated) :
    m ∈ (Node.element head children).generated := by
  rw [Node.generated, if_pos hkeeps, generatedAll_eq]
  exact List.mem_cons_of_mem _ (List.mem_flatMap.2 ⟨n, hn, hm⟩)

theorem mem_spliced_children {head : Head} {children : List Node} {n : Node} {u : String}
    (hkeeps : head.keepsChildren = true) (hn : n ∈ children) (hu : u ∈ n.spliced) :
    u ∈ (Node.element head children).spliced := by
  rcases List.mem_flatMap.1 hu with ⟨m, hm, hu⟩
  exact List.mem_flatMap.2 ⟨m, mem_generated_children hkeeps hn hm, hu⟩

theorem mem_supplied_children {head : Head} {children : List Node} {n : Node} {u : String}
    (hkeeps : head.keepsChildren = true) (hn : n ∈ children) (hu : u ∈ n.supplied) :
    u ∈ (Node.element head children).supplied := by
  rcases List.mem_flatMap.1 hu with ⟨m, hm, hu⟩
  exact List.mem_flatMap.2 ⟨m, mem_generated_children hkeeps hn hm, hu⟩

section

variable {head : Head}

theorem mem_spliced_condition {c : String} (hc : c ∈ head.condition) : c ∈ head.spliced :=
  List.mem_append_right _ (Option.mem_toList.2 hc)

theorem mem_spliced_class {b : Binding} (hb : b ∈ head.binding? "class") :
    b.expression ∈ head.spliced := by
  simp [Head.spliced, Option.mem_def.1 hb]

theorem mem_spliced_style {b : Binding} (hb : b ∈ head.binding? "style") :
    b.expression ∈ head.spliced := by
  simp [Head.spliced, Option.mem_def.1 hb]

theorem mem_spliced_binding {b : Binding} (hb : b ∈ head.bindings) {u : String}
    (hu : u ∈ b.spliced) : u ∈ head.spliced :=
  List.mem_append_left _ (List.mem_append_right _ (List.mem_flatMap.2 ⟨b, hb, hu⟩))

end

theorem mem_spliced_head {head : Head} {children : List Node} {u : String} (hu : u ∈ head.spliced) :
    u ∈ (Node.element head children).spliced := by
  simp [Node.spliced, Node.generated, Node.ownSpliced, hu]

theorem mem_supplied_head {head : Head} {children : List Node} {d : Directive}
    (hd : head.supplier? = some d) : d.value ∈ (Node.element head children).supplied := by
  simp [Node.supplied, Node.generated, Node.ownSupplied, hd]

mutual

/-- All elements of a tree, in order. -/
def Node.elements : Node → List Element
  | .element head children => ⟨head, children⟩ :: elementsAll children
  | .text _ => []
  | .comment .. => []

def elementsAll : List Node → List Element
  | [] => []
  | node :: rest => node.elements ++ elementsAll rest

end

theorem elementsAll_eq (nodes : List Node) : elementsAll nodes = nodes.flatMap Node.elements := by
  induction nodes with
  | nil => rfl
  | cons node rest ih => rw [elementsAll, ih, List.flatMap_cons]

theorem mem_elementsAll {nodes : List Node} {e : Element} :
    e ∈ elementsAll nodes ↔ ∃ n ∈ nodes, e ∈ n.elements := by
  rw [elementsAll_eq, List.mem_flatMap]

theorem mem_elements_children {head : Head} {children : List Node} {n : Node} {e : Element}
    (hn : n ∈ children) (he : e ∈ n.elements) : e ∈ (Node.element head children).elements :=
  List.mem_cons_of_mem _ (mem_elementsAll.2 ⟨n, hn, he⟩)

/-- None of the elements is a static root. -/
def Rootless (elements : List Element) : Prop :=
  ∀ e ∈ elements, e.head.isStaticRoot = false

theorem Head.statics_bodyIntent (head : Head) {children : List Expr × List Expr}
    (h : children.2 = []) : (head.bodyIntent children).statics = [] := by
  unfold bodyIntent
  split
  · rfl
  · split
    · rfl
    · exact h

theorem Head.statics_bodyIntent_of_keeps (head : Head) (h : head.keepsChildren = true)
    (children : List Expr × List Expr) : (head.bodyIntent children).statics = children.2 := by
  obtain ⟨hsupplier, hunary⟩ : head.supplier? = none ∧ head.unary = false := by
    simpa [keepsChildren] using h
  simp [bodyIntent, hsupplier, hunary]

theorem Head.statics_bodyIntent_of_not_keeps (head : Head) (h : head.keepsChildren = false)
    (children : List Expr × List Expr) : (head.bodyIntent children).statics = [] := by
  unfold bodyIntent
  split
  · rfl
  · next hs =>
    have hunary : head.unary = true := by simpa [keepsChildren, hs] using h
    rw [if_pos hunary]

theorem Head.statics_wrapIntent {head : Head} (hroot : head.isStaticRoot = false) (first : Nat)
    (body : Intent) : (head.wrapIntent first body).statics = body.statics := by
  rw [wrapIntent, if_neg (by simp [hroot])]
  split <;> rfl

theorem statics_intentAll {nodes : List Node}
    (h : ∀ n ∈ nodes, ∀ first, (n.intent first).statics = []) (first : Nat) :
    (intentAll first nodes).2 = [] := by
  induction nodes generalizing first with
  | nil => rfl
  | cons n nodes ih =>
    have hn := h n (by simp) first
    have hrest := ih (fun m hm => h m (by simp [hm])) first
    simp only [intentAll, hn, List.length_nil, Nat.add_zero, hrest, List.append_nil]

/-- Without a static root there are no static bodies. -/
theorem Node.statics_intent {n : Node} (h : Rootless n.elements) (first : Nat) :
    (n.intent first).statics = [] := by
  induction n using Node.induction generalizing first with
  | text run => rfl
  | comment content span => rfl
  | element head children ih =>
    have hroot : head.isStaticRoot = false := h ⟨head, children⟩ List.mem_cons_self
    rw [intent, Head.statics_wrapIntent hroot]
    apply head.statics_bodyIntent
    apply statics_intentAll
    intro n hn first
    exact ih n hn (fun e he => h e (mem_elements_children hn he)) first

theorem statics_intentAll_of_rootless {nodes : List Node} (h : Rootless (elementsAll nodes))
    (first : Nat) : (intentAll first nodes).2 = [] := by
  apply statics_intentAll
  intro n hn
  exact Node.statics_intent fun e he => h e (mem_elementsAll.2 ⟨n, hn, he⟩)

end HtmlTemplate.Template
