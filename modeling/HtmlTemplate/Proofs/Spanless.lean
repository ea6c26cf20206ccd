import HtmlTemplate.Proofs.Marks
import HtmlTemplate.Proofs.Presentation
import HtmlTemplate.Template.Check
import HtmlTemplate.Template.RenderCode

/-!
# Trees without the spans of attributes

The spans of attributes are there only if positions were asked for, and the bindings and directives
of a tree have the spans of their attributes. The tree without all of these has the same static
subtrees and, unless a directive makes code of the span it was given, the same code; the check says
the same about it, though not where (`Node.check_spanless`).
-/

namespace HtmlTemplate.Markup

def Attribute.spanless (a : Attribute) : Attribute := { a with span := none }

/-- The event without the spans of attributes. -/
def Event.spanless : Event → Event
  | .startTag name attributes unary span =>
    .startTag name (attributes.map Attribute.spanless) unary span
  | .endTag name span => .endTag name span
  | .text content span => .text content span
  | .comment content span => .comment content span
  | .warning message range => .warning message range

theorem View.ofEvents_spanless (events : List Event) :
    View.spanless.ofEvents events = events.map Event.spanless := by
  have heach : View.spanless.ofEvent? = some ∘ Event.spanless := by
    funext e
    cases e <;> rfl
  rw [View.ofEvents, heach, List.filterMap_eq_map]

end HtmlTemplate.Markup

namespace HtmlTemplate.Template

open Markup

def Binding.spanless (b : Binding) : Binding := { b with span := none }

def Directive.spanless (d : Directive) : Directive := { d with span := none }

def Head.spanless (head : Head) : Head :=
  { head with
    written := head.written.map Attribute.spanless
    bindings := head.bindings.map Binding.spanless
    directives := head.directives.map Directive.spanless }

mutual

/-- The tree without the spans of attributes, bindings and directives. -/
def Node.spanless : Node → Node
  | .element head children => .element head.spanless (spanlessAll children)
  | .text run => .text run
  | .comment content span => .comment content span

def spanlessAll : List Node → List Node
  | [] => []
  | node :: rest => node.spanless :: spanlessAll rest

end

def Element.spanless (e : Element) : Element := ⟨e.head.spanless, spanlessAll e.children⟩

theorem spanlessAll_eq_map (nodes : List Node) : spanlessAll nodes = nodes.map Node.spanless := by
  induction nodes with
  | nil => rfl
  | cons n nodes ih => rw [spanlessAll, ih, List.map_cons]

/-! ### Static subtrees -/

theorem Head.features_spanless (head : Head) : head.spanless.features = head.features := by
  simp [features, spanless]

theorem Node.isStatic_spanless (n : Node) : n.spanless.isStatic = n.isStatic := by
  cases n <;> rfl

theorem Node.withStatic_spanless (keys : List String) (n : Node) :
    n.spanless.withStatic keys = (n.withStatic keys).spanless := by
  induction n using Node.induction with
  | text run => rfl
  | comment content span => rfl
  | element head children ih =>
    have hchildren : withStaticAll keys (spanlessAll children) =
        spanlessAll (withStaticAll keys children) := by
      simp only [withStaticAll_eq_map, spanlessAll_eq_map, List.map_map]
      exact List.map_congr_left ih
    have hstatic : (spanlessAll (withStaticAll keys children)).all Node.isStatic =
        (withStaticAll keys children).all Node.isStatic := by
      rw [spanlessAll_eq_map, List.all_map]
      exact List.all_congr rfl fun n => n.isStatic_spanless
    have hallows : head.spanless.allowsStatic keys = head.allowsStatic keys := by
      rw [Head.allowsStatic, Head.allowsStatic, head.features_spanless]
      rfl
    rw [spanless, withStatic, withStatic, spanless, hchildren, hstatic, hallows]
    rfl

theorem isSlight_spanlessAll (nodes : List Node) :
    isSlight (spanlessAll nodes) = isSlight nodes := by
  rw [spanlessAll_eq_map]
  match nodes with
  | [] => rfl
  | [n] => cases n <;> rfl
  | n :: m :: rest => cases n <;> rfl

theorem Node.withRoots_spanless (n : Node) : n.spanless.withRoots = n.withRoots.spanless := by
  induction n using Node.induction with
  | text run => rfl
  | comment content span => rfl
  | element head children ih =>
    have hchildren : withRootsAll (spanlessAll children) = spanlessAll (withRootsAll children) := by
      simp only [withRootsAll_eq_map, spanlessAll_eq_map, List.map_map]
      exact List.map_congr_left ih
    have hhead : head.spanless.isStatic = head.isStatic := rfl
    rw [spanless, withRoots, withRoots, hhead, isSlight_spanlessAll, hchildren]
    split <;> rfl

theorem Element.optimize_spanless (keys : List String) (e : Element) :
    e.spanless.optimize keys = (e.optimize keys).spanless := by
  have hnode : (e.spanless.optimize keys).toNode = (e.optimize keys).spanless.toNode := by
    rw [toNode_optimize, show e.spanless.toNode = e.toNode.spanless from rfl,
      Node.withStatic_spanless, Node.withRoots_spanless, ← toNode_optimize]
    rfl
  injection hnode with hhead hchildren
  exact congrArg₂ Element.mk hhead hchildren

/-! ### Code -/

/-- What the directive gives for the children does not depend on the span that it is handed. -/
def IgnoresSpan (code : ChildrenCode) : Prop := ∀ d, code d.spanless = code d

theorem ignoresSpan_textDirective : IgnoresSpan textDirective := fun _ => rfl

theorem ignoresSpan_markupDirective : IgnoresSpan markupDirective := fun _ => rfl

theorem ignoresSpan_patternDirective (pattern : String) : IgnoresSpan (patternDirective pattern) :=
  fun _ => rfl

theorem Head.binding?_spanless (head : Head) (name : String) :
    head.spanless.binding? name = (head.binding? name).map Binding.spanless :=
  List.find?_map ..

theorem mergedCode_spanless (name : String) (fixed : Option String) (bound : Option Binding)
    (separator : String) :
    mergedCode name fixed (bound.map Binding.spanless) separator =
      mergedCode name fixed bound separator := by
  cases fixed <;> cases bound <;> rfl

theorem Head.attributeCodes_spanless (head : Head) :
    head.spanless.attributeCodes = head.attributeCodes := by
  have hbindings : head.spanless.bindings.flatMap Binding.codes =
      head.bindings.flatMap Binding.codes :=
    List.flatMap_map ..
  rw [attributeCodes, attributeCodes, hbindings, binding?_spanless, binding?_spanless,
    mergedCode_spanless, mergedCode_spanless]
  rfl

section

variable {directives : OrderedMap ChildrenCode}
  (hdirectives : ∀ name, ∀ code ∈ directives.find? name, IgnoresSpan code)
include hdirectives

theorem Head.directiveChildren?_spanless (head : Head) :
    head.spanless.directiveChildren? directives = head.directiveChildren? directives := by
  rw [directiveChildren?, directiveChildren?, spanless, List.findSome?_map]
  congr 1
  funext d
  change (directives.find? d.name).bind (fun code => code d.spanless) =
    (directives.find? d.name).bind fun code => code d
  cases hcode : directives.find? d.name with
  | none => rfl
  | some code => exact hdirectives d.name code hcode d

omit hdirectives in
theorem codeAll_spanless {nodes : List Node}
    (h : ∀ n ∈ nodes, ∀ first, n.spanless.code directives first = n.code directives first)
    (first : Nat) :
    codeAll directives first (spanlessAll nodes) = codeAll directives first nodes := by
  induction nodes generalizing first with
  | nil => rfl
  | cons n nodes ih =>
    obtain ⟨hn, hnodes⟩ := List.forall_mem_cons.1 h
    rw [spanlessAll, codeAll, codeAll, hn first]
    simp only [ih hnodes]

theorem Node.code_spanless (n : Node) (first : Nat) :
    n.spanless.code directives first = n.code directives first := by
  induction n using Node.induction generalizing first with
  | text run => rfl
  | comment content span => rfl
  | element head children ih =>
    have hcode : ∀ inner, head.spanless.code inner = head.code inner := by
      intro inner
      unfold Head.code
      rw [head.attributeCodes_spanless]
      rfl
    have hwrap : ∀ body, head.spanless.wrap first body = head.wrap first body := fun _ => rfl
    have hunary : head.spanless.unary = head.unary := rfl
    rw [spanless, code, code, head.directiveChildren?_spanless hdirectives, hunary,
      codeAll_spanless ih]
    simp only [hcode, hwrap]

end

/-! ### Check -/

/-- What reports say, without where. -/
def unlocated (reports : List Report) : List Report := reports.map (Report.relocate none)

@[simp] theorem unlocated_nil : unlocated [] = [] := rfl

@[simp] theorem unlocated_append (reports more : List Report) :
    unlocated (reports ++ more) = unlocated reports ++ unlocated more :=
  List.map_append

@[simp] theorem unlocated_reverse (reports : List Report) :
    unlocated reports.reverse = (unlocated reports).reverse :=
  List.map_reverse

@[simp] theorem unlocated_unlocated (reports : List Report) :
    unlocated (unlocated reports) = unlocated reports :=
  List.map_map

theorem unlocated_flatMap {α : Type} {f g : α → List Report} {items : List α}
    (h : ∀ a ∈ items, unlocated (f a) = unlocated (g a)) :
    unlocated (items.flatMap f) = unlocated (items.flatMap g) := by
  induction items with
  | nil => rfl
  | cons a items ih =>
    obtain ⟨ha, hitems⟩ := List.forall_mem_cons.1 h
    rw [List.flatMap_cons, List.flatMap_cons, unlocated_append, unlocated_append, ha, ih hitems]

theorem unlocated_checkExpression (expression written : String) (span span' : Option Span) :
    unlocated (checkExpression expression written span) =
      unlocated (checkExpression expression written span') := by
  unfold checkExpression
  split <;> rfl

theorem Binding.check_spanless (b : Binding) : unlocated b.spanless.check = unlocated b.check := by
  have hexpression :
      unlocated (checkExpression b.expression (asWritten b.written b.expression) none) =
        unlocated (checkExpression b.expression (asWritten b.written b.expression) b.span) :=
    unlocated_checkExpression ..
  have hname :
      unlocated (checkExpression b.name (asWritten b.written b.expression) none) =
        unlocated (checkExpression b.name (asWritten b.written b.expression) b.span) :=
    unlocated_checkExpression ..
  cases hcomputed : b.isComputed <;> simp [check, spanless, hcomputed, hexpression, hname]

theorem Directive.check_spanless (d : Directive) :
    unlocated d.spanless.check = unlocated d.check := by
  cases hunchecked : uncheckedDirectives.contains d.name || d.value.isEmpty with
  | true => simp only [check, spanless, hunchecked, if_true]
  | false =>
    simp only [check, spanless, hunchecked, Bool.false_eq_true, if_false]
    exact unlocated_checkExpression ..

theorem Head.checkCondition_spanless (head : Head) :
    unlocated head.spanless.checkCondition = unlocated head.checkCondition := by
  unfold checkCondition
  cases hcondition : head.condition with
  | none => simp [spanless, hcondition]
  | some condition =>
    simp only [spanless, hcondition]
    exact unlocated_checkExpression ..

theorem Head.check_spanless (head : Head) :
    unlocated head.spanless.check = unlocated head.check := by
  have hbindings : unlocated (head.spanless.bindings.flatMap Binding.check) =
      unlocated (head.bindings.flatMap Binding.check) := by
    rw [spanless, List.flatMap_map]
    exact unlocated_flatMap fun b _ => b.check_spanless
  have hdirectives : unlocated (head.spanless.directives.flatMap Directive.check) =
      unlocated (head.directives.flatMap Directive.check) := by
    rw [spanless, List.flatMap_map]
    exact unlocated_flatMap fun d _ => d.check_spanless
  simp only [check, unlocated_append, hbindings, hdirectives, head.checkCondition_spanless]

theorem Node.check_spanless (n : Node) : unlocated n.spanless.check = unlocated n.check := by
  induction n using Node.induction with
  | text run => rfl
  | comment content span => rfl
  | element head children ih =>
    rw [spanless, check, check, checkAll_eq, checkAll_eq, spanlessAll_eq_map, List.flatMap_map,
      unlocated_append, unlocated_append, head.check_spanless, unlocated_flatMap ih]

end HtmlTemplate.Template
