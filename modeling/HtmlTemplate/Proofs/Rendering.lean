import HtmlTemplate.Proofs.Evaluation
import HtmlTemplate.Proofs.Intent

/-!
# Rendering a tree without code

`Node.render` says what a tree looks like under data, straight from the tree: every expression of
the template is read and evaluated on its own, and the markup is put together around the results.
The intended expression of a tree evaluates to just that (`Node.evaluates_intent`), provided that
static bodies are called where they belong.
-/

namespace HtmlTemplate.Template

open Markup (encodeText)
open HtmlTemplate.Code (Evaluates Expr Result RenderFailure writeAttribute emptyNode)

section

variable (data : Json.Value)

/-- What an expression of the template is under the data. -/
def evaluate (code : String) : Result :=
  match (userExpr code).eval data fun index => .error (.missingStatic index) with
  | .ok r => r
  | .error _ => .data .null

def Part.shown : Part → String
  | .fixed text => text
  | .expression code => (evaluate data code).display

def TextRun.html (run : TextRun) : String :=
  encodeText (String.join (run.parts.map (Part.shown data)))

/-- An attribute of a start tag with the space before it, if there is one. -/
def attributeHtml (name : String) (value : Result) : String := (writeAttribute name value).getD ""

def fixedAttributeHtml (name value : String) : String :=
  attributeHtml name (.data (.string value))

/-- One attribute for a fixed value, a bound one, or both with a separator between. -/
def mergedHtml (name : String) (fixed : Option String) (bound : Option Binding)
    (separator : String) : String :=
  match fixed, bound with
  | some value, some b =>
    fixedAttributeHtml name (value ++ separator ++ (evaluate data b.expression).display)
  | some value, none => fixedAttributeHtml name value
  | none, some b => attributeHtml name (evaluate data b.expression)
  | none, none => ""

/-- A binding other than a class or a style. -/
def Binding.html (b : Binding) : String :=
  if b.isComputed then attributeHtml (evaluate data b.name).display (evaluate data b.expression)
  else if b.name == "class" || b.name == "style" then ""
  else attributeHtml b.name (evaluate data b.expression)

/-- The children of an element whose directive supplies them, as text or as markup. -/
def Directive.html (d : Directive) : String :=
  if d.name == "html" then (evaluate data d.value).display
  else encodeText (evaluate data d.value).display

namespace Head

/-- The start tag: class, style, plain attributes and the other bindings in this order. -/
def startTag (head : Head) : String :=
  "<" ++ head.name ++
    (mergedHtml data "class" head.fixedClass (head.binding? "class") " " ++
      mergedHtml data "style" head.fixedStyle (head.binding? "style") "" ++
      String.join (head.plain.map fun (name, value) => fixedAttributeHtml name value) ++
      String.join (head.bindings.map (Binding.html data))) ++ ">"

def endTag (head : Head) : String := "</" ++ head.name ++ ">"

/-- An element whose own children are `content`. -/
def html (head : Head) (content : String) : String :=
  match head.supplier? with
  | some d => head.startTag data ++ d.html data ++ head.endTag
  | none =>
    if head.unary then head.startTag data else head.startTag data ++ content ++ head.endTag

/-- Whether the condition of an element holds, if it has one. -/
def stands (head : Head) : Bool :=
  match head.condition with
  | none => true
  | some condition => (evaluate data condition).isTrue

end Head

mutual

/-- The markup of a tree under the data. -/
def Node.render : Node → String
  | .element head children =>
    if head.stands data then head.html data (String.join (renderAll children)) else emptyNode
  | .text run => run.html data
  | .comment content _ => "<!--" ++ content ++ "-->"

def renderAll : List Node → List String
  | [] => []
  | node :: rest => node.render :: renderAll rest

end

end

/-! ### Evaluating the parts of an element -/

section

variable {data : Json.Value} {callStatic : Nat → Except RenderFailure String}

theorem evaluates_userExpr {code : String} (h : expressionFault? code = none) :
    Evaluates data callStatic (userExpr code) (evaluate data code) := by
  unfold expressionFault? at h
  unfold evaluate userExpr
  split at h
  · cases h
  · next e he =>
    obtain ⟨r, hr⟩ := exists_eval_of_fault? data h
    simp only [he, Evaluates, Code.Expr.eval_bare, hr]

theorem evaluates_textExpr (s : String) :
    Evaluates data callStatic (textExpr s) (.data (.string s)) := rfl

theorem evaluates_shown {e : Expr} {r : Result} (h : Evaluates data callStatic e r) :
    Evaluates data callStatic (.call "_s" [e] 0) (.data (.string r.display)) :=
  Code.Expr.eval_call "_s" .display rfl (by decide) (.cons h .nil)

theorem evaluates_escaped {e : Expr} {r : Result} (h : Evaluates data callStatic e r) :
    Evaluates data callStatic (.call "_v" [e] 0) (.markup (encodeText r.display)) :=
  Code.Expr.eval_call "_v" .text rfl (by decide) (.cons h .nil)

theorem evaluates_markup {e : Expr} {r : Result} (h : Evaluates data callStatic e r) :
    Evaluates data callStatic (.call "_h" [e] 0) (.markup r.display) :=
  Code.Expr.eval_call "_h" .markup rfl (by decide) (.cons h .nil)

theorem displays_strings (texts : List String) :
    Code.displays (texts.map fun s => .data (.string s)) = texts := by
  induction texts with
  | nil => rfl
  | cons s texts ih =>
    simp only [List.map_cons, Code.displays, ih, Result.display, Code.displayData]

theorem evaluates_joined {exprs : List Expr} {texts : List String}
    (h : List.Forall₂ (fun e s => Evaluates data callStatic e (.data (.string s))) exprs texts) :
    Evaluates data callStatic (.call "_j" exprs 0) (.data (.string (String.join texts))) := by
  have hcall := Code.Expr.eval_call "_j" .join rfl (by decide) (List.forall₂_map_right_iff.2 h)
  rw [Evaluates, hcall]
  simp only [Code.applyHelper, displays_strings]

theorem evaluates_part {p : Part} (h : ∀ u ∈ p.spliced, expressionFault? u = none) :
    Evaluates data callStatic p.expr (.data (.string (p.shown data))) := by
  cases p with
  | fixed text => exact evaluates_textExpr text
  | expression code => exact evaluates_shown (evaluates_userExpr (h code (by simp [Part.spliced])))

theorem evaluates_run {run : TextRun}
    (h : ∀ u ∈ run.parts.flatMap Part.spliced, expressionFault? u = none) :
    Evaluates data callStatic (runExpr run.parts) (.markup (run.html data)) := by
  have hparts : List.Forall₂ (fun e s => Evaluates data callStatic e (.data (.string s)))
      (run.parts.map Part.expr) (run.parts.map (Part.shown data)) := by
    rw [List.forall₂_map_left_iff, List.forall₂_map_right_iff, List.forall₂_same]
    intro p hp
    apply evaluates_part
    intro u hu
    exact h u (List.mem_flatMap.2 ⟨p, hp, hu⟩)
  unfold runExpr TextRun.html
  generalize run.parts.map Part.expr = exprs at hparts ⊢
  generalize run.parts.map (Part.shown data) = texts at hparts ⊢
  cases hparts with
  | nil =>
    have hcall : Evaluates data callStatic _ _ := evaluates_escaped (evaluates_textExpr "")
    rw [Code.Result.display_string] at hcall
    exact hcall
  | cons he hrest =>
    cases hrest with
    | nil =>
      rw [String.join_cons, String.join_nil, String.append_empty]
      have hcall := evaluates_escaped he
      rw [Code.Result.display_string] at hcall
      exact hcall
    | cons he₂ hrest =>
      have hcall := evaluates_escaped (evaluates_joined (.cons he (.cons he₂ hrest)))
      rw [Code.Result.display_string] at hcall
      exact hcall

/-! ### Attributes -/

/-- The expressions evaluate to attributes, which together are written like this. -/
def GiveAttributes (data : Json.Value) (callStatic : Nat → Except RenderFailure String)
    (exprs : List Expr) (html : String) : Prop :=
  ∃ written, List.Forall₂ (fun e w => Evaluates data callStatic e (.attribute w)) exprs written ∧
    String.join (written.map fun w => w.getD "") = html

theorem giveAttributes_nil : GiveAttributes data callStatic [] "" := ⟨[], .nil, rfl⟩

theorem GiveAttributes.append {exprs more : List Expr} {html rest : String}
    (h : GiveAttributes data callStatic exprs html)
    (hmore : GiveAttributes data callStatic more rest) :
    GiveAttributes data callStatic (exprs ++ more) (html ++ rest) := by
  rcases h with ⟨written, hwritten, rfl⟩
  rcases hmore with ⟨others, hothers, rfl⟩
  refine ⟨written ++ others, List.rel_append hwritten hothers, ?_⟩
  rw [List.map_append, String.join_append]

theorem giveAttributes_single {name value : Expr} {n v : Result}
    (hname : Evaluates data callStatic name n) (hvalue : Evaluates data callStatic value v) :
    GiveAttributes data callStatic [attributeExpr name value] (attributeHtml n.display v) := by
  have hcall : Evaluates data callStatic (attributeExpr name value)
      (.attribute (writeAttribute n.display v)) :=
    Code.Expr.eval_call "_a" .attribute rfl (by decide) (.cons hname (.cons hvalue .nil))
  exact ⟨[_], .cons hcall .nil, by simp [attributeHtml]⟩

/-- Attributes that come one after the other from a list. -/
theorem giveAttributes_flatMap {α : Type} {items : List α} {exprs : α → List Expr}
    {html : α → String} (h : ∀ a ∈ items, GiveAttributes data callStatic (exprs a) (html a)) :
    GiveAttributes data callStatic (items.flatMap exprs) (String.join (items.map html)) := by
  induction items with
  | nil => exact giveAttributes_nil
  | cons a items ih =>
    rw [List.flatMap_cons, List.map_cons, String.join_cons]
    exact (h a (by simp)).append (ih fun b hb => h b (by simp [hb]))

theorem giveAttributes_merged {name : String} {fixed : Option String} {bound : Option Binding}
    {separator : String} (h : ∀ b ∈ bound, expressionFault? b.expression = none) :
    GiveAttributes data callStatic (mergedExprs name fixed bound separator)
      (mergedHtml data name fixed bound separator) := by
  have hname : Evaluates data callStatic _ _ := evaluates_textExpr name
  cases fixed with
  | none =>
    cases bound with
    | none => exact giveAttributes_nil
    | some b => exact giveAttributes_single hname (evaluates_userExpr (h b rfl))
  | some value =>
    cases bound with
    | none => exact giveAttributes_single hname (evaluates_textExpr value)
    | some b =>
      have hshown : Evaluates data callStatic _ _ := evaluates_shown (evaluates_userExpr (h b rfl))
      have hjoin := evaluates_joined (.cons (evaluates_textExpr (value ++ separator))
        (.cons hshown .nil))
      have hsingle := giveAttributes_single hname hjoin
      simpa [mergedExprs, mergedHtml, fixedAttributeHtml] using hsingle

theorem giveAttributes_binding {b : Binding} (h : ∀ u ∈ b.spliced, expressionFault? u = none) :
    GiveAttributes data callStatic b.exprs (b.html data) := by
  unfold Binding.spliced at h
  unfold Binding.exprs Binding.html
  split
  · next hcomputed =>
    rw [if_pos hcomputed] at h
    exact giveAttributes_single (evaluates_userExpr (h b.name (by simp)))
      (evaluates_userExpr (h b.expression (by simp)))
  · next hcomputed =>
    rw [if_neg hcomputed] at h
    split
    · exact giveAttributes_nil
    · next hmerged =>
      rw [if_neg hmerged] at h
      exact giveAttributes_single (evaluates_textExpr b.name)
        (evaluates_userExpr (h b.expression (by simp)))

theorem Head.giveAttributes {head : Head} (h : ∀ u ∈ head.spliced, expressionFault? u = none) :
    GiveAttributes data callStatic head.attributeExprs
      (mergedHtml data "class" head.fixedClass (head.binding? "class") " " ++
        mergedHtml data "style" head.fixedStyle (head.binding? "style") "" ++
        String.join (head.plain.map fun (name, value) => fixedAttributeHtml name value) ++
        String.join (head.bindings.map (Binding.html data))) := by
  have hplain : GiveAttributes data callStatic
      (head.plain.map fun (name, value) => attributeExpr (textExpr name) (textExpr value))
      (String.join (head.plain.map fun (name, value) => fixedAttributeHtml name value)) := by
    rw [List.map_eq_flatMap]
    apply giveAttributes_flatMap
    intro a _
    exact giveAttributes_single (evaluates_textExpr a.1) (evaluates_textExpr a.2)
  have hbindings : GiveAttributes data callStatic (head.bindings.flatMap Binding.exprs)
      (String.join (head.bindings.map (Binding.html data))) := by
    apply giveAttributes_flatMap
    intro b hb
    exact giveAttributes_binding fun u hu => h u (mem_spliced_binding hb hu)
  refine GiveAttributes.append
    (GiveAttributes.append (GiveAttributes.append ?_ ?_) hplain) hbindings
  · exact giveAttributes_merged fun b hb => h _ (mem_spliced_class hb)
  · exact giveAttributes_merged fun b hb => h _ (mem_spliced_style hb)

/-! ### Elements -/

theorem mapM_attributeText (helper : String) (written : List (Option String)) :
    (written.map Result.attribute).mapM (Code.attributeText helper) =
      .ok (written.map fun w => w.getD "") := by
  induction written with
  | nil => rfl
  | cons w written ih =>
    rw [List.map_cons, List.mapM_cons, ih]
    rfl

theorem mapM_childText (helper : String) (htmls : List String) :
    (htmls.map Result.markup).mapM (Code.childText helper) = .ok htmls := by
  induction htmls with
  | nil => rfl
  | cons html htmls ih =>
    rw [List.map_cons, List.mapM_cons, ih]
    rfl

section

variable {head : Head} (h : ∀ u ∈ head.spliced, expressionFault? u = none)
include h

theorem Head.evaluates_expr_none :
    Evaluates data callStatic (head.expr none) (.markup (head.startTag data)) := by
  have hattributes : GiveAttributes data callStatic _ _ := Head.giveAttributes h
  rcases hattributes with ⟨written, hwritten, hhtml⟩
  have hlist := Code.Expr.eval_array (List.forall₂_map_right_iff.2 hwritten)
  have hcall := Code.Expr.eval_call "_c" .element rfl (by decide)
    (.cons (evaluates_textExpr head.name) (.cons hlist .nil))
  refine hcall.trans ?_
  simp only [Code.applyHelper, Code.writeElement, List.head?_nil, mapM_attributeText, hhtml,
    Code.Result.display_string, Head.startTag]

theorem Head.evaluates_expr_some {children : Expr} {htmls : List String}
    (hchildren : Evaluates data callStatic children (.list (htmls.map .markup))) :
    Evaluates data callStatic (head.expr (some children))
      (.markup (head.startTag data ++ String.join htmls ++ head.endTag)) := by
  have hattributes : GiveAttributes data callStatic _ _ := Head.giveAttributes h
  rcases hattributes with ⟨written, hwritten, hhtml⟩
  have hlist := Code.Expr.eval_array (List.forall₂_map_right_iff.2 hwritten)
  have hcall := Code.Expr.eval_call "_c" .element rfl (by decide)
    (.cons (evaluates_textExpr head.name) (.cons hlist (.cons hchildren .nil)))
  refine hcall.trans ?_
  simp only [Code.applyHelper, Code.writeElement, List.head?_cons, mapM_attributeText, hhtml,
    mapM_childText, Code.Result.display_string, Head.startTag, Head.endTag, String.append_assoc]

end

theorem isEmpty_eq_false_of_fault? {code : String} (h : expressionFault? code = none) :
    code.isEmpty = false := by
  rw [Bool.eq_false_iff]
  intro hempty
  rw [String.isEmpty_iff.1 hempty] at h
  exact absurd h (by decide)

theorem userArguments_of_fault? {code : String} (h : expressionFault? code = none) :
    userArguments code = [userExpr code] := by
  rw [userArguments, isEmpty_eq_false_of_fault? h]
  rfl

theorem evaluates_directive {d : Directive} (h : expressionFault? d.value = none) :
    Evaluates data callStatic d.childrenExpr (.list ([d.html data].map .markup)) := by
  have hvalue : Evaluates data callStatic _ _ := evaluates_userExpr h
  unfold Directive.childrenExpr Directive.html
  rw [userArguments_of_fault? h]
  split
  · exact Code.Expr.eval_array (.cons (evaluates_markup hvalue) .nil)
  · have hcall := evaluates_escaped (evaluates_shown hvalue)
    rw [Code.Result.display_string] at hcall
    exact Code.Expr.eval_array (.cons hcall .nil)

/-- The call for an element, from what its children evaluate to where there is code for them. -/
theorem Head.evaluates_body {head : Head} (h : ∀ u ∈ head.spliced, expressionFault? u = none)
    (hsupplier : ∀ d ∈ head.supplier?, expressionFault? d.value = none)
    {children : List Expr × List Expr} {htmls : List String}
    (hchildren : head.keepsChildren = true →
      List.Forall₂ (fun e s => Evaluates data callStatic e (.markup s)) children.1 htmls) :
    Evaluates data callStatic (head.bodyIntent children).main
      (.markup (head.html data (String.join htmls))) := by
  unfold bodyIntent html
  cases hs : head.supplier? with
  | some d =>
    have hcall : Evaluates data callStatic _ _ :=
      evaluates_expr_some h (evaluates_directive (hsupplier d hs))
    rw [String.join_cons, String.join_nil, String.append_empty] at hcall
    exact hcall
  | none =>
    cases hunary : head.unary with
    | true => exact evaluates_expr_none h
    | false =>
      have hkeeps : head.keepsChildren = true := by simp [keepsChildren, hs, hunary]
      have hlist := Code.Expr.eval_array (List.forall₂_map_right_iff.2 (hchildren hkeeps))
      exact evaluates_expr_some h hlist

theorem evaluates_condition {condition node : Expr} {r : Result} {html : String}
    (hcondition : Evaluates data callStatic condition r)
    (hnode : Evaluates data callStatic node (.markup html)) :
    Evaluates data callStatic (.call "_i" [condition, node] 0)
      (.markup (if r.isTrue then html else emptyNode)) := by
  have hname : Code.Helper.named? "_i" = some .condition := rfl
  rw [Evaluates, Expr.eval, hname]
  simp only [Code.evalCondition, hcondition, hnode]
  split <;> rfl

theorem Head.evaluates_wrap {head : Head} (hroot : head.isStaticRoot = false)
    (hcondition : ∀ c ∈ head.condition, expressionFault? c = none) (first : Nat) {body : Intent}
    {html : String} (hbody : Evaluates data callStatic body.main (.markup html)) :
    Evaluates data callStatic (head.wrapIntent first body).main
      (.markup (if head.stands data then html else emptyNode)) := by
  unfold wrapIntent stands
  rw [if_neg (by simp [hroot])]
  cases hc : head.condition with
  | none => exact hbody
  | some c => exact evaluates_condition (evaluates_userExpr (hcondition c hc)) hbody

theorem evaluates_static {index : Nat} {html : String} (h : callStatic index = .ok html) :
    Evaluates data callStatic (.call "_m" [.literal (.number (.integer index))] 0)
      (.markup html) := by
  have hindex : Evaluates data callStatic (.literal (.number (.integer index))) _ := rfl
  have hcall := Code.Expr.eval_call "_m" .static rfl (by decide) (.cons hindex .nil)
  refine hcall.trans ?_
  change (callStatic index).map Result.markup = _
  rw [h]
  rfl

/-! ### Trees -/

/-- Calls from an index on run these static bodies, with whatever static procedures at hand. -/
def RunsStatics (data : Json.Value) (callStatic : Nat → Except RenderFailure String) (first : Nat)
    (statics : List Expr) : Prop :=
  ∀ i e, statics[i]? = some e → ∃ inner, callStatic (first + i) = e.render data inner

theorem runsStatics_nil (first : Nat) : RunsStatics data callStatic first [] := by
  intro i e h
  simp at h

theorem RunsStatics.left {first : Nat} {statics more : List Expr}
    (h : RunsStatics data callStatic first (statics ++ more)) :
    RunsStatics data callStatic first statics := by
  intro i e hi
  exact h i e (by rw [List.getElem?_append_left (List.getElem?_eq_some_iff.1 hi).1, hi])

theorem RunsStatics.right {first : Nat} {statics more : List Expr}
    (h : RunsStatics data callStatic first (statics ++ more)) :
    RunsStatics data callStatic (first + statics.length) more := by
  intro i e hi
  rw [Nat.add_assoc]
  exact h (statics.length + i) e (by rw [List.getElem?_append_right (by omega)]; simpa using hi)

theorem evaluates_intentAll {nodes : List Node}
    (h : ∀ n ∈ nodes, ∀ first, RunsStatics data callStatic first (n.intent first).statics →
      Evaluates data callStatic (n.intent first).main (.markup (n.render data))) {first : Nat}
    (hstatics : RunsStatics data callStatic first (intentAll first nodes).2) :
    List.Forall₂ (fun e s => Evaluates data callStatic e (.markup s)) (intentAll first nodes).1
      (renderAll data nodes) := by
  induction nodes generalizing first with
  | nil => exact .nil
  | cons n nodes ih =>
    rw [intentAll] at hstatics
    exact .cons (h n (by simp) first hstatics.left)
      (ih (fun m hm => h m (by simp [hm])) hstatics.right)

/-- A call of a static root renders its body, in which nothing calls a static procedure. -/
theorem Head.evaluates_wrap_root {head : Head} (hroot : head.isStaticRoot = true) {first : Nat}
    {body : Intent} (hempty : body.statics = []) {html : String}
    (hstatics : RunsStatics data callStatic first (head.wrapIntent first body).statics)
    (hbody : ∀ inner, Evaluates data inner body.main (.markup html)) :
    Evaluates data callStatic (head.wrapIntent first body).main (.markup html) := by
  rw [wrapIntent, if_pos hroot, hempty, List.nil_append] at hstatics ⊢
  obtain ⟨inner, hinner⟩ := hstatics 0 body.main rfl
  rw [Expr.render_of_evaluates (hbody inner)] at hinner
  exact evaluates_static hinner

/-- The code of a tree, read as it is meant, renders the tree: all expressions that stand in it may
stand in a template, and static roots have no condition and hold no other static roots. -/
theorem Node.evaluates_intent {n : Node} (hspliced : ∀ u ∈ n.spliced, expressionFault? u = none)
    (hsupplied : ∀ u ∈ n.supplied, expressionFault? u = none)
    (hroots : ∀ r ∈ n.elements, r.head.isStaticRoot = true →
      r.head.condition = none ∧ Rootless (elementsAll r.children)) {first : Nat}
    (hstatics : RunsStatics data callStatic first (n.intent first).statics) :
    Evaluates data callStatic (n.intent first).main (.markup (n.render data)) := by
  induction n using Node.induction generalizing first callStatic with
  | text run =>
    apply evaluates_run
    simpa [spliced, generated, ownSpliced] using hspliced
  | comment content span =>
    exact Code.Expr.eval_call "_cm" .comment rfl (by decide)
      (.cons (evaluates_textExpr content) .nil)
  | element head children ih =>
    have hhead : ∀ u ∈ head.spliced, expressionFault? u = none :=
      fun u hu => hspliced u (mem_spliced_head hu)
    have hsupplier : ∀ d ∈ head.supplier?, expressionFault? d.value = none :=
      fun d hd => hsupplied d.value (mem_supplied_head hd)
    have hchild : head.keepsChildren = true → ∀ n ∈ children, ∀ {callStatic} first,
        RunsStatics data callStatic first (n.intent first).statics →
        Evaluates data callStatic (n.intent first).main (.markup (n.render data)) := by
      intro hkeeps n hn callStatic first
      exact ih n hn (fun u hu => hspliced u (mem_spliced_children hkeeps hn hu))
        (fun u hu => hsupplied u (mem_supplied_children hkeeps hn hu))
        (fun r hr => hroots r (mem_elements_children hn hr))
    rw [intent] at hstatics ⊢
    rw [render]
    cases hroot : head.isStaticRoot with
    | false =>
      rw [Head.statics_wrapIntent hroot] at hstatics
      refine Head.evaluates_wrap hroot ?_ first (Head.evaluates_body hhead hsupplier ?_)
      · exact fun c hc => hhead c (mem_spliced_condition hc)
      · intro hkeeps
        rw [head.statics_bodyIntent_of_keeps hkeeps] at hstatics
        exact evaluates_intentAll (fun n hn first => hchild hkeeps n hn first) hstatics
    | true =>
      obtain ⟨hcondition, hrootless⟩ := hroots ⟨head, children⟩ List.mem_cons_self hroot
      have hnone := statics_intentAll_of_rootless hrootless first
      have hempty := head.statics_bodyIntent hnone
      rw [Head.stands, hcondition, if_pos rfl]
      apply Head.evaluates_wrap_root hroot hempty hstatics
      intro inner
      have hinside : RunsStatics data inner first (intentAll first children).2 := by
        rw [hnone]
        exact runsStatics_nil first
      exact Head.evaluates_body hhead hsupplier fun hkeeps =>
        evaluates_intentAll (fun n hn first => hchild hkeeps n hn first) hinside

end

end HtmlTemplate.Template
