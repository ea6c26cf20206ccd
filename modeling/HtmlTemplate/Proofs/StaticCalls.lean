import HtmlTemplate.Proofs.Filling
import HtmlTemplate.Proofs.Optimization
import HtmlTemplate.Proofs.Outline

/-!
# How static bodies are referred to

Static bodies are numbered by a counter that goes through the tree together with the generation of
the code: a static root gets the number of static bodies before it. That the calls of static
procedures come in the order of their numbers is an invariant of the intended expressions
(`Intent.Ordered`), which one node after the other keeps. Static bodies are the codes of the static
roots that stand in the code of the tree (`Node.statics_code`), and they call no static procedure.
-/

namespace HtmlTemplate.Code

/-! ### The calls of a helper -/

mutual

/-- The arguments of every call of a helper, from left to right. -/
def Expr.callsOf (name : String) : Expr → List (List Expr)
  | .literal _ => []
  | .path _ => []
  | .array items => callsOfAll name items
  | .call helper arguments _ =>
    (if helper = name then [arguments] else []) ++ callsOfAll name arguments

def callsOfAll (name : String) : List Expr → List (List Expr)
  | [] => []
  | e :: rest => e.callsOf name ++ callsOfAll name rest

end

theorem callsOfAll_eq (name : String) (items : List Expr) :
    callsOfAll name items = items.flatMap (Expr.callsOf name) := by
  induction items with
  | nil => rfl
  | cons e rest ih => rw [callsOfAll, ih, List.flatMap_cons]

mutual

theorem Expr.callsOf_bare (name : String) (e : Expr) :
    e.bare.callsOf name = (e.callsOf name).map bareAll := by
  cases e with
  | literal v => rfl
  | path segments => rfl
  | array items => exact callsOfAll_bareAll name items
  | call helper arguments offset =>
    rw [Expr.bare, Expr.callsOf, Expr.callsOf, callsOfAll_bareAll name arguments, List.map_append]
    split <;> rfl

theorem callsOfAll_bareAll (name : String) (items : List Expr) :
    callsOfAll name (bareAll items) = (callsOfAll name items).map bareAll := by
  cases items with
  | nil => rfl
  | cons e rest =>
    rw [bareAll, callsOfAll, callsOfAll, Expr.callsOf_bare name e, callsOfAll_bareAll name rest,
      List.map_append]

end

end HtmlTemplate.Code

namespace HtmlTemplate.Template

open HtmlTemplate.Code (Expr callsOfAll)

/-- The arguments of a call of the static procedure with an index. -/
def indexArguments (index : Nat) : List Expr := [.literal (.number (.integer index))]

/-- There are no offsets in the arguments of such a call. -/
theorem bareAll_eq_indexArguments {arguments : List Expr} {index : Nat}
    (h : Code.bareAll arguments = indexArguments index) : arguments = indexArguments index := by
  rw [Code.bareAll_eq_map, indexArguments, List.map_eq_singleton_iff] at h
  obtain ⟨e, rfl, he⟩ := h
  cases e with
  | literal v => exact congrArg (fun e => [e]) he
  | path segments => cases he
  | array items => cases he
  | call helper arguments offset => cases he

theorem eq_of_map_bareAll {calls : List (List Expr)} {indices : List Nat}
    (h : calls.map Code.bareAll = indices.map indexArguments) :
    calls = indices.map indexArguments := by
  induction indices generalizing calls with
  | nil => exact List.map_eq_nil_iff.1 h
  | cons index indices ih =>
    obtain ⟨arguments, rest, rfl, harguments, hrest⟩ := List.map_eq_cons_iff.1 h
    rw [bareAll_eq_indexArguments harguments, ih hrest, List.map_cons]

/-! ### Expressions without calls of static procedures -/

def StaticFree (e : Expr) : Prop := e.callsOf "_m" = []

theorem staticFree_textExpr (s : String) : StaticFree (textExpr s) := rfl

theorem callsOfAll_eq_nil_iff {items : List Expr} :
    callsOfAll "_m" items = [] ↔ ∀ e ∈ items, StaticFree e := by
  rw [Code.callsOfAll_eq, List.flatMap_eq_nil_iff]
  rfl

theorem staticFree_array {items : List Expr} :
    StaticFree (.array items) ↔ ∀ e ∈ items, StaticFree e :=
  callsOfAll_eq_nil_iff

theorem staticFree_call {name : String} (hname : name ≠ "_m") {arguments : List Expr}
    {offset : Nat} : StaticFree (.call name arguments offset) ↔ ∀ e ∈ arguments, StaticFree e := by
  rw [← callsOfAll_eq_nil_iff, StaticFree, Code.Expr.callsOf, if_neg hname, List.nil_append]

mutual

/-- An expression that a template may hold has no calls at all. -/
theorem staticFree_of_fault? {e : Expr} (h : fault? e = none) : StaticFree e := by
  cases e with
  | literal v => rfl
  | path segments => rfl
  | array items => exact staticFree_array.2 (staticFree_of_faultIn? h)
  | call helper arguments offset => cases h

theorem staticFree_of_faultIn? {items : List Expr} (h : faultIn? items = none) :
    ∀ e ∈ items, StaticFree e := by
  cases items with
  | nil => simp
  | cons e rest =>
    rw [faultIn?_eq_none_iff, List.forall_mem_cons] at h
    rw [List.forall_mem_cons]
    exact ⟨staticFree_of_fault? h.1, staticFree_of_faultIn? (faultIn?_eq_none_iff.2 h.2)⟩

end

theorem staticFree_userExpr {code : String} (h : expressionFault? code = none) :
    StaticFree (userExpr code) := by
  unfold expressionFault? at h
  unfold userExpr
  split at h
  · cases h
  · next e he =>
    simp only [he]
    rw [StaticFree, Code.Expr.callsOf_bare, staticFree_of_fault? h, List.map_nil]

theorem staticFree_attribute {name value : Expr} (hname : StaticFree name)
    (hvalue : StaticFree value) : StaticFree (attributeExpr name value) :=
  (staticFree_call (by decide)).2 (by simp [hname, hvalue])

theorem staticFree_shown {code : String} (h : expressionFault? code = none) :
    StaticFree (.call "_s" [userExpr code] 0) :=
  (staticFree_call (by decide)).2 (by simpa using staticFree_userExpr h)

theorem staticFree_part {p : Part} (h : ∀ u ∈ p.spliced, expressionFault? u = none) :
    StaticFree p.expr := by
  cases p with
  | fixed text => rfl
  | expression code => exact staticFree_shown (h code (by simp [Part.spliced]))

theorem staticFree_run {parts : List Part}
    (h : ∀ u ∈ parts.flatMap Part.spliced, expressionFault? u = none) :
    StaticFree (runExpr parts) := by
  have hparts : ∀ e ∈ parts.map Part.expr, StaticFree e := by
    intro e he
    obtain ⟨p, hp, rfl⟩ := List.mem_map.1 he
    exact staticFree_part fun u hu => h u (List.mem_flatMap.2 ⟨p, hp, hu⟩)
  have hescaped : ∀ {e}, StaticFree e → StaticFree (.call "_v" [e] 0) := fun he =>
    (staticFree_call (by decide)).2 (by simpa using he)
  unfold runExpr
  split
  · rfl
  · next e heq => exact hescaped (hparts e (by simp [heq]))
  · exact hescaped ((staticFree_call (by decide)).2 hparts)

theorem staticFree_merged {name : String} {fixed : Option String} {bound : Option Binding}
    {separator : String} (h : ∀ b ∈ bound, expressionFault? b.expression = none) :
    ∀ e ∈ mergedExprs name fixed bound separator, StaticFree e := by
  have hname := staticFree_textExpr name
  cases bound with
  | none => cases fixed <;> simp [mergedExprs, staticFree_attribute hname, staticFree_textExpr]
  | some b =>
    have hshown := staticFree_shown (h b rfl)
    have hjoined : ∀ value, StaticFree
        (.call "_j" [textExpr value, .call "_s" [userExpr b.expression] 0] 0) := fun value =>
      (staticFree_call (by decide)).2 (by simpa [hshown] using staticFree_textExpr value)
    cases fixed with
    | none => simpa [mergedExprs] using staticFree_attribute hname (staticFree_userExpr (h b rfl))
    | some value => simpa [mergedExprs] using staticFree_attribute hname (hjoined _)

theorem staticFree_binding {b : Binding} (h : ∀ u ∈ b.spliced, expressionFault? u = none) :
    ∀ e ∈ b.exprs, StaticFree e := by
  unfold Binding.spliced at h
  unfold Binding.exprs
  split
  · next hcomputed =>
    rw [if_pos hcomputed] at h
    simpa using staticFree_attribute (staticFree_userExpr (h b.name (by simp)))
      (staticFree_userExpr (h b.expression (by simp)))
  · next hcomputed =>
    rw [if_neg hcomputed] at h
    split
    · simp
    · next hmerged =>
      rw [if_neg hmerged] at h
      simpa using staticFree_attribute (staticFree_textExpr b.name)
        (staticFree_userExpr (h b.expression (by simp)))

theorem staticFree_directive {d : Directive}
    (h : d.value.isEmpty = true ∨ expressionFault? d.value = none) :
    StaticFree d.childrenExpr := by
  have harguments : ∀ e ∈ userArguments d.value, StaticFree e := by
    unfold userArguments
    split
    · simp
    · next hempty => simpa using staticFree_userExpr (h.resolve_left hempty)
  unfold Directive.childrenExpr
  split
  · rw [staticFree_array, List.forall_mem_singleton, staticFree_call (by decide)]
    exact harguments
  · rw [staticFree_array, List.forall_mem_singleton, staticFree_call (by decide),
      List.forall_mem_singleton, staticFree_call (by decide)]
    exact harguments

theorem Head.staticFree_attributes {head : Head}
    (h : ∀ u ∈ head.spliced, expressionFault? u = none) :
    ∀ e ∈ head.attributeExprs, StaticFree e := by
  unfold attributeExprs
  simp only [List.forall_mem_append]
  refine ⟨⟨⟨?_, ?_⟩, ?_⟩, ?_⟩
  · exact staticFree_merged fun b hb => h _ (mem_spliced_class hb)
  · exact staticFree_merged fun b hb => h _ (mem_spliced_style hb)
  · intro e he
    obtain ⟨a, -, rfl⟩ := List.mem_map.1 he
    exact staticFree_attribute (staticFree_textExpr a.1) (staticFree_textExpr a.2)
  · intro e he
    obtain ⟨b, hb, he⟩ := List.mem_flatMap.1 he
    exact staticFree_binding (fun u hu => h u (mem_spliced_binding hb hu)) e he

/-! ### The numbers of static bodies -/

/-- The calls of static procedures in the main expression come in the order of the static bodies,
the first of which has a given index, and there is none in a static body. -/
structure Intent.Ordered (first : Nat) (intent : Intent) : Prop where
  main : intent.main.callsOf "_m" =
    (List.range' first intent.statics.length).map indexArguments
  statics : ∀ e ∈ intent.statics, StaticFree e

theorem Intent.ordered_of_staticFree {e : Expr} (h : StaticFree e) (first : Nat) :
    (Intent.mk e []).Ordered first :=
  ⟨h, by simp⟩

namespace Head

variable {head : Head} (hspliced : ∀ u ∈ head.spliced, expressionFault? u = none)
include hspliced

/-- What a call for an element calls itself stands in its children. -/
theorem callsOf_expr (children : Option Expr) :
    (head.expr children).callsOf "_m" = callsOfAll "_m" children.toList := by
  have hattributes := callsOfAll_eq_nil_iff.2 (staticFree_attributes hspliced)
  simp only [expr, Code.Expr.callsOf, callsOfAll, textExpr, hattributes]
  rfl

theorem ordered_body
    (hsupplied : ∀ d ∈ head.supplier?, d.value.isEmpty = true ∨ expressionFault? d.value = none)
    {first : Nat} {children : List Expr × List Expr}
    (h : head.keepsChildren = true →
      callsOfAll "_m" children.1 = (List.range' first children.2.length).map indexArguments ∧
        ∀ e ∈ children.2, StaticFree e) : (head.bodyIntent children).Ordered first := by
  unfold bodyIntent keepsChildren at *
  cases hs : head.supplier? with
  | some d =>
    apply Intent.ordered_of_staticFree
    rw [StaticFree, callsOf_expr hspliced, callsOfAll_eq_nil_iff]
    simpa using staticFree_directive (hsupplied d hs)
  | none =>
    cases hunary : head.unary with
    | true => exact Intent.ordered_of_staticFree (callsOf_expr hspliced none) first
    | false =>
      obtain ⟨hmain, hstatics⟩ := h (by simp [hs, hunary])
      refine ⟨?_, hstatics⟩
      simp only [Bool.false_eq_true, if_false]
      rw [callsOf_expr hspliced, Option.toList_some, callsOfAll, callsOfAll, List.append_nil]
      exact hmain

/-- A static root has no static bodies in it, so that its index is the next one. -/
theorem ordered_wrap {first : Nat} {body : Intent} (h : body.Ordered first)
    (hroot : head.isStaticRoot = true → body.statics = []) :
    (head.wrapIntent first body).Ordered first := by
  unfold wrapIntent
  cases hmark : head.isStaticRoot with
  | true =>
    have hempty := hroot hmark
    have hmain := h.main
    rw [hempty] at hmain ⊢
    exact ⟨rfl, List.forall_mem_singleton.2 hmain⟩
  | false =>
    cases hc : head.condition with
    | none => exact h
    | some condition =>
      have hfree := staticFree_userExpr (hspliced condition (mem_spliced_condition hc))
      refine ⟨?_, h.statics⟩
      simp only [Bool.false_eq_true, if_false]
      rw [Code.Expr.callsOf, if_neg (by decide), callsOfAll, callsOfAll, callsOfAll, hfree]
      simpa using h.main

end Head

theorem ordered_intentAll {nodes : List Node}
    (h : ∀ n ∈ nodes, ∀ first, (n.intent first).Ordered first) (first : Nat) :
    callsOfAll "_m" (intentAll first nodes).1 =
        (List.range' first (intentAll first nodes).2.length).map indexArguments ∧
      ∀ e ∈ (intentAll first nodes).2, StaticFree e := by
  induction nodes generalizing first with
  | nil => exact ⟨rfl, by simp [intentAll]⟩
  | cons n nodes ih =>
    have hn := h n (by simp) first
    obtain ⟨hmain, hstatics⟩ := ih (fun m hm => h m (by simp [hm]))
      (first + (n.intent first).statics.length)
    rw [intentAll, callsOfAll, hn.main, hmain, List.length_append, ← List.range'_append_1,
      List.map_append]
    exact ⟨rfl, List.forall_mem_append.2 ⟨hn.statics, hstatics⟩⟩

/-- The numbers of static bodies and the calls of static procedures go in step. -/
theorem Node.ordered_intent {n : Node} (hhoisted : n.Hoisted)
    (hspliced : ∀ u ∈ n.spliced, expressionFault? u = none)
    (hsupplied : ∀ u ∈ n.supplied, u.isEmpty = true ∨ expressionFault? u = none) (first : Nat) :
    (n.intent first).Ordered first := by
  induction n using Node.induction generalizing first with
  | text run =>
    apply Intent.ordered_of_staticFree
    apply staticFree_run
    simpa [spliced, generated, ownSpliced] using hspliced
  | comment content span =>
    have hfree : StaticFree (.call "_cm" [textExpr content] 0) := rfl
    exact Intent.ordered_of_staticFree hfree first
  | element head children ih =>
    have hhead : ∀ u ∈ head.spliced, expressionFault? u = none :=
      fun u hu => hspliced u (mem_spliced_head hu)
    rw [intent]
    apply Head.ordered_wrap hhead
    · apply Head.ordered_body hhead fun d hd => hsupplied d.value (mem_supplied_head hd)
      intro hkeeps
      apply ordered_intentAll
      intro n hn first
      exact ih n hn (fun r hr => hhoisted r (mem_elements_children hn hr))
        (fun u hu => hspliced u (mem_spliced_children hkeeps hn hu))
        (fun u hu => hsupplied u (mem_supplied_children hkeeps hn hu)) first
    · intro hroot
      have hrootless := hhoisted ⟨head, children⟩ List.mem_cons_self hroot
      exact head.statics_bodyIntent (statics_intentAll_of_rootless hrootless first)

/-! ### Which bodies these are -/

section

variable (directives : OrderedMap ChildrenCode)

mutual

/-- The static roots for which there is code, in the order of the template. There is none for what
stands below an element whose children a directive supplies. -/
def Node.staticRoots : Node → List Element
  | .element head children =>
    (if head.isStaticRoot then [⟨head, children⟩] else []) ++
      if (head.directiveChildren? directives).isSome then [] else staticRootsAll children
  | .text _ => []
  | .comment .. => []

def staticRootsAll : List Node → List Element
  | [] => []
  | node :: rest => node.staticRoots ++ staticRootsAll rest

end

/-- The code that an element has where it is not hoisted. -/
def Element.ownCode (e : Element) : String :=
  ((Node.element { e.head with isStaticRoot := false } e.children).code directives 0).main

/-- The call for an element whose children have these codes and static bodies. -/
def Head.bodyCode (head : Head) (children : List String × List String) : Code :=
  match head.directiveChildren? directives with
  | some code => ⟨head.code (some code), []⟩
  | none =>
    if head.unary then ⟨head.code none, []⟩
    else ⟨head.code (some (bracketedList children.1)), children.2⟩

/-- An element without an end tag has nothing in it. -/
def Node.Childless (n : Node) : Prop :=
  ∀ e ∈ n.elements, e.head.unary = true → e.children = []

variable {directives}

theorem Node.code_element (first : Nat) (head : Head) (children : List Node) :
    (Node.element head children).code directives first =
      head.wrap first (head.bodyCode directives (codeAll directives first children)) := by
  rw [code, Head.bodyCode]
  cases head.directiveChildren? directives with
  | some code => rfl
  | none => cases head.unary <;> rfl

theorem Head.wrap_of_not_root {head : Head} (hroot : head.isStaticRoot = false) (first : Nat)
    (body : Code) :
    head.wrap first body = head.wrap 0 body ∧ (head.wrap first body).statics = body.statics := by
  unfold wrap
  simp only [hroot, Bool.false_eq_true, if_false, true_and]
  split <;> rfl

theorem Head.statics_bodyCode (head : Head) (children : List String × List String) :
    (head.bodyCode directives children).statics =
      if (head.directiveChildren? directives).isSome || head.unary then [] else children.2 := by
  unfold bodyCode
  cases head.directiveChildren? directives with
  | some code => rfl
  | none => cases head.unary <;> rfl

/-- Without static roots the code does not depend on how many static bodies come before. -/
theorem codeAll_of_rootless {nodes : List Node}
    (h : ∀ n ∈ nodes, ∀ first, n.code directives first = ⟨(n.code directives 0).main, []⟩)
    (first : Nat) : codeAll directives first nodes = ((codeAll directives 0 nodes).1, []) := by
  induction nodes generalizing first with
  | nil => rfl
  | cons n nodes ih =>
    have hrest := ih fun m hm => h m (by simp [hm])
    simp only [codeAll]
    rw [h n (by simp) first, h n (by simp) 0]
    simp only [List.length_nil, Nat.add_zero]
    rw [hrest first]
    rfl

theorem Node.code_of_rootless {n : Node} (h : Rootless n.elements) (first : Nat) :
    n.code directives first = ⟨(n.code directives 0).main, []⟩ := by
  induction n using Node.induction generalizing first with
  | text run => rfl
  | comment content span => rfl
  | element head children ih =>
    have hroot : head.isStaticRoot = false := h ⟨head, children⟩ List.mem_cons_self
    have hchildren : ∀ first,
        codeAll directives first children = ((codeAll directives 0 children).1, []) :=
      codeAll_of_rootless fun n hn => ih n hn fun e he => h e (mem_elements_children hn he)
    have hstatics : ∀ c : Code, c.statics = [] → c = ⟨c.main, []⟩ := by
      rintro ⟨main, statics⟩ rfl
      rfl
    rw [code_element, code_element, hchildren first, hchildren 0,
      (Head.wrap_of_not_root hroot first _).1]
    apply hstatics
    rw [(Head.wrap_of_not_root hroot 0 _).2, Head.statics_bodyCode, ite_self]

theorem staticRootsAll_eq (nodes : List Node) :
    staticRootsAll directives nodes = nodes.flatMap (Node.staticRoots directives) := by
  induction nodes with
  | nil => rfl
  | cons n nodes ih => rw [staticRootsAll, ih, List.flatMap_cons]

theorem Node.staticRoots_of_rootless {n : Node} (h : Rootless n.elements) :
    n.staticRoots directives = [] := by
  induction n using Node.induction with
  | text run => rfl
  | comment content span => rfl
  | element head children ih =>
    have hroot : head.isStaticRoot = false := h ⟨head, children⟩ List.mem_cons_self
    have hchildren : staticRootsAll directives children = [] := by
      rw [staticRootsAll_eq, List.flatMap_eq_nil_iff]
      exact fun n hn => ih n hn fun e he => h e (mem_elements_children hn he)
    rw [staticRoots, hroot, hchildren, ite_self]
    rfl

theorem staticRootsAll_of_rootless {nodes : List Node} (h : Rootless (elementsAll nodes)) :
    staticRootsAll directives nodes = [] := by
  rw [staticRootsAll_eq, List.flatMap_eq_nil_iff]
  exact fun n hn => Node.staticRoots_of_rootless fun e he => h e (mem_elementsAll.2 ⟨n, hn, he⟩)

theorem statics_codeAll {nodes : List Node}
    (h : ∀ n ∈ nodes, ∀ first, (n.code directives first).statics =
      (n.staticRoots directives).map (Element.ownCode directives)) (first : Nat) :
    (codeAll directives first nodes).2 =
      (staticRootsAll directives nodes).map (Element.ownCode directives) := by
  induction nodes generalizing first with
  | nil => rfl
  | cons n nodes ih =>
    rw [codeAll, staticRootsAll, List.map_append, ← h n (by simp) first,
      ← ih (fun m hm => h m (by simp [hm]))]

/-- A static root whose children hold no other gives one static body, which is its own code. -/
theorem Head.statics_wrap_root {head : Head} (hroot : head.isStaticRoot = true)
    (hcondition : head.condition = none) {children : List Node}
    (hchildren : ∀ first,
      codeAll directives first children = ((codeAll directives 0 children).1, []))
    (first : Nat) :
    (head.wrap first (head.bodyCode directives (codeAll directives first children))).statics =
      [Element.ownCode directives ⟨head, children⟩] := by
  have hempty : (head.bodyCode directives (codeAll directives first children)).statics = [] := by
    rw [hchildren, statics_bodyCode, ite_self]
  have hown : Element.ownCode directives ⟨head, children⟩ =
      (head.bodyCode directives (codeAll directives 0 children)).main := by
    rw [Element.ownCode, Node.code_element, wrap, if_neg (by simp)]
    simp only [hcondition]
    rfl
  rw [wrap, if_pos hroot, hempty, List.nil_append, hown, hchildren first, hchildren 0]

/-- The static bodies are the codes of the static roots, in the order of the template. -/
theorem Node.statics_code {n : Node} (hhoisted : n.Hoisted) (hchildless : n.Childless)
    (hconditions : ∀ r ∈ n.elements, r.head.isStaticRoot = true → r.head.condition = none)
    (first : Nat) : (n.code directives first).statics =
      (n.staticRoots directives).map (Element.ownCode directives) := by
  induction n using Node.induction generalizing first with
  | text run => rfl
  | comment content span => rfl
  | element head children ih =>
    rw [code_element, staticRoots]
    cases hroot : head.isStaticRoot with
    | true =>
      have hrootless := hhoisted ⟨head, children⟩ List.mem_cons_self hroot
      have hchildren : ∀ first,
          codeAll directives first children = ((codeAll directives 0 children).1, []) :=
        codeAll_of_rootless fun n hn =>
          Node.code_of_rootless fun e he => hrootless e (mem_elementsAll.2 ⟨n, hn, he⟩)
      have hcondition := hconditions ⟨head, children⟩ List.mem_cons_self hroot
      rw [Head.statics_wrap_root hroot hcondition hchildren, staticRootsAll_of_rootless hrootless,
        ite_self]
      rfl
    | false =>
      have hchildren : (codeAll directives first children).2 =
          (staticRootsAll directives children).map (Element.ownCode directives) :=
        statics_codeAll (fun n hn first => ih n hn
          (fun r hr => hhoisted r (mem_elements_children hn hr))
          (fun e he => hchildless e (mem_elements_children hn he))
          (fun r hr => hconditions r (mem_elements_children hn hr)) first) first
      rw [(Head.wrap_of_not_root hroot first _).2, Head.statics_bodyCode, hchildren]
      cases hunary : head.unary with
      | true =>
        have hnone : children = [] := hchildless ⟨head, children⟩ List.mem_cons_self hunary
        simp [hnone, staticRootsAll]
      | false => cases head.directiveChildren? directives <;> simp

end

theorem childless_tree {o : Options} [o.Modest] (hmodules : ∀ m ∈ o.modules, m.Keeps Head.tag)
    {template : String} {root : Element} (hroot : (tree o template).1 = some root) :
    root.toNode.Childless := by
  intro e he hunary
  obtain ⟨above, hholds⟩ := Node.exists_holds he []
  cases arises_of_holds hroot hholds with
  | unary => rfl
  | @element name attributes span span' head _ _ _ _ _ _ hhead =>
    have htag : head.tag = (name, attributes, false) := by
      rw [hhead]
      exact Growth.keeps_transformHead hmodules o.toSettings _
    have hfalse : head.unary = false := congrArg (fun tag => tag.2.2) htag
    rw [show (head.endingAt span').unary = head.unary from rfl, hfalse] at hunary
    cases hunary

theorem Node.childless_of_unmark {n m : Node} (h : n.unmark = m.unmark) (hm : m.Childless) :
    n.Childless := by
  intro e he hunary
  have hmem : Element.mk e.head.unmark (unmarkAll e.children) ∈ m.unmark.elements := by
    rw [← h, elements_unmark]
    exact List.mem_map_of_mem he
  rw [elements_unmark] at hmem
  obtain ⟨e', he', heq⟩ := List.mem_map.1 hmem
  obtain ⟨hhead, hchildren⟩ := Element.mk.inj heq
  have hunary' : e'.head.unary = true := (congrArg Head.unary hhead).trans hunary
  rw [hm e' he' hunary', unmarkAll_eq_map, unmarkAll_eq_map] at hchildren
  exact List.map_eq_nil_iff.1 hchildren.symm

/-! ### Templates -/

/-- Whatever main code is read as, its calls are those of its intended expression. -/
theorem Intent.Ordered.callsOf_parse {intent : Intent} (h : intent.Ordered 0) {code : Code}
    (hmeans : code.Means intent) {e : Expr} (he : Code.parse code.main = .ok e) :
    e.callsOf "_m" = (List.range code.statics.length).map indexArguments := by
  have hcalls := h.main
  rw [← hmeans.main.bare_eq he, Code.Expr.callsOf_bare, ← hmeans.statics.length_eq,
    ← List.range_eq_range'] at hcalls
  exact eq_of_map_bareAll hcalls

theorem staticFree_of_bare {e : Expr} (h : StaticFree e.bare) : StaticFree e := by
  rw [StaticFree, Code.Expr.callsOf_bare] at h
  exact List.map_eq_nil_iff.1 h

/-- Static bodies that hold no expression of the template can be read, and call no static
procedure. -/
theorem exists_parse_statics {n : Node} (h : n.Clean) (hconstant : n.Constant) {code : Code}
    (hmeans : code.Means (n.intent 0)) {c : String} (hc : c ∈ code.statics) :
    ∃ e, Code.parse c = .ok e ∧ StaticFree e := by
  obtain ⟨i, hi, rfl⟩ := List.getElem_of_mem hc
  have hindex : i < (n.intent 0).statics.length := hmeans.statics.length_eq ▸ hi
  have hmem := List.getElem_mem hindex
  obtain ⟨e, he, hbare⟩ := (hmeans.statics.get hi hindex).parse
    (acceptable_of_mem_statics h hconstant hmem).1
  refine ⟨e, he, staticFree_of_bare ?_⟩
  rw [hbare]
  exact (Node.ordered_intent h.hoisted h.spliced h.supplied 0).statics _ hmem

/-- In the code of a tree that was searched for static subtrees with the keys of the web, the calls
of static procedures come in the order of their numbers, one for each. The static bodies are the
codes of the static roots in the order of the template, and they call no static procedure. The
number of bytes in the template fits 64 bits. -/
theorem statics_in_order {v : Overrides} (hmodules : v.modules = [])
    (hdirectives : v.directives = []) (hkeys : v.staticKeys = none) {template : String}
    (hsize : Text.extent template.toList ≤ Json.maxSignificand) {root : Element}
    (htree : (tree (Options.web.override v) template).1 = some root)
    (hspliced : ∀ u ∈ root.toNode.spliced, expressionFault? u = none)
    (hsupplied : ∀ u ∈ root.toNode.supplied, u.isEmpty = true ∨ expressionFault? u = none) :
    let o := Options.web.override v
    let marked := root.optimize o.effectiveStaticKeys
    let code := marked.code o
    (∀ e, Code.parse code.main = .ok e →
      e.callsOf "_m" = (List.range code.statics.length).map indexArguments) ∧
    code.statics = (marked.toNode.staticRoots o.directives).map (Element.ownCode o.directives) ∧
    (∀ c ∈ code.statics, ∃ e, Code.parse c = .ok e ∧ e.callsOf "_m" = []) ∧
    ((∀ u ∈ root.toNode.spliced ++ root.toNode.supplied, (userExpr u).depth ≤ 600) →
      ∃ e, Code.parse code.main = .ok e) := by
  intro o marked code
  have hmodest := modest_override_web hmodules
  have hgrown := grown_tree (keepsMarks_override_web hmodules) htree
  have hstarts := Markup.countP_isStart_parse_le (Options.web.override v).markup template
  have hextent := Text.length_le_extent template.toList
  have hrootless := rootless_of_grown hgrown.1
  have hunmark : marked.toNode.unmark = root.toNode.unmark := root.unmark_optimize _
  have hclean : marked.toNode.Clean :=
    Node.clean_of_unmark hunmark
      ⟨hgrown.1.height, by omega, Node.hoisted_of_rootless hrootless, hspliced, hsupplied⟩
      (hoisted_optimize _ hrootless)
  have hconstant : marked.toNode.Constant :=
    constant_optimize (inert_override_web hmodules hkeys) hrootless
  have hchildless : marked.toNode.Childless :=
    Node.childless_of_unmark hunmark (childless_tree (keepsTag_override_web hmodules) htree)
  have hmeans : code.Means (marked.toNode.intent 0) := by
    have := hclean.means
    rwa [← (override_web hmodules hdirectives).2] at this
  have hordered := Node.ordered_intent hclean.hoisted hclean.spliced hclean.supplied 0
  refine ⟨fun e he => hordered.callsOf_parse hmeans he, ?_, ?_, ?_⟩
  · exact Node.statics_code hclean.hoisted hchildless
      (fun r hr hroot => hconstant.condition hr hroot) 0
  · exact fun c hc => exists_parse_statics hclean hconstant hmeans hc
  · intro hdepth
    rw [← Node.spliced_unmark, ← Node.supplied_unmark, ← hunmark, Node.spliced_unmark,
      Node.supplied_unmark] at hdepth
    obtain ⟨e, he, -⟩ := hmeans.main.parse (Node.within_depthLimit hclean.height hdepth 0).1
    exact ⟨e, he⟩

/-- Two static roots with a third one between them, whose place is taken by a text. -/
def sampleRoots : String :=
  "<main><ul><li>a</li></ul><div v-text=\"t\"><ol><li>b</li></ol></div><p><b>c</b></p></main>"

theorem statics_in_order_sample :
    ∃ root, (tree (Options.web.override {}) sampleRoots).1 = some root ∧
      let marked := root.optimize (Options.web.override {}).effectiveStaticKeys
      let code := marked.code (Options.web.override {})
      marked.toNode.elements.countP (fun e => e.head.isStaticRoot) = 3 ∧
        code.statics = ["_c(\"ul\",[],[_c(\"li\",[],[_v(\"a\")])])",
          "_c(\"p\",[],[_c(\"b\",[],[_v(\"c\")])])"] ∧
        ∃ e, Code.parse code.main = .ok e ∧
          e.callsOf "_m" = [indexArguments 0, indexArguments 1] := by
  have hsize : Text.extent sampleRoots.toList ≤ Json.maxSignificand := by decide +kernel
  have hsome : (tree (Options.web.override {}) sampleRoots).1.isSome = true := by decide +kernel
  have hfacts : ∀ root ∈ (tree (Options.web.override {}) sampleRoots).1,
      (∀ u ∈ root.toNode.spliced, expressionFault? u = none) ∧
        (∀ u ∈ root.toNode.supplied, u.isEmpty = true ∨ expressionFault? u = none) ∧
        (∀ u ∈ root.toNode.spliced ++ root.toNode.supplied, (userExpr u).depth ≤ 600) ∧
        (root.optimize (Options.web.override {}).effectiveStaticKeys).toNode.elements.countP
          (fun e => e.head.isStaticRoot) = 3 ∧
        ((root.optimize (Options.web.override {}).effectiveStaticKeys).code
          (Options.web.override {})).statics =
            ["_c(\"ul\",[],[_c(\"li\",[],[_v(\"a\")])])",
              "_c(\"p\",[],[_c(\"b\",[],[_v(\"c\")])])"] := by
    decide +kernel
  obtain ⟨root, htree⟩ := Option.isSome_iff_exists.1 hsome
  obtain ⟨hspliced, hsupplied, hdepth, hroots, hstatics⟩ := hfacts root htree
  obtain ⟨hcalls, -, -, hparse⟩ := statics_in_order rfl rfl rfl hsize htree hspliced hsupplied
  obtain ⟨e, he⟩ := hparse hdepth
  refine ⟨root, htree, hroots, hstatics, e, he, ?_⟩
  rw [hcalls e he, hstatics]
  rfl

end HtmlTemplate.Template
