import HtmlTemplate.Proofs.Optimization
import HtmlTemplate.Proofs.TreeTokens

/-!
# Names of attributes that code writes

Evaluating code writes attributes: every call of the attribute helper that is evaluated writes one
under the name that its first argument has, unless the value leaves the attribute out.
`Expr.attributeNames` follows the evaluation and lists these names in order, those that static
procedures write included. The code of a tree writes the attributes of the elements that stand in
the tree under the data, and no others (`Node.attributeNames_intent`).
-/

namespace HtmlTemplate.Code

/-- The name that a call writes itself, or the names that the static procedure writes which it
calls. -/
def helperNames (staticNames : Nat → List String) : Option Helper → List Result → List String
  | some .attribute, key :: value :: _ =>
    if (writeAttribute key.display value).isSome then [key.display] else []
  | some .static, index :: _ => ((staticIndex? index).map staticNames).getD []
  | _, _ => []

section

variable (data : Json.Value) (callStatic : Nat → Except RenderFailure String)
variable (staticNames : Nat → List String)

mutual

/-- The names of the attributes that are written while an expression is evaluated. -/
def Expr.attributeNames : Expr → List String
  | .literal _ => []
  | .path _ => []
  | .array items => allAttributeNames items
  | .call name arguments _ =>
    match Helper.named? name with
    | some .condition => conditionAttributeNames arguments
    | helper =>
      allAttributeNames arguments ++
        match evalAll data callStatic arguments with
        | .error _ => []
        | .ok results => helperNames staticNames helper results

/-- The node of a condition is evaluated only if the condition holds. -/
def conditionAttributeNames : List Expr → List String
  | [] => []
  | [condition] => condition.attributeNames
  | condition :: node :: _ =>
    condition.attributeNames ++
      match condition.eval data callStatic with
      | .error _ => []
      | .ok r => if r.isTrue then node.attributeNames else []

def allAttributeNames : List Expr → List String
  | [] => []
  | e :: rest => e.attributeNames ++ allAttributeNames rest

end

/-- A blank procedure writes nothing. -/
def Procedure.attributeNames : Procedure → List String
  | .blank => []
  | .code e => e.attributeNames data callStatic staticNames

end

/-- The names that the static procedure of an index writes. -/
def staticAttributeNames (statics : List Procedure) (data : Json.Value) :
    (more index : Nat) → List String
  | 0, _ => []
  | more + 1, index =>
    match statics[index]? with
    | none => []
    | some p => p.attributeNames data (fun i => runStatic statics data more i)
        fun i => staticAttributeNames statics data more i

/-- The names of the attributes that are written when the procedures render. -/
def Functions.attributeNames (f : Functions) (data : Json.Value) : List String :=
  f.main.attributeNames data (runStatic f.statics data staticNestingLimit)
    (staticAttributeNames f.statics data staticNestingLimit)

section

variable {data : Json.Value} {callStatic : Nat → Except RenderFailure String}
variable {staticNames : Nat → List String}

theorem allAttributeNames_eq (items : List Expr) :
    allAttributeNames data callStatic staticNames items =
      items.flatMap fun e => e.attributeNames data callStatic staticNames := by
  induction items with
  | nil => rfl
  | cons e rest ih => rw [allAttributeNames, ih, List.flatMap_cons]

mutual

theorem Expr.attributeNames_bare (e : Expr) :
    e.bare.attributeNames data callStatic staticNames =
      e.attributeNames data callStatic staticNames := by
  cases e with
  | literal v => rfl
  | path segments => rfl
  | array items => simp only [Expr.bare, Expr.attributeNames, allAttributeNames_bareAll items]
  | call helper arguments offset =>
    simp only [Expr.bare, Expr.attributeNames]
    split
    · exact conditionAttributeNames_bareAll arguments
    · rw [allAttributeNames_bareAll arguments, evalAll_bareAll]

theorem conditionAttributeNames_bareAll (items : List Expr) :
    conditionAttributeNames data callStatic staticNames (bareAll items) =
      conditionAttributeNames data callStatic staticNames items := by
  match items with
  | [] => rfl
  | [condition] =>
    simp only [bareAll, conditionAttributeNames, Expr.attributeNames_bare condition]
  | condition :: node :: rest =>
    simp only [bareAll, conditionAttributeNames, Expr.attributeNames_bare condition,
      Expr.attributeNames_bare node, Expr.eval_bare]

theorem allAttributeNames_bareAll (items : List Expr) :
    allAttributeNames data callStatic staticNames (bareAll items) =
      allAttributeNames data callStatic staticNames items := by
  cases items with
  | nil => rfl
  | cons e rest =>
    simp only [bareAll, allAttributeNames, Expr.attributeNames_bare e,
      allAttributeNames_bareAll rest]

end

/-- The procedure of acceptable code writes the names that the expression does. -/
theorem attributeNames_of_acceptable {code : String} {e : Expr} (h : Writes code e)
    (hok : e.Acceptable) :
    (buildOrBlank interpret code).1.attributeNames data callStatic staticNames =
      e.attributeNames data callStatic staticNames := by
  rcases interpret_of_acceptable h hok with ⟨e', he', hbare⟩
  simp only [buildOrBlank, he', Procedure.attributeNames]
  rw [← hbare, Expr.attributeNames_bare]

theorem staticAttributeNames_of_acceptable {statics : List String} {exprs : List Expr}
    (h : List.Forall₂ Writes statics exprs) {index : Nat} {e : Expr}
    (he : exprs[index]? = some e) (hok : e.Acceptable) (data : Json.Value) (more : Nat) :
    ∃ callStatic staticNames,
      staticAttributeNames (statics.map fun code => (buildOrBlank interpret code).1) data
        (more + 1) index = e.attributeNames data callStatic staticNames := by
  rcases exists_writes_of_getElem? h he with ⟨code, hcode, hwrites⟩
  rw [staticAttributeNames, List.getElem?_map, hcode, Option.map_some]
  exact ⟨_, _, attributeNames_of_acceptable hwrites hok⟩

/-- A helper that neither writes attributes nor runs code adds nothing to its arguments. -/
theorem Expr.attributeNames_call (name : String) (helper : Helper)
    (hname : Helper.named? name = some helper) (hcondition : helper ≠ .condition)
    (hattribute : helper ≠ .attribute) (hstatic : helper ≠ .static) (arguments : List Expr) :
    (Expr.call name arguments 0).attributeNames data callStatic staticNames =
      allAttributeNames data callStatic staticNames arguments := by
  have hnames : ∀ results, helperNames staticNames (some helper) results = [] := by
    intro results
    unfold helperNames
    split <;> simp_all
  rw [Expr.attributeNames, hname]
  split
  · next heq => exact absurd (Option.some.inj heq) hcondition
  · split
    · exact List.append_nil _
    · rw [hnames, List.append_nil]

end

end HtmlTemplate.Code

namespace HtmlTemplate.Template

open HtmlTemplate.Code (Evaluates Expr Result RenderFailure writeAttribute allAttributeNames
  conditionAttributeNames)

/-! ### Expressions that write nothing -/

/-- No attribute is written while the expression is evaluated. -/
def Silent (e : Expr) : Prop :=
  ∀ data callStatic staticNames, e.attributeNames data callStatic staticNames = []

theorem silent_textExpr (s : String) : Silent (textExpr s) := fun _ _ _ => rfl

theorem silent_array {items : List Expr} (h : ∀ e ∈ items, Silent e) : Silent (.array items) := by
  intro data callStatic staticNames
  rw [Expr.attributeNames, Code.allAttributeNames_eq, List.flatMap_eq_nil_iff]
  exact fun e he => h e he data callStatic staticNames

theorem silent_call (name : String) (helper : Code.Helper)
    (hname : Code.Helper.named? name = some helper) (hcondition : helper ≠ .condition)
    (hattribute : helper ≠ .attribute) (hstatic : helper ≠ .static) {arguments : List Expr}
    (h : ∀ e ∈ arguments, Silent e) : Silent (.call name arguments 0) := by
  intro data callStatic staticNames
  rw [Expr.attributeNames_call name helper hname hcondition hattribute hstatic,
    Code.allAttributeNames_eq, List.flatMap_eq_nil_iff]
  exact fun e he => h e he data callStatic staticNames

mutual

/-- An expression that a template may hold has no calls. -/
theorem silent_of_fault? {e : Expr} (h : fault? e = none) : Silent e := by
  cases e with
  | literal v => exact fun _ _ _ => rfl
  | path segments => exact fun _ _ _ => rfl
  | array items => exact silent_array (silent_of_faultIn? h)
  | call helper arguments offset => cases h

theorem silent_of_faultIn? {items : List Expr} (h : faultIn? items = none) :
    ∀ e ∈ items, Silent e := by
  cases items with
  | nil => simp
  | cons e rest =>
    rw [faultIn?_eq_none_iff, List.forall_mem_cons] at h
    exact List.forall_mem_cons.2
      ⟨silent_of_fault? h.1, silent_of_faultIn? (faultIn?_eq_none_iff.2 h.2)⟩

end

theorem silent_userExpr {code : String} (h : expressionFault? code = none) :
    Silent (userExpr code) := by
  unfold expressionFault? at h
  unfold userExpr
  split at h
  · cases h
  · next e he =>
    intro data callStatic staticNames
    simp only [he, Expr.attributeNames_bare]
    exact silent_of_fault? h data callStatic staticNames

theorem silent_shown {code : String} (h : expressionFault? code = none) :
    Silent (.call "_s" [userExpr code] 0) :=
  silent_call "_s" .display rfl (by decide) (by decide) (by decide)
    (List.forall_mem_singleton.2 (silent_userExpr h))

theorem silent_joined {items : List Expr} (h : ∀ e ∈ items, Silent e) :
    Silent (.call "_j" items 0) :=
  silent_call "_j" .join rfl (by decide) (by decide) (by decide) h

theorem silent_escaped {e : Expr} (h : Silent e) : Silent (.call "_v" [e] 0) :=
  silent_call "_v" .text rfl (by decide) (by decide) (by decide) (List.forall_mem_singleton.2 h)

theorem silent_run {parts : List Part}
    (h : ∀ u ∈ parts.flatMap Part.spliced, expressionFault? u = none) :
    Silent (runExpr parts) := by
  have hparts : ∀ e ∈ parts.map Part.expr, Silent e := by
    intro e he
    obtain ⟨p, hp, rfl⟩ := List.mem_map.1 he
    cases p with
    | fixed text => exact silent_textExpr text
    | expression code =>
      exact silent_shown (h code (List.mem_flatMap.2 ⟨_, hp, by simp [Part.spliced]⟩))
  unfold runExpr
  generalize parts.map Part.expr = exprs at hparts ⊢
  split
  · exact silent_escaped (silent_textExpr "")
  · exact silent_escaped (hparts _ (by simp))
  · exact silent_escaped (silent_joined hparts)

theorem silent_directive {d : Directive} (h : expressionFault? d.value = none) :
    Silent d.childrenExpr := by
  unfold Directive.childrenExpr
  rw [userArguments_of_fault? h]
  have hvalue := List.forall_mem_singleton.2 (silent_userExpr h)
  split
  · refine silent_array (List.forall_mem_singleton.2 ?_)
    exact silent_call "_h" .markup rfl (by decide) (by decide) (by decide) hvalue
  · exact silent_array (List.forall_mem_singleton.2 (silent_escaped (silent_shown h)))

/-! ### Attributes of an element -/

section

variable {data : Json.Value} {callStatic : Nat → Except RenderFailure String}
variable {staticNames : Nat → List String}

theorem map_fst_shownAttribute (name : String) (r : Result) :
    (shownAttribute name r).map Prod.fst =
      if (writeAttribute name r).isSome then [name] else [] := by
  unfold shownAttribute writeAttribute
  split <;> simp

/-- The expressions write the attributes of a list, in its order. -/
def WriteNames (data : Json.Value) (callStatic : Nat → Except RenderFailure String)
    (staticNames : Nat → List String) (exprs : List Expr)
    (attributes : List (String × Option String)) : Prop :=
  allAttributeNames data callStatic staticNames exprs = attributes.map Prod.fst

theorem WriteNames.append {exprs more : List Expr}
    {attributes others : List (String × Option String)}
    (h : WriteNames data callStatic staticNames exprs attributes)
    (hmore : WriteNames data callStatic staticNames more others) :
    WriteNames data callStatic staticNames (exprs ++ more) (attributes ++ others) := by
  unfold WriteNames at *
  rw [Code.allAttributeNames_eq] at *
  rw [List.flatMap_append, List.map_append, h, hmore]

theorem writeNames_nil : WriteNames data callStatic staticNames [] [] := rfl

theorem writeNames_single {name value : Expr} {n v : Result}
    (hname : Evaluates data callStatic name n) (hvalue : Evaluates data callStatic value v)
    (hname_silent : Silent name) (hvalue_silent : Silent value) :
    WriteNames data callStatic staticNames [attributeExpr name value]
      (shownAttribute n.display v) := by
  have harguments : Code.evalAll data callStatic [name, value] = .ok [n, v] :=
    Code.evalAll_eq_ok_iff.2 (.cons hname (.cons hvalue .nil))
  have hhelper : Code.Helper.named? "_a" = some .attribute := rfl
  rw [WriteNames, map_fst_shownAttribute, allAttributeNames, allAttributeNames, List.append_nil,
    attributeExpr, Expr.attributeNames, hhelper]
  simp only [allAttributeNames, hname_silent data callStatic staticNames,
    hvalue_silent data callStatic staticNames, harguments, List.nil_append, Code.helperNames]

theorem writeNames_flatMap {α : Type} {items : List α} {exprs : α → List Expr}
    {attributes : α → List (String × Option String)}
    (h : ∀ a ∈ items, WriteNames data callStatic staticNames (exprs a) (attributes a)) :
    WriteNames data callStatic staticNames (items.flatMap exprs) (items.flatMap attributes) := by
  induction items with
  | nil => exact writeNames_nil
  | cons a items ih =>
    rw [List.flatMap_cons, List.flatMap_cons]
    exact (h a (by simp)).append (ih fun b hb => h b (by simp [hb]))

theorem writeNames_merged {name : String} {fixed : Option String} {bound : Option Binding}
    {separator : String} (h : ∀ b ∈ bound, expressionFault? b.expression = none) :
    WriteNames data callStatic staticNames (mergedExprs name fixed bound separator)
      (mergedAttributes data name fixed bound separator) := by
  have hname : Evaluates data callStatic _ _ := evaluates_textExpr name
  have hname_silent := silent_textExpr name
  cases fixed with
  | none =>
    cases bound with
    | none => exact writeNames_nil
    | some b =>
      exact writeNames_single hname (evaluates_userExpr (h b rfl)) hname_silent
        (silent_userExpr (h b rfl))
  | some value =>
    cases bound with
    | none =>
      exact writeNames_single hname (evaluates_textExpr value) hname_silent (silent_textExpr value)
    | some b =>
      have hshown : Evaluates data callStatic _ _ := evaluates_shown (evaluates_userExpr (h b rfl))
      have hjoin := evaluates_joined (.cons (evaluates_textExpr (value ++ separator))
        (.cons hshown .nil))
      refine writeNames_single hname hjoin hname_silent (silent_joined ?_)
      exact List.forall_mem_cons.2 ⟨silent_textExpr _,
        List.forall_mem_singleton.2 (silent_shown (h b rfl))⟩

theorem writeNames_binding {b : Binding} (h : ∀ u ∈ b.spliced, expressionFault? u = none) :
    WriteNames data callStatic staticNames b.exprs (b.attributes data) := by
  unfold Binding.spliced at h
  unfold Binding.exprs Binding.attributes
  split
  · next hcomputed =>
    rw [if_pos hcomputed] at h
    have hname := h b.name (by simp)
    have hvalue := h b.expression (by simp)
    exact writeNames_single (evaluates_userExpr hname) (evaluates_userExpr hvalue)
      (silent_userExpr hname) (silent_userExpr hvalue)
  · next hcomputed =>
    rw [if_neg hcomputed] at h
    split
    · exact writeNames_nil
    · next hmerged =>
      rw [if_neg hmerged] at h
      have hvalue := h b.expression (by simp)
      exact writeNames_single (evaluates_textExpr b.name) (evaluates_userExpr hvalue)
        (silent_textExpr b.name) (silent_userExpr hvalue)

theorem Head.writeNames {head : Head} (h : ∀ u ∈ head.spliced, expressionFault? u = none) :
    WriteNames data callStatic staticNames head.attributeExprs (head.attributes data) := by
  have hplain : WriteNames data callStatic staticNames
      (head.plain.map fun p => attributeExpr (textExpr p.1) (textExpr p.2))
      (head.plain.map fun p => (p.1, some p.2)) := by
    rw [List.map_eq_flatMap, List.map_eq_flatMap]
    apply writeNames_flatMap
    intro a _
    exact writeNames_single (evaluates_textExpr a.1) (evaluates_textExpr a.2)
      (silent_textExpr a.1) (silent_textExpr a.2)
  have hbindings : WriteNames data callStatic staticNames (head.bindings.flatMap Binding.exprs)
      (head.bindings.flatMap (Binding.attributes data)) := by
    apply writeNames_flatMap
    intro b hb
    exact writeNames_binding fun u hu => h u (mem_spliced_binding hb hu)
  refine WriteNames.append (WriteNames.append (WriteNames.append ?_ ?_) hplain) hbindings
  · exact writeNames_merged fun b hb => h _ (mem_spliced_class hb)
  · exact writeNames_merged fun b hb => h _ (mem_spliced_style hb)

/-- The call for an element writes its attributes and then what its children write. -/
theorem Head.attributeNames_expr {head : Head} (h : ∀ u ∈ head.spliced, expressionFault? u = none)
    (children : Option Expr) :
    (head.expr children).attributeNames data callStatic staticNames =
      (head.attributes data).map Prod.fst ++
        allAttributeNames data callStatic staticNames children.toList := by
  have hnames : WriteNames data callStatic staticNames _ _ := Head.writeNames h
  rw [expr, Expr.attributeNames_call "_c" .element rfl (by decide) (by decide) (by decide),
    allAttributeNames, allAttributeNames, silent_textExpr, List.nil_append, Expr.attributeNames,
    hnames]

end

/-! ### Trees -/

mutual

/-- The elements that stand under the data and for which there is code, in order. -/
def Node.standing (data : Json.Value) : Node → List Head
  | .element head children =>
    if head.stands data then
      head :: if head.keepsChildren then standingAll data children else []
    else []
  | .text _ => []
  | .comment .. => []

def standingAll (data : Json.Value) : List Node → List Head
  | [] => []
  | node :: rest => node.standing data ++ standingAll data rest

end

/-- The names of the attributes that the heads are written with. -/
def attributeNames (data : Json.Value) (heads : List Head) : List String :=
  heads.flatMap fun head => (head.attributes data).map Prod.fst

section

variable {data : Json.Value} {callStatic : Nat → Except RenderFailure String}
variable {staticNames : Nat → List String}

theorem attributeNames_cons (head : Head) (heads : List Head) :
    attributeNames data (head :: heads) =
      (head.attributes data).map Prod.fst ++ attributeNames data heads :=
  List.flatMap_cons

theorem attributeNames_append (heads more : List Head) :
    attributeNames data (heads ++ more) =
      attributeNames data heads ++ attributeNames data more :=
  List.flatMap_append

/-- The static procedures from an index on write the names that these bodies do. -/
def NamesStatics (data : Json.Value) (staticNames : Nat → List String) (first : Nat)
    (statics : List Expr) : Prop :=
  ∀ i e, statics[i]? = some e → ∃ callStatic inner,
    staticNames (first + i) = e.attributeNames data callStatic inner

theorem namesStatics_nil (first : Nat) : NamesStatics data staticNames first [] := by
  intro i e h
  simp at h

theorem NamesStatics.left {first : Nat} {statics more : List Expr}
    (h : NamesStatics data staticNames first (statics ++ more)) :
    NamesStatics data staticNames first statics := by
  intro i e hi
  exact h i e (by rw [List.getElem?_append_left (List.getElem?_eq_some_iff.1 hi).1, hi])

theorem NamesStatics.right {first : Nat} {statics more : List Expr}
    (h : NamesStatics data staticNames first (statics ++ more)) :
    NamesStatics data staticNames (first + statics.length) more := by
  intro i e hi
  rw [Nat.add_assoc]
  exact h (statics.length + i) e (by rw [List.getElem?_append_right (by omega)]; simpa using hi)

theorem attributeNames_intentAll {nodes : List Node}
    (h : ∀ n ∈ nodes, ∀ first, NamesStatics data staticNames first (n.intent first).statics →
      (n.intent first).main.attributeNames data callStatic staticNames =
        attributeNames data (n.standing data)) {first : Nat}
    (hstatics : NamesStatics data staticNames first (intentAll first nodes).2) :
    allAttributeNames data callStatic staticNames (intentAll first nodes).1 =
      attributeNames data (standingAll data nodes) := by
  induction nodes generalizing first with
  | nil => rfl
  | cons n nodes ih =>
    rw [intentAll] at hstatics
    rw [intentAll, allAttributeNames, standingAll, attributeNames_append,
      h n (by simp) first hstatics.left,
      ih (fun m hm => h m (by simp [hm])) hstatics.right]

/-- The call for an element, from what its children write where there is code for them. -/
theorem Head.attributeNames_body {head : Head}
    (h : ∀ u ∈ head.spliced, expressionFault? u = none)
    (hsupplier : ∀ d ∈ head.supplier?, expressionFault? d.value = none)
    {children : List Expr × List Expr} {heads : List Head}
    (hchildren : head.keepsChildren = true →
      allAttributeNames data callStatic staticNames children.1 = attributeNames data heads) :
    (head.bodyIntent children).main.attributeNames data callStatic staticNames =
      attributeNames data (head :: if head.keepsChildren then heads else []) := by
  rw [attributeNames_cons]
  unfold bodyIntent
  cases hs : head.supplier? with
  | some d =>
    have hkeeps : head.keepsChildren = false := by simp [keepsChildren, hs]
    have hsilent := silent_directive (hsupplier d hs) data callStatic staticNames
    simp only [attributeNames_expr h, hkeeps, Option.toList_some, allAttributeNames, hsilent]
    rfl
  | none =>
    cases hunary : head.unary with
    | true =>
      have hkeeps : head.keepsChildren = false := by simp [keepsChildren, hunary]
      simp only [if_true, attributeNames_expr h, hkeeps, Option.toList_none, allAttributeNames]
      rfl
    | false =>
      have hkeeps : head.keepsChildren = true := by simp [keepsChildren, hs, hunary]
      simp only [Bool.false_eq_true, if_false, attributeNames_expr h, hkeeps, if_true,
        Option.toList_some, allAttributeNames, Expr.attributeNames, hchildren hkeeps,
        List.append_nil]

theorem Head.attributeNames_wrap {head : Head} (hroot : head.isStaticRoot = false)
    (hcondition : ∀ c ∈ head.condition, expressionFault? c = none) (first : Nat) {body : Intent}
    {heads : List Head} (hbody : body.main.attributeNames data callStatic staticNames =
      attributeNames data heads) :
    (head.wrapIntent first body).main.attributeNames data callStatic staticNames =
      attributeNames data (if head.stands data then heads else []) := by
  unfold wrapIntent stands
  rw [if_neg (by simp [hroot])]
  cases hc : head.condition with
  | none => exact hbody
  | some c =>
    have heval : Evaluates data callStatic _ _ := evaluates_userExpr (hcondition c hc)
    have hsilent := silent_userExpr (hcondition c hc) data callStatic staticNames
    have hname : Code.Helper.named? "_i" = some .condition := rfl
    simp only [Expr.attributeNames, hname, conditionAttributeNames, heval, hsilent, hbody,
      List.nil_append]
    split <;> rfl

theorem attributeNames_static (index : Nat) :
    (Expr.call "_m" [.literal (.number (.integer index))] 0).attributeNames data callStatic
      staticNames = staticNames index := by
  have hname : Code.Helper.named? "_m" = some .static := rfl
  simp only [Expr.attributeNames, hname, allAttributeNames, Code.evalAll, Expr.eval,
    Code.helperNames, List.nil_append]
  rfl

/-- A call of a static root writes what its body does, in which nothing calls a static procedure. -/
theorem Head.attributeNames_wrap_root {head : Head} (hroot : head.isStaticRoot = true)
    {first : Nat} {body : Intent} (hempty : body.statics = []) {names : List String}
    (hstatics : NamesStatics data staticNames first (head.wrapIntent first body).statics)
    (hbody : ∀ callStatic inner, body.main.attributeNames data callStatic inner = names) :
    (head.wrapIntent first body).main.attributeNames data callStatic staticNames = names := by
  rw [wrapIntent, if_pos hroot, hempty, List.nil_append] at hstatics ⊢
  obtain ⟨callStatic, inner, hinner⟩ := hstatics 0 body.main rfl
  rw [hbody] at hinner
  exact (attributeNames_static (first + 0)).trans hinner

/-- The code of a tree, read as it is meant, writes the attributes of the elements that stand. -/
theorem Node.attributeNames_intent {n : Node}
    (hspliced : ∀ u ∈ n.spliced, expressionFault? u = none)
    (hsupplied : ∀ u ∈ n.supplied, expressionFault? u = none)
    (hroots : ∀ r ∈ n.elements, r.head.isStaticRoot = true →
      r.head.condition = none ∧ Rootless (elementsAll r.children)) {first : Nat}
    (hstatics : NamesStatics data staticNames first (n.intent first).statics) :
    (n.intent first).main.attributeNames data callStatic staticNames =
      attributeNames data (n.standing data) := by
  induction n using Node.induction generalizing first callStatic staticNames with
  | text run =>
    have hparts : ∀ u ∈ run.parts.flatMap Part.spliced, expressionFault? u = none := by
      simpa [spliced, generated, ownSpliced] using hspliced
    exact silent_run hparts data callStatic staticNames
  | comment content span =>
    exact silent_call "_cm" .comment rfl (by decide) (by decide) (by decide)
      (List.forall_mem_singleton.2 (silent_textExpr content)) data callStatic staticNames
  | element head children ih =>
    have hhead : ∀ u ∈ head.spliced, expressionFault? u = none :=
      fun u hu => hspliced u (mem_spliced_head hu)
    have hsupplier : ∀ d ∈ head.supplier?, expressionFault? d.value = none :=
      fun d hd => hsupplied d.value (mem_supplied_head hd)
    have hchild : head.keepsChildren = true → ∀ n ∈ children, ∀ {callStatic staticNames} first,
        NamesStatics data staticNames first (n.intent first).statics →
        (n.intent first).main.attributeNames data callStatic staticNames =
          attributeNames data (n.standing data) := by
      intro hkeeps n hn callStatic staticNames first
      exact ih n hn (fun u hu => hspliced u (mem_spliced_children hkeeps hn hu))
        (fun u hu => hsupplied u (mem_supplied_children hkeeps hn hu))
        (fun r hr => hroots r (mem_elements_children hn hr))
    rw [intent] at hstatics ⊢
    rw [standing]
    cases hroot : head.isStaticRoot with
    | false =>
      rw [Head.statics_wrapIntent hroot] at hstatics
      refine Head.attributeNames_wrap hroot ?_ first (Head.attributeNames_body hhead hsupplier ?_)
      · exact fun c hc => hhead c (mem_spliced_condition hc)
      · intro hkeeps
        rw [head.statics_bodyIntent_of_keeps hkeeps] at hstatics
        exact attributeNames_intentAll (fun n hn first => hchild hkeeps n hn first) hstatics
    | true =>
      obtain ⟨hcondition, hrootless⟩ := hroots ⟨head, children⟩ List.mem_cons_self hroot
      have hnone := statics_intentAll_of_rootless hrootless first
      have hempty := head.statics_bodyIntent hnone
      have hstands : head.stands data = true := by rw [Head.stands, hcondition]
      rw [if_pos hstands]
      apply Head.attributeNames_wrap_root hroot hempty hstatics
      intro callStatic inner
      have hinside : NamesStatics data inner first (intentAll first children).2 := by
        rw [hnone]
        exact namesStatics_nil first
      exact Head.attributeNames_body hhead hsupplier fun hkeeps =>
        attributeNames_intentAll (fun n hn first => hchild hkeeps n hn first) hinside

end

end HtmlTemplate.Template
