import HtmlTemplate.Proofs.Makeup

/-!
# The calls in the code of a tree

Generated code keeps to the helpers and their arguments, with one exception: a directive without a
value supplies the children of its element by a call without an argument. If the expressions of a
template are as they should be, its code is, main and static, exactly if there is no such directive
(`Node.wellCalled_intent`).
-/

namespace HtmlTemplate.Template

open HtmlTemplate.Code (Expr)

/-- All calls of the code, main and static, are as they should be. -/
def Intent.WellCalled (intent : Intent) : Prop :=
  Template.WellCalled intent.main ∧ ∀ e ∈ intent.statics, Template.WellCalled e

/-- A directive needs a value for the call that supplies the children. -/
theorem Directive.wellCalled_children {d : Directive}
    (h : d.value.isEmpty = true ∨ expressionFault? d.value = none) :
    WellCalled d.childrenExpr ↔ d.value.isEmpty = false := by
  have hargument : ∀ e ∈ userArguments d.value, WellCalled e := by
    unfold userArguments
    split
    · simp
    · next hempty => simpa using wellCalled_userExpr (h.resolve_left hempty)
  have hadmits : ∀ helper : Code.Helper, helper.arity = ⟨1, some 1⟩ →
      (helper.arity.admits (userArguments d.value).length = true ↔ d.value.isEmpty = false) := by
    intro helper harity
    unfold userArguments
    cases d.value.isEmpty <;> simp [harity, Code.Arity.admits]
  unfold childrenExpr
  split
  · rw [wellCalled_array, List.forall_mem_singleton, wellCalled_call "_h" .markup rfl,
      hadmits .markup rfl]
    exact and_iff_left hargument
  · rw [wellCalled_array, List.forall_mem_singleton, wellCalled_call "_v" .text rfl,
      List.forall_mem_singleton, wellCalled_call "_s" .display rfl, hadmits .display rfl,
      and_iff_left hargument]
    exact and_iff_right rfl

namespace Head

theorem wellCalled_expr {head : Head} (h : ∀ u ∈ head.spliced, expressionFault? u = none)
    (children : Option Expr) :
    WellCalled (head.expr children) ↔ ∀ e ∈ children, WellCalled e := by
  have hattributes : WellCalled (.array head.attributeExprs) :=
    wellCalled_array.2 fun e he => (head.made_attributes e he).wellCalled h
  rw [expr, wellCalled_call "_c" .element rfl]
  cases children with
  | none => simp [Code.Arity.admits, Code.Helper.arity, wellCalled_textExpr, hattributes]
  | some e => simp [Code.Arity.admits, Code.Helper.arity, wellCalled_textExpr, hattributes]

theorem wellCalled_body {head : Head} (h : ∀ u ∈ head.spliced, expressionFault? u = none)
    (hsupplier : ∀ d ∈ head.supplier?,
      d.value.isEmpty = true ∨ expressionFault? d.value = none)
    (children : List Expr × List Expr) :
    WellCalled (head.bodyIntent children).main ↔
      (∀ d ∈ head.supplier?, d.value.isEmpty = false) ∧
        (head.keepsChildren = true → ∀ e ∈ children.1, WellCalled e) := by
  unfold bodyIntent keepsChildren
  cases hs : head.supplier? with
  | some d => simp [wellCalled_expr h, Directive.wellCalled_children (hsupplier d hs)]
  | none =>
    cases hunary : head.unary with
    | true => simp [wellCalled_expr h]
    | false => simp [wellCalled_expr h, wellCalled_array]

theorem forall_mem_statics_bodyIntent (head : Head) (children : List Expr × List Expr) :
    (∀ e ∈ (head.bodyIntent children).statics, WellCalled e) ↔
      (head.keepsChildren = true → ∀ e ∈ children.2, WellCalled e) := by
  cases hkeeps : head.keepsChildren with
  | true => simp [head.statics_bodyIntent_of_keeps hkeeps]
  | false => simp [head.statics_bodyIntent_of_not_keeps hkeeps]

theorem wellCalled_wrap {head : Head} (hroot : head.isStaticRoot = false)
    (h : ∀ c ∈ head.condition, expressionFault? c = none) (first : Nat) (body : Intent) :
    WellCalled (head.wrapIntent first body).main ↔ WellCalled body.main := by
  rw [wrapIntent, if_neg (by simp [hroot])]
  cases hc : head.condition with
  | none => exact Iff.rfl
  | some c =>
    rw [wellCalled_call "_i" .condition rfl]
    simp [Code.Arity.admits, Code.Helper.arity, wellCalled_userExpr (h c hc)]

/-- Hoisting a body does not change whether all calls are as they should be. -/
theorem wellCalled_wrapIntent {head : Head} (h : ∀ c ∈ head.condition, expressionFault? c = none)
    (first : Nat) (body : Intent) :
    (head.wrapIntent first body).WellCalled ↔ body.WellCalled := by
  unfold Intent.WellCalled
  cases hroot : head.isStaticRoot with
  | false => rw [wellCalled_wrap hroot h, statics_wrapIntent hroot]
  | true =>
    have hcall : Template.WellCalled (.call "_m"
        [.literal (.number (.integer (first + body.statics.length)))] 0) := rfl
    rw [wrapIntent, if_pos hroot, List.forall_mem_append, List.forall_mem_singleton,
      and_iff_right hcall]
    exact and_comm

end Head

theorem wellCalled_intentAll {nodes : List Node} {Supplied : Node → Prop}
    (h : ∀ n ∈ nodes, ∀ first, (n.intent first).WellCalled ↔ Supplied n) (first : Nat) :
    ((∀ e ∈ (intentAll first nodes).1, WellCalled e) ∧
      ∀ e ∈ (intentAll first nodes).2, WellCalled e) ↔ ∀ n ∈ nodes, Supplied n := by
  induction nodes generalizing first with
  | nil => simp [intentAll]
  | cons n nodes ih =>
    have hn := h n (by simp) first
    have hrest := ih (fun m hm => h m (by simp [hm])) (first + (n.intent first).statics.length)
    unfold Intent.WellCalled at hn
    simp only [intentAll, List.forall_mem_cons, List.forall_mem_append]
    rw [← hn, ← hrest]
    exact and_and_and_comm

/-- The calls of the code are as they should be exactly if every directive that supplies children
has a value. -/
theorem Node.wellCalled_intent {n : Node} (hspliced : ∀ u ∈ n.spliced, expressionFault? u = none)
    (hsupplied : ∀ u ∈ n.supplied, u.isEmpty = true ∨ expressionFault? u = none) (first : Nat) :
    (n.intent first).WellCalled ↔ ∀ u ∈ n.supplied, u.isEmpty = false := by
  induction n using Node.induction generalizing first with
  | text run =>
    have hrun : WellCalled (runExpr run.parts) := by
      apply (made_run fun u hu => hu).wellCalled
      simpa [spliced, generated, ownSpliced] using hspliced
    simp [intent, Intent.WellCalled, supplied, generated, ownSupplied, hrun]
  | comment content span =>
    have hcall : WellCalled (.call "_cm" [textExpr content] 0) := rfl
    simp [intent, Intent.WellCalled, supplied, generated, ownSupplied, hcall]
  | element head children ih =>
    have hhead : ∀ u ∈ head.spliced, expressionFault? u = none :=
      fun u hu => hspliced u (mem_spliced_head hu)
    have hcondition : ∀ c ∈ head.condition, expressionFault? c = none :=
      fun c hc => hhead c (mem_spliced_condition hc)
    have hsupplier : ∀ d ∈ head.supplier?,
        d.value.isEmpty = true ∨ expressionFault? d.value = none :=
      fun d hd => hsupplied d.value (mem_supplied_head hd)
    rw [intent, Head.wellCalled_wrapIntent hcondition, Intent.WellCalled,
      Head.wellCalled_body hhead hsupplier, Head.forall_mem_statics_bodyIntent, supplied_element,
      List.forall_mem_append, and_assoc, ← forall_and]
    apply and_congr
    · simp
    · cases hkeeps : head.keepsChildren with
      | false => simp
      | true =>
        have hchild : ∀ n ∈ children, ∀ first,
            (n.intent first).WellCalled ↔ ∀ u ∈ n.supplied, u.isEmpty = false := by
          intro n hn first
          exact ih n hn (fun u hu => hspliced u (mem_spliced_children hkeeps hn hu))
            (fun u hu => hsupplied u (mem_supplied_children hkeeps hn hu)) first
        simp only [forall_const, if_true]
        rw [wellCalled_intentAll hchild, List.forall_mem_flatMap]

end HtmlTemplate.Template
