import HtmlTemplate.Proofs.Makeup
import HtmlTemplate.Template.Tree

/-!
# How deep the code of a tree is nested

An element adds at most three levels to what stands in it: a condition, its call and a list. What
stands in an attribute or in text is at most six levels further down than the element is. So the
code of a tree that is not too high leaves room for the expressions of the template
(`Node.within_intent`).
-/

namespace HtmlTemplate.Template

open HtmlTemplate.Code (Expr depthAll)

mutual

/-- How many elements stand in each other. -/
def Node.height : Node → Nat
  | .element _ children => heightAll children + 1
  | .text _ => 0
  | .comment .. => 0

def heightAll : List Node → Nat
  | [] => 0
  | node :: rest => max node.height (heightAll rest)

end

theorem heightAll_le_iff {nodes : List Node} {bound : Nat} :
    heightAll nodes ≤ bound ↔ ∀ n ∈ nodes, n.height ≤ bound := by
  induction nodes with
  | nil => simp [heightAll]
  | cons n nodes ih => rw [heightAll, Nat.max_le, ih, List.forall_mem_cons]

theorem height_le_heightAll {nodes : List Node} {n : Node} (h : n ∈ nodes) :
    n.height ≤ heightAll nodes :=
  heightAll_le_iff.1 (Nat.le_refl _) n h

section

variable {bound : Nat}

theorem Head.depth_expr_le {head : Head} (hpos : 1 ≤ bound)
    (h : ∀ u ∈ head.spliced, (userExpr u).depth ≤ bound)
    (children : Option Expr) (inner : Nat) (hchildren : ∀ e ∈ children, e.depth ≤ inner) :
    (head.expr children).depth ≤ max (bound + 4) inner + 1 := by
  apply (depth_call_le_iff "_c").2
  have hattributes := depth_array_le_iff.2 fun e he => (head.made_attributes e he).depth_le hpos h
  simp only [List.forall_mem_cons, Option.mem_toList]
  refine ⟨by rw [depth_textExpr]; omega, by omega, ?_⟩
  intro e he
  have := hchildren e he
  omega

theorem depth_userArguments_le {code : String} (h : (userExpr code).depth ≤ bound) :
    ∀ e ∈ userArguments code, e.depth ≤ bound := by
  unfold userArguments
  split <;> simp [h]

theorem Directive.depth_children_le {d : Directive} (h : (userExpr d.value).depth ≤ bound) :
    d.childrenExpr.depth ≤ bound + 3 := by
  have harguments := depth_userArguments_le h
  unfold childrenExpr
  split
  · have hcall := (depth_call_le_iff "_h").2 harguments
    have hlist : (Expr.array [.call "_h" (userArguments d.value) 0]).depth ≤ bound + 2 :=
      depth_array_le_iff.2 (by simpa using hcall)
    omega
  · have hshown := (depth_call_le_iff "_s").2 harguments
    have hcall : (Expr.call "_v" [.call "_s" (userArguments d.value) 0] 0).depth ≤ bound + 2 :=
      (depth_call_le_iff "_v").2 (by simpa using hshown)
    exact depth_array_le_iff.2 (by simpa using hcall)

theorem Head.depth_body_le {head : Head} (hpos : 1 ≤ bound)
    (h : ∀ u ∈ head.spliced, (userExpr u).depth ≤ bound)
    (hsupplier : ∀ d ∈ head.supplier?, (userExpr d.value).depth ≤ bound)
    {children : List Expr × List Expr} {inner : Nat}
    (hchildren : head.keepsChildren = true → ∀ e ∈ children.1, e.depth ≤ inner) :
    (head.bodyIntent children).main.depth ≤ max (bound + 4) (inner + 1) + 1 := by
  unfold bodyIntent
  cases hs : head.supplier? with
  | some d =>
    have hd := Directive.depth_children_le (hsupplier d hs)
    have hcall := depth_expr_le hpos h (some d.childrenExpr) (bound + 3) (by simpa using hd)
    simp only
    omega
  | none =>
    cases hunary : head.unary with
    | true =>
      have hcall := depth_expr_le hpos h none 0 (by simp)
      simp only [if_true]
      omega
    | false =>
      have hkeeps : head.keepsChildren = true := by simp [keepsChildren, hs, hunary]
      have hlist := depth_array_le_iff.2 (hchildren hkeeps)
      have hcall := depth_expr_le hpos h (some (.array children.1)) (inner + 1)
        (by simpa using hlist)
      simpa using hcall

end

/-- None of the expressions of a piece of code, main or static, is deeper than a bound. -/
def Intent.Within (bound : Nat) (intent : Intent) : Prop :=
  intent.main.depth ≤ bound ∧ ∀ e ∈ intent.statics, e.depth ≤ bound

theorem Intent.Within.mono {bound more : Nat} {intent : Intent} (h : intent.Within bound)
    (hle : bound ≤ more) : intent.Within more :=
  ⟨Nat.le_trans h.1 hle, fun e he => Nat.le_trans (h.2 e he) hle⟩

theorem Head.within_wrap {head : Head} {bound : Nat}
    (h : ∀ c ∈ head.condition, (userExpr c).depth ≤ bound) (first : Nat) {body : Intent}
    (hbody : body.Within bound) : (head.wrapIntent first body).Within (bound + 1) := by
  have hpos := body.main.depth_pos
  rcases hbody with ⟨hmain, hstatics⟩
  unfold wrapIntent
  split
  · constructor
    · have hcall : (Expr.call "_m"
          [.literal (.number (.integer (first + body.statics.length)))] 0).depth ≤ 1 + 1 :=
        (depth_call_le_iff "_m").2 (by simp [Expr.depth])
      simp only
      omega
    · simp only [List.forall_mem_append, List.forall_mem_singleton]
      constructor
      · exact fun e he => Nat.le_succ_of_le (hstatics e he)
      · exact Nat.le_succ_of_le hmain
  · cases hc : head.condition with
    | none => exact Intent.Within.mono ⟨hmain, hstatics⟩ (Nat.le_succ bound)
    | some c =>
      exact ⟨(depth_call_le_iff "_i").2 (by simp [h c hc, hmain]),
        fun e he => Nat.le_succ_of_le (hstatics e he)⟩

/-! ### Trees -/

theorem within_intentAll {nodes : List Node} {bound : Nat}
    (h : ∀ n ∈ nodes, ∀ first, (n.intent first).Within bound) (first : Nat) :
    (∀ e ∈ (intentAll first nodes).1, e.depth ≤ bound) ∧
      ∀ e ∈ (intentAll first nodes).2, e.depth ≤ bound := by
  induction nodes generalizing first with
  | nil => simp [intentAll]
  | cons n nodes ih =>
    obtain ⟨hmain, hstatics⟩ := h n (by simp) first
    obtain ⟨hmains, hrest⟩ := ih (fun m hm => h m (by simp [hm]))
      (first + (n.intent first).statics.length)
    simp only [intentAll, List.forall_mem_cons, List.forall_mem_append]
    exact ⟨⟨hmain, hmains⟩, hstatics, hrest⟩

/-- The code of a tree is at most three levels deeper for every element around, and at most three
for the text itself. -/
theorem Node.within_intent {n : Node} {bound : Nat} (hpos : 1 ≤ bound)
    (h : ∀ u ∈ n.spliced ++ n.supplied, (userExpr u).depth ≤ bound) (first : Nat) :
    (n.intent first).Within (3 * n.height + 3 + bound) := by
  induction n using Node.induction generalizing first with
  | text run =>
    have hparts : ∀ u ∈ run.parts.flatMap Part.spliced, (userExpr u).depth ≤ bound := by
      simpa [spliced, supplied, generated, ownSpliced, ownSupplied] using h
    have hrun := (made_run fun u hu => hu).depth_le hpos hparts
    refine ⟨?_, by simp [intent]⟩
    rw [intent, height]
    simp only
    omega
  | comment content span =>
    refine ⟨?_, by simp [intent]⟩
    simp only [intent, height, Expr.depth, depthAll, depth_textExpr]
    omega
  | element head children ih =>
    rw [List.forall_mem_append] at h
    have hhead : ∀ u ∈ head.spliced, (userExpr u).depth ≤ bound :=
      fun u hu => h.1 u (mem_spliced_head hu)
    have hsupplier : ∀ d ∈ head.supplier?, (userExpr d.value).depth ≤ bound :=
      fun d hd => h.2 d.value (mem_supplied_head hd)
    have hcondition : ∀ c ∈ head.condition, (userExpr c).depth ≤ bound :=
      fun c hc => hhead c (mem_spliced_condition hc)
    generalize hinner : 3 * heightAll children + 3 + bound = inner
    have hchildren : head.keepsChildren = true →
        ∀ n ∈ children, ∀ first, (n.intent first).Within inner := by
      intro hkeeps n hn first
      have hn_height := height_le_heightAll hn
      refine (ih n hn ?_ first).mono (by omega)
      rw [List.forall_mem_append]
      exact ⟨fun u hu => h.1 u (mem_spliced_children hkeeps hn hu),
        fun u hu => h.2 u (mem_supplied_children hkeeps hn hu)⟩
    have hmain := Head.depth_body_le hpos hhead hsupplier
      fun hkeeps => (within_intentAll (hchildren hkeeps) first).1
    have hstatics : ∀ e ∈ (head.bodyIntent (intentAll first children)).statics,
        e.depth ≤ inner := by
      cases hkeeps : head.keepsChildren with
      | true =>
        rw [head.statics_bodyIntent_of_keeps hkeeps]
        exact (within_intentAll (hchildren hkeeps) first).2
      | false => simp [head.statics_bodyIntent_of_not_keeps hkeeps]
    have hbody : (head.bodyIntent (intentAll first children)).Within (inner + 2) :=
      ⟨by omega, fun e he => Nat.le_add_right_of_le (hstatics e he)⟩
    rw [intent, height]
    refine (Head.within_wrap ?_ first hbody).mono (by omega)
    intro c hc
    have := hcondition c hc
    omega

/-- In a tree that is not too high there is room for expressions nested 600 deep. -/
theorem Node.within_depthLimit {n : Node} (hheight : n.height ≤ nestingLimit)
    (h : ∀ u ∈ n.spliced ++ n.supplied, (userExpr u).depth ≤ 600) (first : Nat) :
    (n.intent first).Within Code.depthLimit := by
  rw [nestingLimit] at hheight
  apply (n.within_intent (by decide) h first).mono
  rw [Code.depthLimit]
  omega

end HtmlTemplate.Template
