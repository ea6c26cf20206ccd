import HtmlTemplate.Proofs.Calls
import HtmlTemplate.Proofs.Hoisting

/-!
# Well-called code evaluates

Code whose calls are as they should be evaluates to markup, whatever the data, provided that the
static procedures which it calls do (`Node.exists_evaluates_intent`). Lists stand where a helper
takes lists, attributes where it takes attributes and nodes where it takes nodes. A static body
calls no static procedure, so nothing has to be provided for it (`exists_render_of_mem_statics`).
-/

namespace HtmlTemplate.Template

open HtmlTemplate.Code (Evaluates Expr Result RenderFailure)

section

variable {data : Json.Value} {callStatic : Nat → Except RenderFailure String}

/-- Calls of so many static procedures from an index on do not fail. -/
def StaticsStand (callStatic : Nat → Except RenderFailure String) (first count : Nat) : Prop :=
  ∀ i < count, ∃ html, callStatic (first + i) = .ok html

theorem StaticsStand.left {first count more : Nat}
    (h : StaticsStand callStatic first (count + more)) : StaticsStand callStatic first count :=
  fun i hi => h i (by omega)

theorem StaticsStand.right {first count more : Nat}
    (h : StaticsStand callStatic first (count + more)) :
    StaticsStand callStatic (first + count) more := by
  intro i hi
  rw [Nat.add_assoc]
  exact h (count + i) (by omega)

theorem Head.exists_evaluates_body {head : Head}
    (h : ∀ u ∈ head.spliced, expressionFault? u = none)
    (hsupplier : ∀ d ∈ head.supplier?,
      d.value.isEmpty = true ∨ expressionFault? d.value = none)
    {children : List Expr × List Expr} (hcalls : WellCalled (head.bodyIntent children).main)
    (hchildren : head.keepsChildren = true → (∀ e ∈ children.1, WellCalled e) → ∃ htmls,
      List.Forall₂ (fun e s => Evaluates data callStatic e (.markup s)) children.1 htmls) :
    ∃ html, Evaluates data callStatic (head.bodyIntent children).main (.markup html) := by
  rcases (wellCalled_body h hsupplier children).1 hcalls with ⟨hvalues, hinside⟩
  have haccepted : ∀ d ∈ head.supplier?, expressionFault? d.value = none := by
    intro d hd
    exact (hsupplier d hd).resolve_left (by simp [hvalues d hd])
  obtain ⟨htmls, hhtmls⟩ : ∃ htmls, head.keepsChildren = true →
      List.Forall₂ (fun e s => Evaluates data callStatic e (.markup s)) children.1 htmls := by
    cases hkeeps : head.keepsChildren with
    | false => exact ⟨[], by simp⟩
    | true =>
      rcases hchildren hkeeps (hinside hkeeps) with ⟨htmls, hhtmls⟩
      exact ⟨htmls, fun _ => hhtmls⟩
  exact ⟨_, evaluates_body h haccepted hhtmls⟩

theorem exists_evaluates_intentAll {nodes : List Node}
    (h : ∀ n ∈ nodes, ∀ first, WellCalled (n.intent first).main →
      StaticsStand callStatic first (n.intent first).statics.length →
      ∃ html, Evaluates data callStatic (n.intent first).main (.markup html)) {first : Nat}
    (hcalls : ∀ e ∈ (intentAll first nodes).1, WellCalled e)
    (hstatics : StaticsStand callStatic first (intentAll first nodes).2.length) :
    ∃ htmls, List.Forall₂ (fun e s => Evaluates data callStatic e (.markup s))
      (intentAll first nodes).1 htmls := by
  induction nodes generalizing first with
  | nil => exact ⟨[], .nil⟩
  | cons n nodes ih =>
    simp only [intentAll, List.forall_mem_cons, List.length_append] at hcalls hstatics
    rcases h n List.mem_cons_self first hcalls.1 hstatics.left with ⟨html, hhtml⟩
    obtain ⟨htmls, hhtmls⟩ := ih (fun m hm => h m (List.mem_cons_of_mem _ hm)) hcalls.2
      hstatics.right
    exact ⟨html :: htmls, .cons hhtml hhtmls⟩

theorem Head.exists_evaluates_wrap {head : Head}
    (hcondition : ∀ c ∈ head.condition, expressionFault? c = none) {first : Nat} {body : Intent}
    (hcalls : WellCalled (head.wrapIntent first body).main)
    (hstatics : StaticsStand callStatic first (head.wrapIntent first body).statics.length)
    (hbody : WellCalled body.main → StaticsStand callStatic first body.statics.length →
      ∃ html, Evaluates data callStatic body.main (.markup html)) :
    ∃ html, Evaluates data callStatic (head.wrapIntent first body).main (.markup html) := by
  cases hroot : head.isStaticRoot with
  | true =>
    rw [wrapIntent, if_pos hroot, List.length_append, List.length_singleton] at hstatics
    rcases hstatics body.statics.length (by omega) with ⟨html, hhtml⟩
    rw [wrapIntent, if_pos hroot]
    exact ⟨html, evaluates_static hhtml⟩
  | false =>
    rw [wellCalled_wrap hroot hcondition] at hcalls
    rw [statics_wrapIntent hroot] at hstatics
    rcases hbody hcalls hstatics with ⟨html, hhtml⟩
    exact ⟨_, evaluates_wrap hroot hcondition first hhtml⟩

/-- Whatever the data, code whose calls are as they should be gives markup. -/
theorem Node.exists_evaluates_intent {n : Node}
    (hspliced : ∀ u ∈ n.spliced, expressionFault? u = none)
    (hsupplied : ∀ u ∈ n.supplied, u.isEmpty = true ∨ expressionFault? u = none) {first : Nat}
    (hcalls : WellCalled (n.intent first).main)
    (hstatics : StaticsStand callStatic first (n.intent first).statics.length) :
    ∃ html, Evaluates data callStatic (n.intent first).main (.markup html) := by
  induction n using Node.induction generalizing first with
  | text run =>
    refine ⟨_, evaluates_run ?_⟩
    simpa [spliced, generated, ownSpliced] using hspliced
  | comment content span =>
    exact ⟨_, Code.Expr.eval_call "_cm" .comment rfl (by decide)
      (.cons (evaluates_textExpr content) .nil)⟩
  | element head children ih =>
    have hhead : ∀ u ∈ head.spliced, expressionFault? u = none :=
      fun u hu => hspliced u (mem_spliced_head hu)
    have hsupplier : ∀ d ∈ head.supplier?,
        d.value.isEmpty = true ∨ expressionFault? d.value = none :=
      fun d hd => hsupplied d.value (mem_supplied_head hd)
    apply Head.exists_evaluates_wrap _ hcalls hstatics
    · intro hcalls hstatics
      apply Head.exists_evaluates_body hhead hsupplier hcalls
      intro hkeeps hcalls
      rw [head.statics_bodyIntent_of_keeps hkeeps] at hstatics
      apply exists_evaluates_intentAll _ hcalls hstatics
      intro n hn first
      exact ih n hn (fun u hu => hspliced u (mem_spliced_children hkeeps hn hu))
        (fun u hu => hsupplied u (mem_supplied_children hkeeps hn hu))
    · exact fun c hc => hhead c (mem_spliced_condition hc)

/-- Whatever the data, a static body whose calls are as they should be gives markup. -/
theorem exists_render_of_mem_statics {n : Node}
    (hspliced : ∀ u ∈ n.spliced, expressionFault? u = none)
    (hsupplied : ∀ u ∈ n.supplied, u.isEmpty = true ∨ expressionFault? u = none)
    (hhoisted : n.Hoisted) {first : Nat} {e : Expr} (he : e ∈ (n.intent first).statics)
    (hcalls : WellCalled e) : ∃ html, e.render data callStatic = .ok html := by
  rcases exists_root_of_mem_statics he with ⟨r, hr, hroot, first, rfl⟩
  have hrspliced : ∀ u ∈ r.toNode.spliced, expressionFault? u = none :=
    fun u hu => hspliced u (spliced_subset_of_generated hr hu)
  have hrsupplied : ∀ u ∈ r.toNode.supplied, u.isEmpty = true ∨ expressionFault? u = none :=
    fun u hu => hsupplied u (supplied_subset_of_generated hr hu)
  have hrootless := hhoisted r (mem_elements_of_generated hr) hroot
  obtain ⟨html, hhtml⟩ : ∃ html, Evaluates data callStatic
      (r.head.bodyIntent (intentAll first r.children)).main (.markup html) := by
    apply Head.exists_evaluates_body _ _ hcalls
    · intro hkeeps hcalls
      have hnone := statics_intentAll_of_rootless hrootless first
      apply exists_evaluates_intentAll _ hcalls
      · rw [hnone]
        intro i hi
        cases hi
      · intro n hn first
        exact Node.exists_evaluates_intent
          (fun u hu => hrspliced u (mem_spliced_children hkeeps hn hu))
          (fun u hu => hrsupplied u (mem_supplied_children hkeeps hn hu))
    · exact fun u hu => hrspliced u (mem_spliced_head hu)
    · exact fun d hd => hrsupplied d.value (mem_supplied_head hd)
  exact ⟨html, Expr.render_of_evaluates hhtml⟩

end

end HtmlTemplate.Template
