import HtmlTemplate.Proofs.Safety

/-!
# The search for static subtrees does not change what is rendered

A tree and the tree without its marks render alike. So do their procedures: static bodies that hold
no expression of the template are always acceptable (`acceptable_of_mem_statics`), and as they are
not nested deep, hoisting them does not decide whether the main code is too deep
(`Node.depth_unmark_le_iff`). In the end a compile that optimizes says the same and renders the same
as one that does not (`compile_optimize_eq`).
-/

namespace HtmlTemplate.Template

open HtmlTemplate.Code (Expr)

/-! ### Static bodies that hold no expression of the template -/

theorem Node.Constant.condition {n : Node} (h : n.Constant) {r : Element} (hr : r ∈ n.elements)
    (hroot : r.head.isStaticRoot = true) : r.head.condition = none := by
  have hspliced := (h r hr hroot).1
  rw [Element.toNode, Node.spliced_element] at hspliced
  simp only [Head.spliced, List.append_eq_nil_iff, Option.toList_eq_nil_iff] at hspliced
  exact hspliced.1.2

/-- The code of a static root on its own, as it is hoisted. -/
theorem acceptable_of_constant {r : Element} (hspliced : r.toNode.spliced = [])
    (hsupplied : r.toNode.supplied = []) (hheight : r.toNode.height ≤ nestingLimit) {first : Nat}
    {e : Expr} (he : e ∈ (r.toNode.intent first).statics) : e.Acceptable := by
  have hwithin := r.toNode.within_intent (Nat.le_refl 1) (by simp [hspliced, hsupplied]) first
  have hcalls : (r.toNode.intent first).WellCalled := by
    rw [Node.wellCalled_intent (by simp [hspliced]) (by simp [hsupplied])]
    simp [hsupplied]
  have hdepth := hwithin.2 e he
  refine ⟨?_, hcalls.2 e he⟩
  rw [nestingLimit] at hheight
  rw [Code.depthLimit]
  omega

theorem acceptable_of_mem_statics {n : Node} (h : n.Clean) (hconstant : n.Constant) {first : Nat}
    {e : Expr} (he : e ∈ (n.intent first).statics) : e.Acceptable := by
  obtain ⟨r, hr, hroot, first, rfl⟩ := exists_root_of_mem_statics he
  obtain ⟨hspliced, hsupplied⟩ := hconstant r (mem_elements_of_generated hr) hroot
  have hheight := Nat.le_trans (height_le_of_generated hr) h.height
  apply acceptable_of_constant hspliced hsupplied hheight
  rw [Element.toNode, Node.intent, Head.wrapIntent, if_pos hroot]
  exact List.mem_append_right _ (List.mem_singleton.2 rfl)

/-! ### Hoisting and how deep the code is -/

theorem Head.depth_body_le_iff (head : Head) {xs ys : List Expr × List Expr} {bound : Nat}
    (h : (∀ e ∈ xs.1, e.depth ≤ bound) ↔ ∀ e ∈ ys.1, e.depth ≤ bound) :
    (head.bodyIntent xs).main.depth ≤ bound + 2 ↔
      (head.bodyIntent ys).main.depth ≤ bound + 2 := by
  unfold bodyIntent
  cases hs : head.supplier? with
  | some d => exact Iff.rfl
  | none =>
    cases hunary : head.unary with
    | true => exact Iff.rfl
    | false =>
      simp only [Bool.false_eq_true, if_false, expr, Option.toList_some]
      rw [depth_call_le_iff, depth_call_le_iff]
      simp only [List.forall_mem_cons, depth_array_le_iff, h]

theorem Head.depth_wrap_le_iff {head : Head} (hroot : head.isStaticRoot = false) {x y : Intent}
    {bound : Nat} (h : ∀ b, bound ≤ b → (x.main.depth ≤ b ↔ y.main.depth ≤ b))
    (first first' : Nat) :
    (head.wrapIntent first x).main.depth ≤ bound + 1 ↔
      (head.wrapIntent first' y).main.depth ≤ bound + 1 := by
  unfold wrapIntent
  rw [if_neg (by simp [hroot]), if_neg (by simp [hroot])]
  cases hc : head.condition with
  | none => exact h (bound + 1) (Nat.le_succ bound)
  | some c =>
    simp only
    rw [depth_call_le_iff, depth_call_le_iff]
    simp only [List.forall_mem_cons, h bound (Nat.le_refl bound)]

theorem depth_intentAll_unmark_le_iff {nodes : List Node} {bound : Nat}
    (h : ∀ n ∈ nodes, ∀ first first', (n.unmark.intent first).main.depth ≤ bound ↔
      (n.intent first').main.depth ≤ bound) (first first' : Nat) :
    (∀ e ∈ (intentAll first (unmarkAll nodes)).1, e.depth ≤ bound) ↔
      ∀ e ∈ (intentAll first' nodes).1, e.depth ≤ bound := by
  induction nodes generalizing first first' with
  | nil => exact Iff.rfl
  | cons n nodes ih =>
    simp only [unmarkAll, intentAll, List.forall_mem_cons]
    rw [h n List.mem_cons_self first first', ih fun m hm => h m (List.mem_cons_of_mem _ hm)]

/-- Above the height of a tree it does not matter for the depth of its code what is hoisted. -/
theorem Node.depth_unmark_le_iff {n : Node} (hconstant : n.Constant) {bound : Nat}
    (hbound : 3 * n.height + 4 ≤ bound) (first first' : Nat) :
    (n.unmark.intent first).main.depth ≤ bound ↔ (n.intent first').main.depth ≤ bound := by
  induction n using Node.induction generalizing bound first first' with
  | text run => exact Iff.rfl
  | comment content span => exact Iff.rfl
  | element head children ih =>
    cases hroot : head.isStaticRoot with
    | true =>
      obtain ⟨hspliced, hsupplied⟩ := hconstant ⟨head, children⟩ List.mem_cons_self hroot
      have hwithin := (Node.element head children).unmark.within_intent (Nat.le_refl 1)
        (by rw [spliced_unmark, supplied_unmark]; simp_all [Element.toNode]) first
      have hunmark := hwithin.1
      rw [height_unmark] at hunmark
      have hcall : ((Node.element head children).intent first').main.depth ≤ bound := by
        rw [intent, Head.wrapIntent, if_pos hroot]
        simp only [Expr.depth, Code.depthAll]
        omega
      exact iff_of_true (by omega) hcall
    | false =>
      rw [height] at hbound
      obtain ⟨bound, rfl⟩ : ∃ b, bound = b + 1 := Nat.exists_eq_succ_of_ne_zero (by omega)
      rw [unmark, intent, intent]
      have hwrap : head.wrapIntent first' (head.bodyIntent (intentAll first' children)) =
          head.unmark.wrapIntent first' (head.unmark.bodyIntent (intentAll first' children)) := by
        cases head
        cases hroot
        rfl
      rw [hwrap]
      apply Head.depth_wrap_le_iff rfl
      intro b hb
      obtain ⟨b, rfl⟩ : ∃ c, b = c + 2 := ⟨b - 2, by omega⟩
      apply Head.depth_body_le_iff
      apply depth_intentAll_unmark_le_iff
      intro n hn first first'
      have hheight := height_le_heightAll hn
      apply ih n hn _ (by omega)
      exact fun r hr => hconstant r (mem_elements_children hn hr)

/-! ### Rendering with and without hoisting -/

/-- Static bodies being what they are, it is up to the main code whether directives that supply
children have values. -/
theorem Node.Clean.wellCalled_main_iff {n : Node} (h : n.Clean) (hconstant : n.Constant) :
    WellCalled (n.intent 0).main ↔ ∀ u ∈ n.supplied, u.isEmpty = false := by
  rw [← Node.wellCalled_intent h.spliced h.supplied 0]
  exact (and_iff_left fun e he => (acceptable_of_mem_statics h hconstant he).2).symm

theorem Node.Clean.acceptable_main_iff {n m : Node} (hn : n.Clean) (hm : m.Clean)
    (hconstant : n.Constant) (hplain : m.Constant) (hunmark : n.unmark = m) :
    (m.intent 0).main.Acceptable ↔ (n.intent 0).main.Acceptable := by
  subst hunmark
  apply and_congr
  · apply Node.depth_unmark_le_iff hconstant
    have hheight := hn.height
    rw [nestingLimit] at hheight
    rw [Code.depthLimit]
    omega
  · exact (hm.wellCalled_main_iff hplain).trans
      ((Node.supplied_unmark n).symm ▸ (hn.wellCalled_main_iff hconstant).symm)

/-- Code with static bodies renders what its main expression evaluates to wherever calls run these
bodies. -/
theorem Code.Means.render_of_evaluates {code : Code} {intent : Intent} (h : code.Means intent)
    (hmain : intent.main.Acceptable) (hstatics : ∀ e ∈ intent.statics, e.Acceptable)
    {data : Json.Value} {html : String}
    (heval : ∀ callStatic, RunsStatics data callStatic 0 intent.statics →
      Code.Evaluates data callStatic intent.main (.markup html)) :
    (Code.buildFunctions Code.interpret code.main code.statics).render data = .ok html := by
  rw [Code.Functions.render, Code.buildFunctions,
    (Code.buildOrBlank_of_acceptable h.main hmain).2]
  apply Expr.render_of_evaluates
  apply heval
  intro i e hi
  rw [Nat.zero_add]
  have hacceptable := hstatics e (List.mem_of_getElem? hi)
  exact Code.runStatic_of_acceptable h.statics hi hacceptable data 63

/-- The procedures of a clean tree render the tree. -/
theorem Node.Clean.render_eq {n : Node} (h : n.Clean) (hconstant : n.Constant) {code : Code}
    (hmeans : code.Means (n.intent 0)) (hok : (n.intent 0).main.Acceptable) (data : Json.Value) :
    (Code.buildFunctions Code.interpret code.main code.statics).render data =
      .ok (n.render data) := by
  have hvalues := (h.wellCalled_main_iff hconstant).1 hok.2
  apply hmeans.render_of_evaluates hok fun e he => acceptable_of_mem_statics h hconstant he
  intro callStatic hstatics
  apply Node.evaluates_intent h.spliced _ _ hstatics
  · intro u hu
    exact (h.supplied u hu).resolve_left (by simp [hvalues u hu])
  · exact fun r hr hroot => ⟨hconstant.condition hr hroot, h.hoisted r hr hroot⟩

/-- Optimizing a clean tree leaves alone what its procedures render, be that the tree or, if the
main code gives no procedure, nothing. -/
theorem render_optimize_eq {keys : List String} (hkeys : Inert keys) {root : Element}
    (hgrown : root.toNode.Grown Head.IsUnmarked 0) (hplain : root.toNode.Clean)
    (hoptimized : (root.optimize keys).toNode.Clean) {optimized plain : Code}
    (hmeans : optimized.Means ((root.optimize keys).toNode.intent 0))
    (hmeans' : plain.Means (root.toNode.intent 0)) (data : Json.Value) :
    (Code.buildFunctions Code.interpret optimized.main optimized.statics).render data =
      (Code.buildFunctions Code.interpret plain.main plain.statics).render data := by
  have hrootless := rootless_of_grown hgrown
  have hconstant := constant_optimize hkeys hrootless
  have hconstant' := Node.constant_of_rootless hrootless
  have hunmark : (root.optimize keys).toNode.unmark = root.toNode := by
    rw [root.unmark_optimize keys, Node.unmark_of_unmarked hgrown.heads]
  have hsame := hoptimized.acceptable_main_iff hplain hconstant hconstant' hunmark
  by_cases hok : (root.toNode.intent 0).main.Acceptable
  · rw [hoptimized.render_eq hconstant hmeans (hsame.1 hok),
      hplain.render_eq hconstant' hmeans' hok, ← Node.render_unmark, hunmark]
  · rw [Code.render_of_not_acceptable hmeans.main (fun h => hok (hsame.2 h)),
      Code.render_of_not_acceptable hmeans'.main hok]

/-! ### Compiles with and without optimization -/

section

variable {v : Overrides}

theorem inert_override_web (hmodules : v.modules = []) (hkeys : v.staticKeys = none) :
    Inert (Options.web.override v).effectiveStaticKeys := by
  have hweb : (Options.web.override v).effectiveStaticKeys = Options.web.effectiveStaticKeys := by
    rw [Options.effectiveStaticKeys, Options.override, hmodules, hkeys, List.append_nil]
    rfl
  rw [hweb]
  unfold Inert
  decide +kernel

/-- The settings with static subtrees looked for or not. -/
def Settings.optimizing (b : Bool) (s : Settings) : Settings := { s with optimize := b }

/-- A tree is optimized only after it is complete. -/
theorem tree_optimizing {o : Options} {b : Bool}
    (h : ∀ m ∈ o.modules, m.Ignores (Settings.optimizing b)) (template : String) :
    tree { o with optimize := b } template = tree o template := by
  have htransform : Growth.transform (o.toSettings.optimizing b) o.modules =
      Growth.transform o.toSettings o.modules := by
    funext e reports
    exact Growth.transform_ignores h o.toSettings e reports
  have hstep : Growth.step template { o with optimize := b } = Growth.step template o := by
    funext g event
    cases event with
    | startTag name attributes unary span =>
      simp only [Growth.step, Growth.start]
      rw [← htransform]
      rfl
    | endTag name span => rfl
    | text content span => rfl
    | comment content span => rfl
    | warning message range => rfl
  rw [tree, tree, Growth.ofEvents, Growth.ofEvents, hstep]
  rfl

theorem tree_with_optimize (hmodules : v.modules = []) (b : Bool) (template : String) :
    tree (Options.web.override { v with optimize := some b }) template =
      tree (Options.web.override v) template := by
  have hdelimiters : ∀ s : Settings, (s.optimizing b).delimiters = s.delimiters := fun _ => rfl
  exact tree_optimizing (forall_mem_modules_web hmodules (ignores_takingModule hdelimiters _ _ _)
    (ignores_takingModule hdelimiters _ _ _)) template

theorem root?_with_optimize (hmodules : v.modules = []) (b : Bool) (template : String) :
    Overrides.root? { v with optimize := some b } template = v.root? template :=
  congrArg Prod.fst (tree_with_optimize hmodules b _)

theorem reports_with_optimize (hmodules : v.modules = []) (b : Bool) (template : String) :
    (Compiler.web.compile { v with optimize := some b } template).errors =
        (Compiler.web.compile v template).errors ∧
      (Compiler.web.compile { v with optimize := some b } template).tips =
        (Compiler.web.compile v template).tips := by
  have hreports : Overrides.reports { v with optimize := some b } template =
      v.reports template := by
    rw [Overrides.reports, Overrides.reports, root?_with_optimize hmodules,
      tree_with_optimize hmodules]
  rw [compile_eq, compile_eq v]
  dsimp only
  rw [hreports]
  exact ⟨rfl, rfl⟩

/-- Whether a compile optimizes cannot be told from what it reports or, as long as it reports no
errors, from what its procedures render. The keys that make an element static are those of the web,
and the number of bytes in the template fits 64 bits. -/
theorem compile_optimize_eq (hmodules : v.modules = []) (hdirectives : v.directives = [])
    (hkeys : v.staticKeys = none) {template : String}
    (hsize : Text.extent template.toList ≤ Json.maxSignificand) :
    let optimized := Compiler.web.compile { v with optimize := some true } template
    let plain := Compiler.web.compile { v with optimize := some false } template
    optimized.errors = plain.errors ∧ optimized.tips = plain.tips ∧
      (optimized.errors = [] → ∀ data,
        optimized.functions.render data = plain.functions.render data) := by
  intro optimized plain
  obtain ⟨herrors, htips⟩ := reports_with_optimize hmodules true template
  obtain ⟨herrors', htips'⟩ := reports_with_optimize hmodules false template
  refine ⟨herrors.trans herrors'.symm, htips.trans htips'.symm, ?_⟩
  intro hclean data
  have hcode := compile_code (v := { v with optimize := some true }) hdirectives template
  have hcode' := compile_code (v := { v with optimize := some false }) hdirectives template
  rw [root?_with_optimize hmodules] at hcode hcode'
  rw [Compiled.functions, Compiled.functions, show optimized.code = _ from hcode,
    show plain.code = _ from hcode']
  cases hroot : v.root? template with
  | none => rfl
  | some root =>
    obtain ⟨hclean, hclean'⟩ := clean_of_errors_eq_nil
      (v := { v with optimize := some true }) hmodules hsize hclean
      ((root?_with_optimize hmodules true template).trans hroot)
    exact render_optimize_eq (inert_override_web hmodules hkeys) (root_grown hmodules hroot).1
      hclean hclean' hclean'.means hclean.means data

/-- The sample renders alike whether a part of it is hoisted or not. -/
theorem compile_optimize_eq_sample :
    (Compiler.web.compile { optimize := some true } sampleBlock).code.statics.length = 1 ∧
      ∀ data, (Compiler.web.compile { optimize := some true } sampleBlock).functions.render data =
        (Compiler.web.compile { optimize := some false } sampleBlock).functions.render data := by
  have hsize : Text.extent sampleBlock.toList ≤ Json.maxSignificand := by decide +kernel
  obtain ⟨herrors, hlength⟩ :
      (Compiler.web.compile { optimize := some true } sampleBlock).errors = [] ∧
        (Compiler.web.compile { optimize := some true } sampleBlock).code.statics.length = 1 := by
    decide +kernel
  exact ⟨hlength, (compile_optimize_eq (v := {}) rfl rfl rfl hsize).2.2 herrors⟩

end

end HtmlTemplate.Template
