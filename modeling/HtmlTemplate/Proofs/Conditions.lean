import HtmlTemplate.Proofs.Acceptance
import HtmlTemplate.Proofs.Structure

/-!
# Conditions of static roots

The code of an element asks for its condition, but a static root is called without being asked: its
condition does not come into the code (`Node.intent_release`). What procedures render is therefore
the tree without the conditions of its static roots, and it is the tree itself exactly if the
conditions of all static roots that rendering comes to hold (`conditions_hold_iff`). A static root
has a condition only if the caller lists conditions among what leaves an element static, which the
web by itself does not.
-/

namespace HtmlTemplate.Template

open HtmlTemplate.Code (Expr emptyNode)

/-! ### Texts that diverge -/

/-- Neither text begins the other. -/
def Diverge (s t : List Char) : Prop := ¬ s <+: t ∧ ¬ t <+: s

theorem Diverge.ne {s t : List Char} (h : Diverge s t) : s ≠ t := by
  rintro rfl
  exact h.1 (List.prefix_refl _)

theorem Diverge.append_left {s t : List Char} (h : Diverge s t) (before : List Char) :
    Diverge (before ++ s) (before ++ t) := by
  unfold Diverge
  rw [List.prefix_append_right_inj, List.prefix_append_right_inj]
  exact h

/-- What follows cannot bring texts together. -/
theorem Diverge.append_right {s t : List Char} (h : Diverge s t) (x y : List Char) :
    Diverge (s ++ x) (t ++ y) := by
  constructor
  · intro hprefix
    have hs : s <+: t ++ y := (List.prefix_append s x).trans hprefix
    exact (List.prefix_or_prefix_of_prefix hs (List.prefix_append t y)).elim h.1 h.2
  · intro hprefix
    have ht : t <+: s ++ x := (List.prefix_append t y).trans hprefix
    exact (List.prefix_or_prefix_of_prefix ht (List.prefix_append s x)).elim h.2 h.1

/-! ### The tree that is rendered -/

/-- The head of an element as its code has it: a static root is not asked for a condition. -/
def Head.release (head : Head) : Head :=
  { head with condition := if head.isStaticRoot then none else head.condition }

/-- The tree without the conditions of its static roots. -/
def Node.release (n : Node) : Node := n.mapHeads Head.release

namespace Head

variable {head : Head}

theorem wrapIntent_release (first : Nat) (body : Intent) :
    head.release.wrapIntent first body = head.wrapIntent first body := by
  unfold wrapIntent release
  cases head.isStaticRoot <;> rfl

theorem stands_release (data : Json.Value) :
    head.release.stands data = (head.isStaticRoot || head.stands data) := by
  unfold stands release
  cases head.isStaticRoot <;> rfl

theorem keepsChildren_release (head : Head) : head.release.keepsChildren = head.keepsChildren := rfl

theorem spliced_release_subset : head.release.spliced ⊆ head.spliced := by
  intro u hu
  rcases List.mem_append.1 hu with hu | hu
  · exact List.mem_append_left _ hu
  · apply List.mem_append_right
    unfold release at hu
    cases hroot : head.isStaticRoot with
    | true => simp [hroot] at hu
    | false => simpa [hroot] using hu

end Head

theorem intentAll_release {nodes : List Node}
    (h : ∀ n ∈ nodes, ∀ first, n.release.intent first = n.intent first) (first : Nat) :
    intentAll first (nodes.map Node.release) = intentAll first nodes := by
  induction nodes generalizing first with
  | nil => rfl
  | cons n nodes ih =>
    simp only [List.map_cons, intentAll, h n List.mem_cons_self first,
      ih fun m hm => h m (List.mem_cons_of_mem _ hm)]

namespace Node

theorem release_element (head : Head) (children : List Node) :
    (Node.element head children).release = .element head.release (children.map release) := by
  rw [release, mapHeads, mapHeadsAll_eq_map]
  rfl

/-- The conditions of static roots do not come into the code. -/
theorem intent_release (n : Node) (first : Nat) : n.release.intent first = n.intent first := by
  induction n using Node.induction generalizing first with
  | text run => rfl
  | comment content span => rfl
  | element head children ih =>
    rw [release_element, intent, intent, intentAll_release ih, Head.wrapIntent_release]
    rfl

theorem spliced_release_subset (n : Node) : n.release.spliced ⊆ n.spliced := by
  intro u hu
  rw [spliced, release, generated_mapHeads Head.keepsChildren_release, List.flatMap_map] at hu
  obtain ⟨m, hm, hu⟩ := List.mem_flatMap.1 hu
  refine List.mem_flatMap.2 ⟨m, hm, ?_⟩
  cases m with
  | element head children => exact Head.spliced_release_subset hu
  | text run => exact hu
  | comment content span => exact hu

theorem supplied_release (n : Node) : n.release.supplied = n.supplied := by
  have hsupplier : ∀ head : Head, head.release.supplier? = head.supplier? := fun _ => rfl
  exact supplied_mapHeads Head.keepsChildren_release hsupplier n

/-- In the released tree a static root has no condition, nor does it hold a static root. -/
theorem Hoisted.release {n : Node} (h : n.Hoisted) :
    ∀ r ∈ n.release.elements, r.head.isStaticRoot = true →
      r.head.condition = none ∧ Rootless (elementsAll r.children) := by
  rw [Node.release, elements_mapHeads, List.forall_mem_map]
  intro e he hroot
  refine ⟨if_pos hroot, ?_⟩
  intro inner hinner
  rw [mapHeadsAll_eq_map] at hinner
  obtain ⟨m, hm, hinner⟩ := mem_elementsAll.1 hinner
  obtain ⟨k, hk, rfl⟩ := List.mem_map.1 hm
  rw [elements_mapHeads] at hinner
  obtain ⟨f, hf, rfl⟩ := List.mem_map.1 hinner
  exact h e he hroot f (mem_elementsAll.2 ⟨k, hk, hf⟩)

/-- If all code of a clean tree gives procedures, they render the released tree. -/
theorem Clean.render_release {n : Node} (h : n.Clean) {code : Code}
    (hmeans : code.Means (n.intent 0))
    (hbuilt : Code.failedPieces Code.interpret code.main code.statics = []) (data : Json.Value) :
    (Code.buildFunctions Code.interpret code.main code.statics).render data =
      .ok (n.release.render data) := by
  have hinterpret := Code.failedPieces_eq_nil_iff.1 hbuilt
  obtain ⟨hmain, hstatics⟩ := (Code.forall_interpret_iff hmeans.main hmeans.statics).1 hinterpret
  have hvalues := ((h.forall_interpret_iff hmeans).1 hinterpret).values
  apply hmeans.render_of_evaluates hmain hstatics
  intro callStatic hruns
  rw [← n.intent_release] at hruns ⊢
  refine Node.evaluates_intent ?_ ?_ (Hoisted.release h.hoisted) hruns
  · intro u hu
    exact h.spliced u (n.spliced_release_subset hu)
  · intro u hu
    rw [supplied_release] at hu
    exact (h.supplied u hu).resolve_left (by simp [hvalues u hu])

end Node

/-! ### When the two trees look alike -/

section

variable (data : Json.Value)

mutual

/-- The elements that rendering comes to, in order: it goes on into an element only if the element
stands and there is code for its children. -/
def Node.reached : Node → List Element
  | .element head children =>
    ⟨head, children⟩ ::
      if head.stands data && head.keepsChildren then reachedAll children else []
  | .text _ => []
  | .comment .. => []

def reachedAll : List Node → List Element
  | [] => []
  | node :: rest => node.reached ++ reachedAll rest

end

/-- Every static root that rendering comes to stands. -/
def Node.RootsStand (n : Node) : Prop :=
  ∀ e ∈ n.reached data, e.head.isStaticRoot = true → e.head.stands data = true

end

theorem mem_reachedAll {data : Json.Value} {nodes : List Node} {e : Element} :
    e ∈ reachedAll data nodes ↔ ∃ n ∈ nodes, e ∈ n.reached data := by
  induction nodes with
  | nil => simp [reachedAll]
  | cons n nodes ih => simp [reachedAll, ih]

theorem mem_elements_of_reached {data : Json.Value} {n : Node} {e : Element}
    (h : e ∈ n.reached data) : e ∈ n.elements := by
  induction n using Node.induction with
  | text run => cases h
  | comment content span => cases h
  | element head children ih =>
    rw [Node.reached] at h
    rcases List.mem_cons.1 h with rfl | h
    · exact List.mem_cons_self
    · split at h
      · obtain ⟨n, hn, h⟩ := mem_reachedAll.1 h
        exact mem_elements_children hn (ih n hn h)
      · cases h

theorem Node.rootsStand_element {data : Json.Value} {head : Head} {children : List Node} :
    (Node.element head children).RootsStand data ↔
      (head.isStaticRoot = true → head.stands data = true) ∧
        (head.stands data = true → head.keepsChildren = true →
          ∀ n ∈ children, n.RootsStand data) := by
  unfold RootsStand
  rw [reached, List.forall_mem_cons]
  refine and_congr_right fun _ => ?_
  rw [← and_imp, ← Bool.and_eq_true_iff]
  split
  · next hboth =>
    simp only [mem_reachedAll, hboth, forall_const]
    exact ⟨fun h n hn e he => h e ⟨n, hn, he⟩, fun h e ⟨n, hn, he⟩ => h n hn e he⟩
  · next hboth => simp [hboth]

/-- An element without code for its children looks alike whatever they are. -/
theorem Head.html_of_not_keeps {data : Json.Value} {head : Head} (h : head.keepsChildren = false)
    (content content' : String) : head.html data content = head.html data content' := by
  unfold html
  cases hs : head.supplier? with
  | some d => rfl
  | none =>
    have hunary : head.unary = true := by simpa [keepsChildren, hs] using h
    simp [hunary]

theorem Head.html_of_keeps {data : Json.Value} {head : Head} (h : head.keepsChildren = true)
    (content : String) : head.html data content = head.startTag data ++ content ++ head.endTag := by
  obtain ⟨hs, hunary⟩ : head.supplier? = none ∧ head.unary = false := by
    simpa [keepsChildren] using h
  simp [html, hs, hunary]

/-- As long as static roots stand, their conditions do not show. -/
theorem Node.render_release_of_rootsStand {data : Json.Value} {n : Node} (h : n.RootsStand data) :
    n.release.render data = n.render data := by
  induction n using Node.induction with
  | text run => rfl
  | comment content span => rfl
  | element head children ih =>
    obtain ⟨hroot, hchildren⟩ := rootsStand_element.1 h
    rw [release_element, render, render, Head.stands_release]
    cases hstands : head.stands data with
    | false =>
      have hplain : head.isStaticRoot = false := by simpa [hstands] using hroot
      simp [hplain]
    | true =>
      simp only [Bool.or_true, if_true]
      -- with another condition an element that stands looks alike
      change head.html data _ = head.html data _
      cases hkeeps : head.keepsChildren with
      | false => exact Head.html_of_not_keeps hkeeps _ _
      | true =>
        rw [renderAll_eq_map, renderAll_eq_map, List.map_map]
        congr 2
        exact List.map_congr_left fun n hn => ih n hn (hchildren hstands hkeeps n hn)

theorem Head.exists_html_eq (data : Json.Value) (head : Head) (content : String) :
    ∃ after, head.html data content = "<" ++ head.name ++ after := by
  unfold html startTag
  simp only [String.append_assoc]
  split
  · exact ⟨_, rfl⟩
  · split
    · exact ⟨_, rfl⟩
    · exact ⟨_, rfl⟩

/-- A start tag cannot be taken for the empty node in place of an element. -/
theorem Head.diverge_html {data : Json.Value} {head : Head}
    (hname : Markup.isQualifiedName head.name.toList = true) (content : String) :
    Diverge (head.html data content).toList emptyNode.toList := by
  obtain ⟨c, rest, hc, hstart⟩ := Markup.exists_cons_of_isQualifiedName hname
  obtain ⟨after, hafter⟩ := head.exists_html_eq data content
  have hmark : c ≠ '!' := by
    rintro rfl
    exact absurd hstart (by decide)
  have hopening : (head.html data content).toList = '<' :: c :: (rest ++ after.toList) := by
    rw [hafter, String.toList_append, String.toList_append, hc]
    rfl
  have hempty : emptyNode.toList = '<' :: '!' :: "---->".toList := by decide
  rw [hopening, hempty]
  constructor <;> simp [List.cons_prefix_cons, hmark, hmark.symm]

theorem diverge_renderAll {data : Json.Value} {nodes : List Node}
    (h : ∀ n ∈ nodes, ¬ n.RootsStand data →
      Diverge (n.release.render data).toList (n.render data).toList)
    (hfails : ∃ n ∈ nodes, ¬ n.RootsStand data) :
    Diverge (String.join (renderAll data (nodes.map Node.release))).toList
      (String.join (renderAll data nodes)).toList := by
  induction nodes with
  | nil => simp at hfails
  | cons n nodes ih =>
    obtain ⟨hn, hnodes⟩ := List.forall_mem_cons.1 h
    simp only [List.map_cons, renderAll, String.join_cons, String.toList_append]
    by_cases hstands : n.RootsStand data
    · rw [Node.render_release_of_rootsStand hstands]
      obtain ⟨m, hm, hfail⟩ := hfails
      rcases List.mem_cons.1 hm with rfl | hm
      · exact absurd hstands hfail
      · exact (ih hnodes ⟨m, hm, hfail⟩).append_left _
    · exact (hn hstands).append_right _ _

/-- A static root that does not stand is seen: nothing before it is different, and it begins with
another mark than the empty node that should be there. -/
theorem Node.diverge_render {data : Json.Value} {n : Node}
    (hnames : ∀ e ∈ n.elements, Markup.isQualifiedName e.head.name.toList = true)
    (h : ¬ n.RootsStand data) : Diverge (n.release.render data).toList (n.render data).toList := by
  induction n using Node.induction with
  | text run => exact absurd (by simp [RootsStand, reached]) h
  | comment content span => exact absurd (by simp [RootsStand, reached]) h
  | element head children ih =>
    rw [rootsStand_element, Classical.not_and_iff_not_or_not] at h
    rw [release_element, render, render, Head.stands_release]
    rcases h with h | h
    · simp only [Classical.not_imp, Bool.not_eq_true] at h
      rw [h.1, h.2]
      exact Head.diverge_html (hnames ⟨head, children⟩ List.mem_cons_self) _
    · simp only [Classical.not_imp, not_forall] at h
      obtain ⟨hstands, hkeeps, hfails⟩ := h
      have hchildren := diverge_renderAll (fun n hn => ih n hn fun e he =>
        hnames e (mem_elements_children hn he)) hfails
      rw [hstands, Bool.or_true, if_pos rfl, if_pos rfl]
      change Diverge (head.html data _).toList _
      rw [Head.html_of_keeps hkeeps, Head.html_of_keeps hkeeps]
      simp only [String.toList_append]
      exact (hchildren.append_left _).append_right _ _

theorem Node.render_release_iff {data : Json.Value} {n : Node}
    (hnames : ∀ e ∈ n.elements, Markup.isQualifiedName e.head.name.toList = true) :
    n.release.render data = n.render data ↔ n.RootsStand data := by
  refine ⟨?_, Node.render_release_of_rootsStand⟩
  intro hsame
  by_contra hfails
  exact (Node.diverge_render hnames hfails).ne (congrArg String.toList hsame)

theorem Node.rootsStand_of_condition {data : Json.Value} {n : Node}
    (h : ∀ e ∈ n.elements, e.head.isStaticRoot = true → e.head.condition = none) :
    n.RootsStand data := by
  intro e he hroot
  rw [Head.stands, h e (mem_elements_of_reached he) hroot]

/-! ### What a compile renders -/

theorem Overrides.condition_of_finish {v : Overrides} {root : Element}
    (hrootless : Rootless root.toNode.elements)
    (hkeys : (Options.web.override v).optimize = false ∨
      "if" ∉ (Options.web.override v).effectiveStaticKeys) :
    ∀ e ∈ (v.finish root).toNode.elements, e.head.isStaticRoot = true →
      e.head.condition = none := by
  unfold finish
  split
  · next hoptimize =>
    intro e he hroot
    exact condition_of_static_root (hkeys.resolve_left (by simp [hoptimize])) hrootless he hroot
  · intro e he hroot
    rw [hrootless e he] at hroot
    cases hroot

/-- Procedures render the tree without the conditions of its static roots. So they render the tree,
each element only where its condition holds, exactly if all static roots that rendering comes to
stand; that is so under any data if static subtrees are not looked for or conditions are not among
what leaves an element static. All code gives procedures, an element `p` may be left open, as on the
web, and the number of bytes in a text fits 64 bits. -/
theorem conditions_hold_iff {v : Overrides} (hmodules : v.modules = [])
    (hdirectives : v.directives = [])
    (hparagraphs : (Options.web.override v).mayBeLeftOpen "p" = true) {template : String}
    (hsize : Text.extent template.toList ≤ Json.maxSignificand)
    (herrors : (Compiler.web.compile v template).errors = [])
    (hbuilt : (Compiler.web.compile v template).failed = []) {root : Element}
    (hroot : (Compiler.web.compile v template).tree = some root) :
    let render := (Compiler.web.compile v template).functions.render
    (∀ data, render data = .ok (root.toNode.release.render data)) ∧
      (∀ data, render data = .ok (root.toNode.render data) ↔
        ∀ e ∈ root.toNode.reached data, e.head.isStaticRoot = true →
          e.head.stands data = true) ∧
      ((Options.web.override v).optimize = false ∨
          "if" ∉ (Options.web.override v).effectiveStaticKeys →
        ∀ data, render data = .ok (root.toNode.render data)) := by
  intro render
  have hread := Overrides.read_compiled hmodules hparagraphs herrors hroot
  have hnames : ∀ e ∈ root.toNode.elements, Markup.isQualifiedName e.head.name.toList = true :=
    fun e he => (hread e he).head.qualified
  rw [compile_tree] at hroot
  obtain ⟨grown, hgrown, rfl⟩ := Option.map_eq_some_iff.1 hroot
  have hreleased : ∀ data, render data = .ok ((v.finish grown).toNode.release.render data) := by
    intro data
    have hcode := compile_code hdirectives template
    rw [hgrown] at hcode
    have hclean := (clean_of_errors_eq_nil hmodules hsize herrors hgrown).2
    unfold render
    rw [Compiled.failed, hcode] at hbuilt
    rw [Compiled.functions, hcode]
    exact hclean.render_release hclean.means hbuilt data
  refine ⟨hreleased, ?_, ?_⟩
  · intro data
    rw [hreleased, Except.ok.injEq]
    exact Node.render_release_iff hnames
  · intro hkeys data
    have hrootless := rootless_of_grown (root_grown hmodules hgrown).1
    have hconditions := Overrides.condition_of_finish hrootless hkeys
    rw [hreleased, Node.render_release_of_rootsStand (Node.rootsStand_of_condition hconditions)]

/-- An element with a condition in an element with another, both with enough in them. -/
def sampleConditions : String := "<div v-if=\"a\"><p v-if=\"b\"><b>x</b></p></div>"

/-- With conditions among the static keys the outer element is a static root, and the inner one is
in its body: only the condition of the inner one is asked for. -/
theorem conditions_hold_iff_sample :
    let compiled := Compiler.web.compile { staticKeys := some ["tag", "children", "if"] }
      sampleConditions
    compiled.errors = [] ∧ compiled.failed = [] ∧ ∃ root, compiled.tree = some root ∧
      ∀ data, (compiled.functions.render data = .ok (root.toNode.render data) ↔
        (evaluate data "a").isTrue = true) := by
  intro compiled
  have hsize : Text.extent sampleConditions.toList ≤ Json.maxSignificand := by decide +kernel
  obtain ⟨herrors, hbuilt, hsome⟩ : compiled.errors = [] ∧ compiled.failed = [] ∧
      compiled.tree.isSome = true := by
    decide +kernel
  have hfacts : ∀ root ∈ compiled.tree,
      root.head.isStaticRoot = true ∧ root.head.condition = some "a" ∧
        ∀ e ∈ root.toNode.elements, e.head.isStaticRoot = true →
          e.head.condition = some "a" := by
    decide +kernel
  obtain ⟨root, hroot⟩ := Option.isSome_iff_exists.1 hsome
  obtain ⟨hstatic, hcondition, honly⟩ := hfacts root hroot
  have hstands : ∀ {data} {head : Head}, head.condition = some "a" →
      head.stands data = (evaluate data "a").isTrue := by
    intro data head hcondition
    rw [Head.stands, hcondition]
  refine ⟨herrors, hbuilt, root, hroot, fun data => ?_⟩
  rw [(conditions_hold_iff rfl rfl rfl hsize herrors hbuilt hroot).2.1]
  constructor
  · intro h
    rw [← hstands hcondition]
    exact h root List.mem_cons_self hstatic
  · intro h e he heroot
    rw [hstands (honly e (mem_elements_of_reached he) heroot), h]

/-- The condition of a static root is not asked for: what does not stand is rendered. -/
theorem not_conditions_hold_static_root :
    let compiled := Compiler.web.compile { staticKeys := some ["tag", "children", "if"] }
      "<div v-if=\"no\"><b>x</b></div>"
    let data : Json.Value := .object [("no", .bool false)]
    compiled.errors = [] ∧ compiled.failed = [] ∧
      (compiled.tree.map fun root => (root.head.condition, root.head.stands data)) =
        some (some "no", false) ∧
      (compiled.tree.map fun root => root.toNode.render data) = some "<!---->" ∧
      compiled.functions.render data = .ok "<div><b>x</b></div>" := by
  decide +kernel

end HtmlTemplate.Template
