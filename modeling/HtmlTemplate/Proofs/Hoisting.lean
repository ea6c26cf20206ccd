import HtmlTemplate.Proofs.Marks
import HtmlTemplate.Template.Module

/-!
# What is hoisted

The search for static subtrees makes static roots that hold no other static roots
(`hoisted_optimize`). With the static keys of the web no expression of the template stands in them
(`constant_optimize`). Every static body is the body of a static root for which there is code
(`exists_root_of_mem_statics`), so there are no more static bodies than elements.
-/

namespace HtmlTemplate.Template

open HtmlTemplate.Code (Expr)

/-- No static root stands in another. -/
def Node.Hoisted (n : Node) : Prop :=
  ∀ r ∈ n.elements, r.head.isStaticRoot = true → Rootless (elementsAll r.children)

/-- No expression of the template stands in a static root. -/
def Node.Constant (n : Node) : Prop :=
  ∀ r ∈ n.elements, r.head.isStaticRoot = true →
    r.toNode.spliced = [] ∧ r.toNode.supplied = []

theorem Node.hoisted_of_rootless {n : Node} (h : Rootless n.elements) : n.Hoisted := by
  intro r hr hroot
  rw [h r hr] at hroot
  cases hroot

theorem Node.constant_of_rootless {n : Node} (h : Rootless n.elements) : n.Constant := by
  intro r hr hroot
  rw [h r hr] at hroot
  cases hroot

/-! ### Where static roots come from -/

theorem mem_elements_trans {n : Node} {r e : Element} (hr : r ∈ n.elements)
    (he : e ∈ elementsAll r.children) : e ∈ n.elements := by
  induction n using Node.induction with
  | text run => cases hr
  | comment content span => cases hr
  | element head children ih =>
    rcases List.mem_cons.1 hr with rfl | hr
    · exact List.mem_cons_of_mem _ he
    · obtain ⟨m, hm, hr⟩ := mem_elementsAll.1 hr
      exact mem_elements_children hm (ih m hm hr)

theorem rootless_withStatic (keys : List String) {n : Node} (h : Rootless n.elements) :
    Rootless (n.withStatic keys).elements := by
  induction n using Node.induction with
  | text run => exact h
  | comment content span => exact h
  | element head children ih =>
    intro e he
    rw [Node.withStatic, Node.elements, withStaticAll_eq_map] at he
    rcases List.mem_cons.1 he with rfl | he
    · exact h ⟨head, children⟩ List.mem_cons_self
    · obtain ⟨m, hm, he⟩ := mem_elementsAll.1 he
      rcases List.mem_map.1 hm with ⟨n, hn, rfl⟩
      exact ih n hn (fun e he => h e (mem_elements_children hn he)) e he

/-- A static root is a static element of the tree before. -/
theorem exists_static_of_root {n : Node} (h : Rootless n.elements) {r : Element}
    (hr : r ∈ n.withRoots.elements) (hroot : r.head.isStaticRoot = true) :
    ∃ e ∈ n.elements, e.head.isStatic = true ∧
      r = ⟨{ e.head with isStaticRoot := true }, e.children⟩ := by
  induction n using Node.induction with
  | text run => cases hr
  | comment content span => cases hr
  | element head children ih =>
    rw [Node.withRoots] at hr
    split at hr
    · next hstatic =>
      rcases List.mem_cons.1 hr with rfl | hr
      · refine ⟨⟨head, children⟩, List.mem_cons_self, ?_, rfl⟩
        simp only [Bool.and_eq_true] at hstatic
        exact hstatic.1
      · rw [h r (List.mem_cons_of_mem _ hr)] at hroot
        cases hroot
    · rcases List.mem_cons.1 hr with rfl | hr
      · cases hroot
      · rw [withRootsAll_eq_map] at hr
        obtain ⟨m, hm, hr⟩ := mem_elementsAll.1 hr
        rcases List.mem_map.1 hm with ⟨n, hn, rfl⟩
        obtain ⟨e, he, hfound⟩ := ih n hn (fun e he => h e (mem_elements_children hn he)) hr
        exact ⟨e, mem_elements_children hn he, hfound⟩

theorem hoisted_optimize (keys : List String) {e : Element} (h : Rootless e.toNode.elements) :
    (e.optimize keys).toNode.Hoisted := by
  rw [Element.toNode_optimize]
  have hrootless := rootless_withStatic keys h
  intro r hr hroot
  obtain ⟨f, hf, -, rfl⟩ := exists_static_of_root hrootless hr hroot
  intro e he
  exact hrootless e (mem_elements_trans hf he)

/-! ### What is static with the keys of the web -/

/-- Static keys that leave out every feature with an expression of the template. -/
def Inert (keys : List String) : Prop :=
  "bindings" ∉ keys ∧ "if" ∉ keys ∧ "directives" ∉ keys

theorem Head.mem_keys_of_allowsStatic {keys : List String} {head : Head}
    (h : head.allowsStatic keys = true) : ∀ feature ∈ head.features, feature ∈ keys := by
  simp only [allowsStatic, Bool.and_eq_true, List.all_eq_true, List.contains_iff_mem] at h
  exact h.2

theorem Head.condition_of_allowsStatic {keys : List String} (hkeys : "if" ∉ keys) {head : Head}
    (h : head.allowsStatic keys = true) : head.condition = none := by
  by_contra hne
  exact hkeys (mem_keys_of_allowsStatic h "if" (by simp [features, hne]))

theorem Head.inert_of_allowsStatic {keys : List String} (hkeys : Inert keys) {head : Head}
    (h : head.allowsStatic keys = true) :
    head.bindings = [] ∧ head.condition = none ∧ head.directives = [] := by
  rcases hkeys with ⟨hbindings, hif, hdirectives⟩
  have hfeatures := mem_keys_of_allowsStatic h
  refine ⟨?_, condition_of_allowsStatic hif h, ?_⟩
  · by_contra hne
    exact hbindings (hfeatures "bindings" (by simp [features, hne]))
  · by_contra hne
    exact hdirectives (hfeatures "directives" (by simp [features, hne]))

/-- No expression of the template stands in what is static. -/
theorem Node.constant_of_isStatic {keys : List String} (hkeys : Inert keys) {n : Node}
    (h : (n.withStatic keys).isStatic = true) : n.spliced = [] ∧ n.supplied = [] := by
  induction n using Node.induction with
  | comment content span => exact ⟨rfl, rfl⟩
  | text run =>
    have hfixed : ∀ p ∈ run.parts, p.isFixed = true := List.all_eq_true.1 h
    constructor
    · simp only [spliced, generated, ownSpliced, List.flatMap_cons, List.flatMap_nil,
        List.append_nil, List.flatMap_eq_nil_iff]
      intro p hp
      cases p with
      | fixed text => rfl
      | expression code => exact absurd (hfixed _ hp) (by simp [Part.isFixed])
    · rfl
  | element head children ih =>
    rw [withStatic, isStatic, withStaticAll_eq_map, List.all_map] at h
    simp only [Bool.and_eq_true, List.all_eq_true, Function.comp_apply] at h
    obtain ⟨hbindings, hcondition, hdirectives⟩ := Head.inert_of_allowsStatic hkeys h.1
    have hspliced : head.spliced = [] := by
      simp [Head.spliced, Head.binding?, hbindings, hcondition]
    have hsupplier : head.supplier? = none := by simp [Head.supplier?, hdirectives]
    have hchildren : children.flatMap Node.spliced = [] :=
      List.flatMap_eq_nil_iff.2 fun n hn => (ih n hn (h.2 n hn)).1
    have hsupplied : children.flatMap Node.supplied = [] :=
      List.flatMap_eq_nil_iff.2 fun n hn => (ih n hn (h.2 n hn)).2
    constructor
    · simp [spliced_element, hspliced, hchildren]
    · simp [supplied_element, hsupplier, hsupplied]

theorem exists_of_mem_elements_withStatic {keys : List String} {n : Node} {e : Element}
    (h : e ∈ (n.withStatic keys).elements) : ∃ m : Node, e.toNode = m.withStatic keys := by
  induction n using Node.induction with
  | text run => cases h
  | comment content span => cases h
  | element head children ih =>
    rw [Node.withStatic, Node.elements, withStaticAll_eq_map] at h
    rcases List.mem_cons.1 h with rfl | h
    · refine ⟨.element head children, ?_⟩
      rw [Node.withStatic, withStaticAll_eq_map]
      rfl
    · obtain ⟨m, hm, h⟩ := mem_elementsAll.1 h
      rcases List.mem_map.1 hm with ⟨n, hn, rfl⟩
      exact ih n hn h

theorem constant_optimize {keys : List String} (hkeys : Inert keys) {e : Element}
    (h : Rootless e.toNode.elements) : (e.optimize keys).toNode.Constant := by
  rw [Element.toNode_optimize]
  intro r hr hroot
  obtain ⟨f, hf, hstatic, rfl⟩ := exists_static_of_root (rootless_withStatic keys h) hr hroot
  obtain ⟨m, hm⟩ := exists_of_mem_elements_withStatic hf
  have hunmark : (Element.mk { f.head with isStaticRoot := true } f.children).toNode.unmark =
      m.unmark := by
    rw [← m.unmark_withStatic keys, ← hm]
    rfl
  have hmstatic : (m.withStatic keys).isStatic = true := by
    rw [← hm]
    exact hstatic
  obtain ⟨hspliced, hsupplied⟩ := Node.constant_of_isStatic hkeys hmstatic
  constructor
  · rw [← Node.spliced_unmark, hunmark, Node.spliced_unmark, hspliced]
  · rw [← Node.supplied_unmark, hunmark, Node.supplied_unmark, hsupplied]

/-- Without the key for conditions a static root has none. -/
theorem condition_of_static_root {keys : List String} (hkeys : "if" ∉ keys) {e : Element}
    (h : Rootless e.toNode.elements) {r : Element} (hr : r ∈ (e.optimize keys).toNode.elements)
    (hroot : r.head.isStaticRoot = true) : r.head.condition = none := by
  rw [Element.toNode_optimize] at hr
  obtain ⟨f, hf, hstatic, rfl⟩ := exists_static_of_root (rootless_withStatic keys h) hr hroot
  obtain ⟨m, hm⟩ := exists_of_mem_elements_withStatic hf
  cases m with
  | text run => cases hm
  | comment content span => cases hm
  | element head children =>
    obtain ⟨hhead, -⟩ := Node.element.inj hm
    rw [hhead] at hstatic ⊢
    exact Head.condition_of_allowsStatic hkeys (Bool.and_eq_true_iff.1 hstatic).1

/-! ### Static bodies -/

theorem mem_generated_trans {n m l : Node} (hm : m ∈ n.generated) (hl : l ∈ m.generated) :
    l ∈ n.generated := by
  induction n using Node.induction with
  | text run =>
    rw [List.mem_singleton.1 hm] at hl
    exact hl
  | comment content span =>
    rw [List.mem_singleton.1 hm] at hl
    exact hl
  | element head children ih =>
    rw [Node.generated] at hm
    rcases List.mem_cons.1 hm with rfl | hm
    · exact hl
    · split at hm
      · next hkeeps =>
        rw [generatedAll_eq] at hm
        rcases List.mem_flatMap.1 hm with ⟨n, hn, hm⟩
        exact mem_generated_children hkeeps hn (ih n hn hm)
      · cases hm

theorem spliced_subset_of_generated {n m : Node} (hm : m ∈ n.generated) :
    m.spliced ⊆ n.spliced := by
  intro u hu
  rcases List.mem_flatMap.1 hu with ⟨l, hl, hu⟩
  exact List.mem_flatMap.2 ⟨l, mem_generated_trans hm hl, hu⟩

theorem supplied_subset_of_generated {n m : Node} (hm : m ∈ n.generated) :
    m.supplied ⊆ n.supplied := by
  intro u hu
  rcases List.mem_flatMap.1 hu with ⟨l, hl, hu⟩
  exact List.mem_flatMap.2 ⟨l, mem_generated_trans hm hl, hu⟩

theorem mem_elements_of_generated {n : Node} {e : Element} (h : e.toNode ∈ n.generated) :
    e ∈ n.elements := by
  induction n using Node.induction with
  | text run => cases List.mem_singleton.1 h
  | comment content span => cases List.mem_singleton.1 h
  | element head children ih =>
    rw [Node.generated] at h
    rcases List.mem_cons.1 h with heq | h
    · cases heq
      exact List.mem_cons_self
    · split at h
      · rw [generatedAll_eq] at h
        rcases List.mem_flatMap.1 h with ⟨n, hn, h⟩
        exact mem_elements_children hn (ih n hn h)
      · cases h

theorem height_le_of_generated {n m : Node} (h : m ∈ n.generated) : m.height ≤ n.height := by
  induction n using Node.induction with
  | text run => exact Nat.le_of_eq (congrArg Node.height (List.mem_singleton.1 h))
  | comment content span => exact Nat.le_of_eq (congrArg Node.height (List.mem_singleton.1 h))
  | element head children ih =>
    rw [Node.generated] at h
    rcases List.mem_cons.1 h with rfl | h
    · exact Nat.le_refl _
    · split at h
      · rw [generatedAll_eq] at h
        rcases List.mem_flatMap.1 h with ⟨n, hn, h⟩
        have hm := ih n hn h
        have hn := height_le_heightAll hn
        rw [Node.height]
        omega
      · cases h

theorem Head.mem_statics_wrapIntent {head : Head} {first : Nat} {body : Intent} {e : Expr}
    (h : e ∈ (head.wrapIntent first body).statics) :
    e ∈ body.statics ∨ head.isStaticRoot = true ∧ e = body.main := by
  cases hroot : head.isStaticRoot with
  | false =>
    rw [statics_wrapIntent hroot] at h
    exact .inl h
  | true =>
    rw [wrapIntent, if_pos hroot] at h
    rcases List.mem_append.1 h with h | h
    · exact .inl h
    · exact .inr ⟨rfl, List.mem_singleton.1 h⟩

theorem mem_statics_intentAll {nodes : List Node} {first : Nat} {e : Expr}
    (h : e ∈ (intentAll first nodes).2) : ∃ n ∈ nodes, ∃ first, e ∈ (n.intent first).statics := by
  induction nodes generalizing first with
  | nil => cases h
  | cons n nodes ih =>
    rw [intentAll] at h
    rcases List.mem_append.1 h with h | h
    · exact ⟨n, List.mem_cons_self, first, h⟩
    · obtain ⟨m, hm, hfound⟩ := ih h
      exact ⟨m, List.mem_cons_of_mem _ hm, hfound⟩

/-- Every static body is that of a static root for which there is code. -/
theorem exists_root_of_mem_statics {n : Node} {first : Nat} {e : Expr}
    (h : e ∈ (n.intent first).statics) :
    ∃ r : Element, r.toNode ∈ n.generated ∧ r.head.isStaticRoot = true ∧
      ∃ first, e = (r.head.bodyIntent (intentAll first r.children)).main := by
  induction n using Node.induction generalizing first with
  | text run => cases h
  | comment content span => cases h
  | element head children ih =>
    rcases Head.mem_statics_wrapIntent h with h | ⟨hroot, rfl⟩
    · cases hkeeps : head.keepsChildren with
      | false =>
        rw [head.statics_bodyIntent_of_not_keeps hkeeps] at h
        cases h
      | true =>
        rw [head.statics_bodyIntent_of_keeps hkeeps] at h
        obtain ⟨n, hn, first, h⟩ := mem_statics_intentAll h
        obtain ⟨r, hr, hfound⟩ := ih n hn h
        exact ⟨r, mem_generated_children hkeeps hn hr, hfound⟩
    · exact ⟨⟨head, children⟩, List.mem_cons_self, hroot, first, rfl⟩

theorem length_statics_intentAll_le {nodes : List Node}
    (h : ∀ n ∈ nodes, ∀ first, (n.intent first).statics.length ≤ n.elements.length) (first : Nat) :
    (intentAll first nodes).2.length ≤ (elementsAll nodes).length := by
  induction nodes generalizing first with
  | nil => exact Nat.le_refl _
  | cons n nodes ih =>
    rw [intentAll, elementsAll, List.length_append, List.length_append]
    exact Nat.add_le_add (h n List.mem_cons_self first)
      (ih (fun m hm => h m (List.mem_cons_of_mem _ hm)) _)

/-- There are no more static bodies than elements. -/
theorem Node.length_statics_le (n : Node) (first : Nat) :
    (n.intent first).statics.length ≤ n.elements.length := by
  induction n using Node.induction generalizing first with
  | text run => exact Nat.le_refl _
  | comment content span => exact Nat.le_refl _
  | element head children ih =>
    have hchildren := length_statics_intentAll_le ih first
    have hbody : (head.bodyIntent (intentAll first children)).statics.length ≤
        (elementsAll children).length := by
      cases hkeeps : head.keepsChildren with
      | false =>
        rw [head.statics_bodyIntent_of_not_keeps hkeeps]
        exact Nat.zero_le _
      | true =>
        rw [head.statics_bodyIntent_of_keeps hkeeps]
        exact hchildren
    rw [intent, elements, List.length_cons]
    cases hroot : head.isStaticRoot with
    | false =>
      rw [Head.statics_wrapIntent hroot]
      omega
    | true =>
      rw [Head.wrapIntent, if_pos hroot, List.length_append, List.length_singleton]
      omega

end HtmlTemplate.Template
