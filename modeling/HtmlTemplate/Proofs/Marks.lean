import HtmlTemplate.Proofs.Nesting
import HtmlTemplate.Proofs.Rendering
import HtmlTemplate.Template.Static

/-!
# Marks and what does not depend on them

The search for static subtrees changes nothing in a tree but the marks of its elements
(`Element.unmark_optimize`). What the tree looks like, how high it is, how many elements it has,
which expressions stand in its code and what is to be said about them can all be told from the tree
without its marks.
-/

namespace HtmlTemplate.Template

/-! ### Other heads in the same tree -/

mutual

/-- The tree with another head for each element. -/
def Node.mapHeads (f : Head → Head) : Node → Node
  | .element head children => .element (f head) (mapHeadsAll f children)
  | .text run => .text run
  | .comment content span => .comment content span

def mapHeadsAll (f : Head → Head) : List Node → List Node
  | [] => []
  | node :: rest => node.mapHeads f :: mapHeadsAll f rest

end

section

variable (f : Head → Head)

theorem mapHeadsAll_eq_map (nodes : List Node) :
    mapHeadsAll f nodes = nodes.map (Node.mapHeads f) := by
  induction nodes with
  | nil => rfl
  | cons n nodes ih => rw [mapHeadsAll, ih, List.map_cons]

theorem Node.elements_mapHeads (n : Node) :
    (n.mapHeads f).elements = n.elements.map fun e => ⟨f e.head, mapHeadsAll f e.children⟩ := by
  induction n using Node.induction with
  | text run => rfl
  | comment content span => rfl
  | element head children ih =>
    rw [mapHeads, elements, elements, List.map_cons, elementsAll_eq, elementsAll_eq,
      mapHeadsAll_eq_map, List.flatMap_map, List.map_flatMap]
    congr 1
    rw [List.flatMap_def, List.flatMap_def]
    exact congrArg List.flatten (List.map_congr_left ih)

/-- There is code for the same nodes as long as every head keeps its children as before. -/
theorem Node.generated_mapHeads {f : Head → Head}
    (h : ∀ head, (f head).keepsChildren = head.keepsChildren) (n : Node) :
    (n.mapHeads f).generated = n.generated.map (mapHeads f) := by
  induction n using Node.induction with
  | text run => rfl
  | comment content span => rfl
  | element head children ih =>
    rw [mapHeads, generated, generated, h, List.map_cons, mapHeads]
    congr 1
    split
    · rw [generatedAll_eq, generatedAll_eq, mapHeadsAll_eq_map, List.flatMap_map,
        List.map_flatMap, List.flatMap_def, List.flatMap_def]
      exact congrArg List.flatten (List.map_congr_left ih)
    · rfl

theorem Node.supplied_mapHeads {f : Head → Head}
    (hkeeps : ∀ head, (f head).keepsChildren = head.keepsChildren)
    (hsupplier : ∀ head, (f head).supplier? = head.supplier?) (n : Node) :
    (n.mapHeads f).supplied = n.supplied := by
  rw [supplied, generated_mapHeads hkeeps, List.flatMap_map]
  congr 1
  funext m
  cases m with
  | element head children => simp only [mapHeads, ownSupplied, hsupplier]
  | text run => rfl
  | comment content span => rfl

end

/-! ### Trees without marks -/

/-- The head without marks. -/
def Head.unmark (head : Head) : Head := { head with isStatic := false, isStaticRoot := false }

theorem Head.keepsChildren_unmark (head : Head) :
    head.unmark.keepsChildren = head.keepsChildren := rfl

mutual

/-- The tree without marks. -/
def Node.unmark : Node → Node
  | .element head children => .element head.unmark (unmarkAll children)
  | .text run => .text run
  | .comment content span => .comment content span

def unmarkAll : List Node → List Node
  | [] => []
  | node :: rest => node.unmark :: unmarkAll rest

end

theorem unmarkAll_eq_map (nodes : List Node) : unmarkAll nodes = nodes.map Node.unmark := by
  induction nodes with
  | nil => rfl
  | cons n nodes ih => rw [unmarkAll, ih, List.map_cons]

theorem Node.unmark_eq_mapHeads (n : Node) : n.unmark = n.mapHeads Head.unmark := by
  induction n using Node.induction with
  | text run => rfl
  | comment content span => rfl
  | element head children ih =>
    rw [unmark, mapHeads, unmarkAll_eq_map, mapHeadsAll_eq_map, List.map_congr_left ih]

theorem unmarkAll_eq_mapHeadsAll (nodes : List Node) :
    unmarkAll nodes = mapHeadsAll Head.unmark nodes := by
  rw [unmarkAll_eq_map, mapHeadsAll_eq_map]
  exact List.map_congr_left fun n _ => n.unmark_eq_mapHeads

theorem withStaticAll_eq_map (keys : List String) (nodes : List Node) :
    withStaticAll keys nodes = nodes.map (Node.withStatic keys) := by
  induction nodes with
  | nil => rfl
  | cons n nodes ih => rw [withStaticAll, ih, List.map_cons]

theorem withRootsAll_eq_map (nodes : List Node) :
    withRootsAll nodes = nodes.map Node.withRoots := by
  induction nodes with
  | nil => rfl
  | cons n nodes ih => rw [withRootsAll, ih, List.map_cons]

theorem renderAll_eq_map (data : Json.Value) (nodes : List Node) :
    renderAll data nodes = nodes.map (Node.render data) := by
  induction nodes with
  | nil => rfl
  | cons n nodes ih => rw [renderAll, ih, List.map_cons]

theorem checkAll_eq (nodes : List Node) : checkAll nodes = nodes.flatMap Node.check := by
  induction nodes with
  | nil => rfl
  | cons n nodes ih => rw [checkAll, ih, List.flatMap_cons]

namespace Node

theorem unmark_withStatic (keys : List String) (n : Node) :
    (n.withStatic keys).unmark = n.unmark := by
  induction n using Node.induction with
  | text run => rfl
  | comment content span => rfl
  | element head children ih =>
    rw [withStatic, unmark, unmark, withStaticAll_eq_map, unmarkAll_eq_map, unmarkAll_eq_map,
      List.map_map]
    exact congrArg (Node.element head.unmark) (List.map_congr_left ih)

theorem unmark_withRoots (n : Node) : n.withRoots.unmark = n.unmark := by
  induction n using Node.induction with
  | text run => rfl
  | comment content span => rfl
  | element head children ih =>
    rw [withRoots]
    split
    · rfl
    · rw [unmark, unmark, withRootsAll_eq_map, unmarkAll_eq_map, unmarkAll_eq_map, List.map_map]
      exact congrArg (Node.element head.unmark) (List.map_congr_left ih)

theorem unmark_of_unmarked {n : Node} (h : ∀ e ∈ n.elements, e.head.isStatic = false ∧
    e.head.isStaticRoot = false) : n.unmark = n := by
  induction n using Node.induction with
  | text run => rfl
  | comment content span => rfl
  | element head children ih =>
    obtain ⟨hstatic, hroot⟩ := h ⟨head, children⟩ List.mem_cons_self
    have hhead : head.unmark = head := by
      cases head
      cases hstatic
      cases hroot
      rfl
    have hchildren : children.map Node.unmark = children := by
      conv_rhs => rw [← List.map_id children]
      apply List.map_congr_left
      intro n hn
      exact ih n hn fun e he => h e (mem_elements_children hn he)
    rw [unmark, unmarkAll_eq_map, hhead, hchildren]

theorem elements_unmark (n : Node) :
    n.unmark.elements = n.elements.map fun e => ⟨e.head.unmark, unmarkAll e.children⟩ := by
  simp only [unmark_eq_mapHeads, unmarkAll_eq_mapHeadsAll, elements_mapHeads]

theorem height_unmark (n : Node) : n.unmark.height = n.height := by
  induction n using Node.induction with
  | text run => rfl
  | comment content span => rfl
  | element head children ih =>
    rw [unmark, height, height]
    congr 1
    apply Nat.le_antisymm
    · rw [heightAll_le_iff, unmarkAll_eq_map]
      intro n hn
      rcases List.mem_map.1 hn with ⟨m, hm, rfl⟩
      rw [ih m hm]
      exact height_le_heightAll hm
    · rw [heightAll_le_iff]
      intro n hn
      rw [← ih n hn, unmarkAll_eq_map]
      exact height_le_heightAll (List.mem_map_of_mem hn)

theorem generated_unmark (n : Node) : n.unmark.generated = n.generated.map Node.unmark := by
  rw [unmark_eq_mapHeads, generated_mapHeads Head.keepsChildren_unmark]
  exact List.map_congr_left fun m _ => m.unmark_eq_mapHeads.symm

theorem spliced_unmark (n : Node) : n.unmark.spliced = n.spliced := by
  rw [spliced, generated_unmark, List.flatMap_map]
  congr 1
  funext m
  cases m <;> rfl

theorem supplied_unmark (n : Node) : n.unmark.supplied = n.supplied := by
  have hsupplier : ∀ head : Head, head.unmark.supplier? = head.supplier? := fun _ => rfl
  rw [unmark_eq_mapHeads, supplied_mapHeads Head.keepsChildren_unmark hsupplier]

theorem render_unmark (data : Json.Value) (n : Node) : n.unmark.render data = n.render data := by
  induction n using Node.induction with
  | text run => rfl
  | comment content span => rfl
  | element head children ih =>
    have hchildren : renderAll data (unmarkAll children) = renderAll data children := by
      rw [renderAll_eq_map, renderAll_eq_map, unmarkAll_eq_map, List.map_map]
      exact List.map_congr_left ih
    rw [unmark, render, render, hchildren]
    rfl

theorem check_unmark (n : Node) : n.unmark.check = n.check := by
  induction n using Node.induction with
  | text run => rfl
  | comment content span => rfl
  | element head children ih =>
    have hhead : head.unmark.check = head.check := rfl
    rw [unmark, check, check, hhead, checkAll_eq, checkAll_eq, unmarkAll_eq_map, List.flatMap_map,
      List.flatMap_def, List.flatMap_def]
    exact congrArg (fun reports => head.check ++ reports.flatten) (List.map_congr_left ih)

end Node

/-- The tree after the search for static subtrees. -/
theorem Element.toNode_optimize (keys : List String) (e : Element) :
    (e.optimize keys).toNode = (e.toNode.withStatic keys).withRoots := by
  rw [optimize, toNode, toNode, Node.withStatic, Node.withRoots]
  split <;> rfl

theorem Element.unmark_optimize (keys : List String) (e : Element) :
    (e.optimize keys).toNode.unmark = e.toNode.unmark := by
  rw [toNode_optimize, Node.unmark_withRoots, Node.unmark_withStatic]

end HtmlTemplate.Template
