import HtmlTemplate.Proofs.Modules
import HtmlTemplate.Proofs.Nesting
import HtmlTemplate.Proofs.StartTags

/-!
# What a tree grows into

However the events come, the tree that grows from them has at most 128 elements in each other, all
of them have heads as modules make them, and there are at most as many as there are start tags among
the events (`sound_ofEvents`). One invariant on the open frames and the root says all three: opening
an element, adding a node and closing an element keep it, and every event does no more than these.
It takes modules that give no elements to an element (`Module.Flat`).
-/

namespace HtmlTemplate.Template

open Markup (Event)

/-- The marks of the search for static subtrees. -/
def Head.marks (head : Head) : Bool × Bool := (head.isStatic, head.isStaticRoot)

/-- Not marked by the search for static subtrees. -/
def Head.IsUnmarked (head : Head) : Prop := head.isStatic = false ∧ head.isStaticRoot = false

section

variable (P : Head → Prop)

/-- A node that may stand where so many elements are open: it is not too high for that, and the
heads of its elements have the property. -/
structure Node.Grown (level : Nat) (n : Node) : Prop where
  height : n.height + level ≤ nestingLimit
  heads : ∀ e ∈ n.elements, P e.head

/-- An element with so many elements open around it. -/
structure Frame.Sound (level : Nat) (f : Frame) : Prop where
  below : level < nestingLimit
  head : P f.head
  children : ∀ n ∈ f.children, n.Grown P (level + 1)

def FramesSound : List Frame → Prop
  | [] => True
  | f :: outer => f.Sound P outer.length ∧ FramesSound outer

end

/-- The elements that stand in a frame, with its own. -/
def Frame.count (f : Frame) : Nat := (elementsAll f.children).length + 1

def rootCount (root : Option Element) : Nat :=
  match root with
  | none => 0
  | some e => e.toNode.elements.length

/-- The number of elements in open elements, themselves included. -/
def openCount : List Frame → Nat
  | [] => 0
  | frame :: outer => frame.count + openCount outer

/-- The invariant of a growing tree, after so many start tags. -/
structure Sound (P : Head → Prop) (starts : Nat) (frames : List Frame) (root : Option Element) :
    Prop where
  open_sound : FramesSound P frames
  root_grown : ∀ e ∈ root, e.toNode.Grown P 0
  count : openCount frames + rootCount root ≤ starts

/-! ### What modules make of start tags -/

/-- The module makes the children of an element no higher. -/
def Module.Flat (m : Module) : Prop :=
  ∀ s e reports, heightAll (m.transform s e reports).1.children ≤ heightAll e.children

theorem flat_takingModule (staticKeys : List String) (name : String)
    (keep : Head → String → Head) : (takingModule staticKeys name keep).Flat :=
  fun _ _ _ => Nat.le_refl _

/-- The modules leave elements heads with the property, which does not depend on where an element
ends, and give them no elements. -/
structure Options.Makes (o : Options) (P : Head → Prop) : Prop where
  spans : ∀ head span, P head → P { head with span := span }
  starts : ∀ name attributes unary span reports,
    let made := Growth.elementAfter o name attributes unary span reports
    P made.1.head ∧ heightAll made.1.children = 0

theorem Growth.flat_transform {modules : List Module} (h : ∀ m ∈ modules, m.Flat) (s : Settings)
    (e : Element) (reports : List Report) :
    heightAll (transform s modules e reports).1.children ≤ heightAll e.children := by
  induction modules generalizing e reports with
  | nil => exact Nat.le_refl _
  | cons m modules ih =>
    obtain ⟨hm, hmore⟩ := List.forall_mem_cons.1 h
    exact Nat.le_trans (ih hmore _ _) (hm s e reports)

theorem Options.makes_of_flat {o : Options} (hflat : ∀ m ∈ o.modules, m.Flat) :
    o.Makes fun _ => True where
  spans _ _ h := h
  starts _ _ _ _ _ := ⟨trivial, Nat.le_zero.1 (Growth.flat_transform hflat _ _ _)⟩

theorem Options.makes_unmarked {o : Options} [o.Modest]
    (hmodules : ∀ m ∈ o.modules, m.Keeps Head.marks) : o.Makes Head.IsUnmarked where
  spans _ _ h := h
  starts name attributes unary span reports := by
    rw [Growth.elementAfter_eq, Growth.elementOfTag_eq]
    have hmarks := Growth.keeps_transformHead hmodules o.toSettings
      ((Head.ofTag name attributes unary span).sorted fun d => (o.directives.find? d).isSome).1
    exact ⟨⟨congrArg Prod.fst hmarks, congrArg Prod.snd hmarks⟩, rfl⟩

theorem elementsAll_eq_nil {nodes : List Node} (h : heightAll nodes = 0) :
    elementsAll nodes = [] := by
  rw [elementsAll_eq, List.flatMap_eq_nil_iff]
  intro n hn
  have hheight := heightAll_le_iff.1 (Nat.le_of_eq h) n hn
  cases n with
  | element head children => simp [Node.height] at hheight
  | text run => rfl
  | comment content span => rfl

section

variable {P : Head → Prop}

theorem Sound.mono {starts more : Nat} {frames : List Frame} {root : Option Element}
    (h : Sound P starts frames root) (hle : starts ≤ more) : Sound P more frames root :=
  ⟨h.open_sound, h.root_grown, Nat.le_trans h.count hle⟩

theorem Frame.Sound.element {level : Nat} {f : Frame} (h : f.Sound P level) {children : List Node}
    (hsub : ∀ n ∈ children, n ∈ f.children) : (Node.element f.head children).Grown P level := by
  have hlevel := h.below
  constructor
  · have hchildren : heightAll children ≤ nestingLimit - (level + 1) := by
      rw [heightAll_le_iff]
      intro n hn
      have := (h.children n (hsub n hn)).height
      omega
    rw [Node.height]
    omega
  · intro e he
    rcases List.mem_cons.1 he with rfl | he
    · exact h.head
    · obtain ⟨n, hn, he⟩ := mem_elementsAll.1 he
      exact (h.children n (hsub n hn)).heads e he

/-- Opening an element below the deepest level. -/
theorem Sound.opened {starts : Nat} {frames : List Frame} {root : Option Element}
    (h : Sound P starts frames root) (hlength : frames.length < nestingLimit) {f : Frame}
    (hhead : P f.head) (hchildren : heightAll f.children = 0) :
    Sound P (starts + 1) (f :: frames) root := by
  have hnone := elementsAll_eq_nil hchildren
  refine ⟨⟨⟨hlength, hhead, fun n hn => ?_⟩, h.open_sound⟩, h.root_grown, ?_⟩
  · have hheight := heightAll_le_iff.1 (Nat.le_of_eq hchildren) n hn
    have helements : n.elements = [] := by
      rw [elementsAll_eq, List.flatMap_eq_nil_iff] at hnone
      exact hnone n hn
    exact ⟨by omega, by simp [helements]⟩
  · have := h.count
    simp only [openCount, Frame.count, hnone, List.length_nil]
    omega

/-- Adding a node to the innermost element. -/
theorem Sound.added {starts : Nat} {f : Frame} {outer : List Frame} {root : Option Element}
    (h : Sound P starts (f :: outer) root) {n : Node} (hn : n.Grown P (outer.length + 1)) :
    Sound P (starts + n.elements.length) ({ f with children := n :: f.children } :: outer)
      root := by
  rcases h with ⟨⟨hf, houter⟩, hroot, hcount⟩
  refine ⟨⟨⟨hf.below, hf.head, ?_⟩, houter⟩, hroot, ?_⟩
  · simp only [List.forall_mem_cons]
    exact ⟨hn, hf.children⟩
  · simp only [openCount, Frame.count, elementsAll, List.length_append] at hcount ⊢
    omega

/-- What is no element may be added wherever elements are open. -/
theorem Sound.added_leaf {starts : Nat} {f : Frame} {outer : List Frame} {root : Option Element}
    (h : Sound P starts (f :: outer) root) {n : Node} (hheight : n.height = 0)
    (helements : n.elements = []) :
    Sound P starts ({ f with children := n :: f.children } :: outer) root := by
  have hbelow := h.open_sound.1.below
  have hadded := h.added (n := n) ⟨by omega, by simp [helements]⟩
  rw [helements] at hadded
  exact hadded

end

theorem length_elementsAll_le {nodes more : List Node} (h : nodes.Sublist more) :
    (elementsAll nodes).length ≤ (elementsAll more).length := by
  induction h with
  | slnil => exact Nat.le_refl _
  | cons n _ ih =>
    rw [elementsAll, List.length_append]
    omega
  | cons_cons n _ ih =>
    rw [elementsAll, elementsAll, List.length_append, List.length_append]
    omega

theorem length_elementsAll_reverse (nodes : List Node) :
    (elementsAll nodes.reverse).length = (elementsAll nodes).length := by
  rw [elementsAll_eq, elementsAll_eq, List.length_flatMap, List.length_flatMap, List.map_reverse,
    List.sum_reverse]

namespace Growth

/-- Whether an element counts as preformatted or not, nothing but the count changes. -/
theorem recount_eq (counts : Bool) (count : Nat) (g : Growth) :
    ∃ n, (if counts then { g with preformatted := count } else g) = { g with preformatted := n } := by
  cases counts with
  | true => exact ⟨count, rfl⟩
  | false => exact ⟨g.preformatted, rfl⟩

/-! ### Growing soundly -/

section

variable {P : Head → Prop}

/-- An element that is closed keeps its children but for spaces at the end. -/
theorem kept_sublist (g : Growth) (children : List Node) :
    (if g.preformatted == 0 then children.dropWhile isSpace else children).Sublist children := by
  split
  · exact List.dropWhile_sublist _
  · exact List.Sublist.refl _

/-- Closing an element whose frame was taken away. -/
theorem sound_close (o : Options) {starts : Nat} {frame : Frame} {g : Growth}
    (h : Sound P starts (frame :: g.frames) g.root) :
    Sound P starts (g.close o frame).frames (g.close o frame).root := by
  obtain ⟨n, hn⟩ := recount_eq (o.isPreformatted frame.head.name) (g.preformatted - 1) g
  have hsub := kept_sublist g frame.children
  unfold close
  rw [hn]
  generalize (if g.preformatted == 0 then frame.children.dropWhile isSpace
    else frame.children) = children at hsub ⊢
  rcases h with ⟨⟨hframe, houter⟩, hgrown, hcount⟩
  have hnode : (Node.element frame.head children.reverse).Grown P g.frames.length :=
    hframe.element fun n hn => hsub.subset (List.mem_reverse.1 hn)
  have hlength : (Node.element frame.head children.reverse).elements.length ≤ frame.count := by
    have := length_elementsAll_le hsub
    rw [Node.elements, List.length_cons, length_elementsAll_reverse, Frame.count]
    omega
  rw [openCount] at hcount
  have hdropped : Sound P starts g.frames g.root := ⟨houter, hgrown, by omega⟩
  simp only
  split
  · refine ⟨houter, ?_, ?_⟩
    · rintro e ⟨⟩
      constructor
      · have hheight := hnode.height
        simp only [Element.toNode]
        omega
      · exact hnode.heads
    · simp only [rootCount, Element.toNode]
      omega
  · next parent outer _ hparent =>
    rw [hparent] at houter hcount hnode
    have hrest : Sound P (starts - frame.count) (parent :: outer) g.root :=
      ⟨houter, hgrown, by omega⟩
    exact (hrest.added hnode).mono (by omega)
  · exact hdropped
  · exact hdropped

theorem sound_enter (o : Options) (name : String) (unary : Bool) {starts : Nat} {frame : Frame}
    {g : Growth} (h : Sound P starts (frame :: g.frames) g.root) :
    Sound P starts (g.enter o name unary frame).frames (g.enter o name unary frame).root := by
  obtain ⟨n, hn⟩ := recount_eq (o.isPreformatted name) (g.preformatted + 1) g
  unfold enter
  rw [hn]
  cases unary with
  | true => exact sound_close (g := { g with preformatted := n }) o h
  | false => exact h

theorem sound_addText {starts : Nat} {f : Frame} {outer : List Frame} {root : Option Element}
    (h : Sound P starts (f :: outer) root) (d : Delimiters) (text : String) (span : Option Span) :
    Sound P starts (addText d text span f :: outer) root := by
  unfold addText
  split
  · split
    · next hnone =>
      have hadded := h.added_leaf (n := .text ⟨text, [.fixed text], span⟩) rfl rfl
      rw [hnone] at hadded
      exact hadded
    · split
      · exact h
      · exact h.added_leaf rfl rfl
  · exact h.added_leaf rfl rfl

/-- What an event does to the reports and to the counts around the tree leaves the tree alone. -/
def SameTree (g g' : Growth) : Prop := g'.frames = g.frames ∧ g'.root = g.root

theorem SameTree.sound {g g' : Growth} (h : SameTree g g') {starts : Nat}
    (hg : Sound P starts g.frames g.root) : Sound P starts g'.frames g'.root := by
  rw [h.1, h.2]
  exact hg

theorem sameTree_complain (r : Report) (g : Growth) : SameTree g (g.complain r) := by
  unfold complain
  split <;> exact ⟨rfl, rfl⟩

theorem sameTree_skip (unary : Bool) (span : Span) (g : Growth) :
    SameTree g (g.skip unary span) := by
  unfold skip
  constructor <;> cases g.skippedOnce <;> cases unary <;> rfl

theorem sameTree_place (head : Head) (g : Growth) : SameTree g (g.place head).2 := by
  unfold place complain
  constructor <;> (simp only; repeat' split) <;> rfl

section

variable {o : Options} (hmakes : o.Makes P) {starts : Nat} {g : Growth}
  (h : Sound P starts g.frames g.root)
include hmakes h

theorem sound_start (name : String) (attributes : List Markup.Attribute) (unary : Bool)
    (span : Span) : Sound P (starts + 1) (g.start o name attributes unary span).frames
      (g.start o name attributes unary span).root := by
  rw [start_eq_enter]
  split
  · exact ((sameTree_skip unary span g).sound h).mono (Nat.le_succ starts)
  · next hroom =>
    obtain ⟨-, hlength⟩ : g.skipped = 0 ∧ g.frames.length < nestingLimit := by simpa using hroom
    obtain ⟨hhead, hheight⟩ := hmakes.starts name attributes unary span g.reports
    generalize elementAfter o name attributes unary span g.reports = made at hhead hheight ⊢
    dsimp only
    have hplaced := sameTree_place made.1.head { g with reports := made.2 }
    generalize place made.1.head { g with reports := made.2 } = placed at hplaced ⊢
    have hchildren : heightAll made.1.children.reverse = 0 :=
      Nat.le_zero.1 (heightAll_le_iff.2 fun n hn =>
        heightAll_le_iff.1 (Nat.le_of_eq hheight) n (List.mem_reverse.1 hn))
    have hopened := (hplaced.sound h).opened (f := ⟨made.1.head, made.1.children.reverse, placed.1⟩)
      (hplaced.1 ▸ hlength) hhead hchildren
    exact sound_enter o name unary hopened

end

section

variable {o : Options} {starts : Nat} {g : Growth} (h : Sound P starts g.frames g.root)
include h

theorem sound_finish (hmakes : o.Makes P) (span : Span) :
    Sound P starts (g.finish o span).frames (g.finish o span).root := by
  unfold finish
  split
  · exact h
  · split
    · exact h
    · next frame outer hframes =>
      rw [hframes] at h
      rcases h with ⟨⟨hframe, houter⟩, hgrown, hcount⟩
      apply sound_close
      have hhead := hmakes.spans frame.head (.between frame.head.span.start span.stop) hframe.head
      exact ⟨⟨⟨hframe.below, hhead, hframe.children⟩, houter⟩, hgrown, hcount⟩

theorem sound_text (template content : String) (span : Option Span) :
    Sound P starts (g.text template o content span).frames
      (g.text template o content span).root := by
  unfold text
  split
  · exact h
  · split
    · split
      · exact (sameTree_complain _ g).sound h
      · split
        · exact h
        · exact (sameTree_complain _ g).sound h
    · next frame outer hframes =>
      rw [hframes] at h
      split
      · rw [hframes]
        exact h
      · next text _ => exact sound_addText h o.delimiters text span

theorem sound_comment (content : String) (span : Span) :
    Sound P starts (g.comment content span).frames (g.comment content span).root := by
  unfold comment
  split
  · exact h
  · split
    · exact h
    · next frame outer hframes =>
      rw [hframes] at h
      exact h.added_leaf rfl rfl

end

section

variable {o : Options} (hmakes : o.Makes P) (template : String)
include hmakes

/-- An event keeps the invariant; only a start tag makes an element. -/
theorem sound_step {starts : Nat} {g : Growth} (h : Sound P starts g.frames g.root)
    (event : Event) :
    Sound P (starts + if event.isStart then 1 else 0) (step template o g event).frames
      (step template o g event).root := by
  cases event with
  | startTag name attributes unary span => exact sound_start hmakes h name attributes unary span
  | endTag name span => exact sound_finish h hmakes span
  | text content span => exact sound_text h template content span
  | comment content span => exact sound_comment h content span
  | warning message range => exact h

theorem sound_foldl {starts : Nat} {g : Growth} (h : Sound P starts g.frames g.root)
    (events : List Event) :
    Sound P (starts + events.countP Event.isStart) (events.foldl (step template o) g).frames
      (events.foldl (step template o) g).root := by
  induction events generalizing starts g with
  | nil => exact h
  | cons event events ih =>
    rw [List.foldl_cons, List.countP_cons]
    exact (ih (sound_step hmakes template h event)).mono (by omega)

theorem sound_ofEvents (events : List Event) :
    Sound P (events.countP Event.isStart) (ofEvents template o events).frames
      (ofEvents template o events).root := by
  have hempty : Sound P 0 [] none := ⟨trivial, by simp, by simp [openCount, rootCount]⟩
  have hrun := sound_foldl hmakes template (g := {}) hempty events
  rwa [Nat.zero_add] at hrun

end

end

end Growth

/-- The tree of a template is not too high, its heads are as modules make them, and it has no more
elements than the markup has start tags. -/
theorem sound_tree {P : Head → Prop} {o : Options} (hmakes : o.Makes P) {template : String}
    {root : Element} (h : (tree o template).1 = some root) :
    root.toNode.Grown P 0 ∧
      root.toNode.elements.length ≤ (Markup.parse o.markup template).countP Event.isStart := by
  have hsound := Growth.sound_ofEvents hmakes template (Markup.parse o.markup template)
  have hroot : (Growth.ofEvents template o (Markup.parse o.markup template)).root = some root := h
  rw [hroot] at hsound
  have hcount := hsound.count
  constructor
  · exact hsound.root_grown root rfl
  · simp only [rootCount] at hcount
    omega

/-- The tree of a template has no marks yet. -/
theorem grown_tree {o : Options} [o.Modest] (hmodules : ∀ m ∈ o.modules, m.Keeps Head.marks)
    {template : String} {root : Element} (h : (tree o template).1 = some root) :
    root.toNode.Grown Head.IsUnmarked 0 ∧
      root.toNode.elements.length ≤ (Markup.parse o.markup template).countP Event.isStart :=
  sound_tree (Options.makes_unmarked hmodules) h

/-- The tree of a template is not too high, whatever modules make of heads. -/
theorem height_tree_le {o : Options} (hflat : ∀ m ∈ o.modules, m.Flat) {template : String}
    {root : Element} (h : (tree o template).1 = some root) : root.toNode.height ≤ nestingLimit :=
  (sound_tree (Options.makes_of_flat hflat) h).1.height

end HtmlTemplate.Template
