import HtmlTemplate.Proofs.Brackets
import HtmlTemplate.Proofs.Origin

/-!
# The tree that the tags bracket

Growing a tree keeps a stack of frames of its own, flags about the root and counts of what was left
out, none of which looks at the name of an end tag. As long as there is no error, nothing was left
out and the frames are the elements that are open in the markup. Bracketed events then add exactly
the elements that they outline, to the innermost frame or as the root (`Growth.adds_foldl`), so the
tree has the outline of the markup (`tree_outline`).
-/

namespace HtmlTemplate.Template

open Text Markup

/-! ### Outlines of trees -/

mutual

/-- The outline of a node: one element, or none. -/
def Node.outlines : Node → List Outline
  | .element head children => [.element head.name head.written head.unary (outlinesAll children)]
  | .text _ => []
  | .comment .. => []

def outlinesAll : List Node → List Outline
  | [] => []
  | node :: rest => node.outlines ++ outlinesAll rest

end

/-- What the tags of an element say: its name, its attributes, whether it has an end tag, and the
elements in it. -/
def Element.outline (e : Element) : Outline :=
  .element e.head.name e.head.written e.head.unary (outlinesAll e.children)

theorem outlinesAll_eq (nodes : List Node) : outlinesAll nodes = nodes.flatMap Node.outlines := by
  induction nodes with
  | nil => rfl
  | cons n nodes ih => rw [outlinesAll, ih, List.flatMap_cons]

theorem outlinesAll_append (nodes more : List Node) :
    outlinesAll (nodes ++ more) = outlinesAll nodes ++ outlinesAll more := by
  rw [outlinesAll_eq, outlinesAll_eq, outlinesAll_eq, List.flatMap_append]

/-- Children are kept newest first. -/
theorem outlinesAll_reverse_cons (n : Node) (children : List Node) :
    outlinesAll (n :: children).reverse = outlinesAll children.reverse ++ n.outlines := by
  rw [List.reverse_cons, outlinesAll_append, outlinesAll, outlinesAll, List.append_nil]

/-- Spaces at the end of an element do not show in its outline. -/
theorem outlinesAll_dropWhile_isSpace (children : List Node) :
    outlinesAll (children.dropWhile Growth.isSpace).reverse = outlinesAll children.reverse := by
  induction children with
  | nil => rfl
  | cons n children ih =>
    rw [List.dropWhile_cons]
    split
    · next hspace =>
      have hn : n.outlines = [] := by
        cases n with
        | element head children => cases hspace
        | text run => rfl
        | comment content span => rfl
      rw [ih, outlinesAll_reverse_cons, hn, List.append_nil]
    · rfl

theorem outlines_unmark (n : Node) : n.unmark.outlines = n.outlines := by
  induction n using Node.induction with
  | text run => rfl
  | comment content span => rfl
  | element head children ih =>
    have hchildren : outlinesAll (unmarkAll children) = outlinesAll children := by
      rw [outlinesAll_eq, outlinesAll_eq, unmarkAll_eq_map, List.flatMap_map]
      exact List.flatMap_congr ih
    rw [Node.unmark, Node.outlines, Node.outlines, hchildren]
    rfl

/-- The search for static subtrees leaves the outline alone. -/
theorem outline_finish (v : Overrides) (root : Element) :
    (v.finish root).outline = root.outline := by
  have hunmark : (v.finish root).toNode.outlines = root.toNode.outlines := by
    rw [← outlines_unmark, v.unmark_finish, outlines_unmark]
  exact (List.cons.inj hunmark).1

/-! ### Heads keep what their start tag says -/

/-- What a start tag says of its element. -/
def Head.tag (head : Head) : String × List Attribute × Bool :=
  (head.name, head.written, head.unary)

theorem keepsTag_override_web {v : Overrides} (hmodules : v.modules = []) :
    ∀ m ∈ (Options.web.override v).modules, m.Keeps Head.tag :=
  forall_mem_modules_web hmodules (keeps_takingModule _ (fun _ => rfl) fun _ _ => rfl)
    (keeps_takingModule _ (fun _ => rfl) fun _ _ => rfl)

namespace Growth

/-! ### Regular states -/

/-- Nothing was left out so far, and nothing was said about the root. -/
structure Regular (g : Growth) : Prop where
  skipped : g.skipped = 0
  skippedOnce : g.skippedOnce = false
  complained : g.complained = false

theorem Regular.of_sameReports {g g' : Growth} (h : g.Regular) (hsame : g'.SameReports g) :
    g'.Regular :=
  ⟨hsame.skipped.trans h.skipped, hsame.skippedOnce.trans h.skippedOnce,
    hsame.complained.trans h.complained⟩

/-- An element gets a frame, in a state that has seen a root but is not changed otherwise. -/
structure Opens (tag : String × List Attribute × Bool) (frame : Frame)
    (g placed : Growth) : Prop where
  tag_eq : frame.head.tag = tag
  children : frame.children = []
  placement : frame.placement = if g.frames.isEmpty then .root else .child
  frames : placed.frames = g.frames
  root : placed.root = g.root
  rootSeen : placed.rootSeen = (g.rootSeen || g.frames.isEmpty)
  first : g.frames = [] → g.rootSeen = false
  regular : placed.Regular

section

variable {o : Options} {g : Growth}

/-- A start tag without an error opens an element, which is closed at once if it is unary. -/
theorem start_of_noErrors [o.Modest] (hmodules : ∀ m ∈ o.modules, m.Keeps Head.tag) (hg : g.Regular)
    {name : String} {attributes : List Attribute} {unary : Bool} {span : Span}
    (h : (g.start o name attributes unary span).NoErrors) :
    ∃ frame placed, Opens (name, attributes, unary) frame g placed ∧
      g.start o name attributes unary span =
        if unary then placed.close o frame else { placed with frames := frame :: placed.frames } := by
  obtain ⟨reports, hstart⟩ := start_eq o name attributes unary span hg.skipped
    (length_frames_lt_of_noErrors hg.skippedOnce h)
  have htag : (headOfTag o name attributes unary span).1.tag = (name, attributes, unary) :=
    keeps_transformHead hmodules o.toSettings _
  simp only at hstart
  rw [hstart] at h ⊢
  clear hstart
  generalize (headOfTag o name attributes unary span).1 = head at htag h ⊢
  obtain ⟨hplacement, hplaced, hfirst⟩ := place_of_noErrors
    (g := { g with reports := reports ++ g.reports }) hg.complained
    (h.of_extends (sameReports_enter ..).extends)
  obtain ⟨n, hn⟩ := recount_eq (o.isPreformatted name) (g.preformatted + 1)
    { g with rootSeen := g.rootSeen || g.frames.isEmpty, reports := reports ++ g.reports }
  rw [hplaced, hplacement, enter]
  simp only [hn]
  refine ⟨_, _, ?_, rfl⟩
  exact
    { tag_eq := htag
      children := rfl
      placement := rfl
      frames := rfl
      root := rfl
      rootSeen := rfl
      first := fun hframes => hfirst (List.isEmpty_iff.2 hframes)
      regular := ⟨hg.skipped, hg.skippedOnce, hg.complained⟩ }

theorem finish_eq (o : Options) (span : Span) (hskipped : g.skipped = 0) {frame : Frame}
    {outer : List Frame} (hframes : g.frames = frame :: outer) :
    g.finish o span = Growth.close o
      { frame with head := { frame.head with span := .between frame.head.span.start span.stop } }
      { g with frames := outer } := by
  unfold finish
  rw [if_neg (by simp [hskipped]), hframes]

/-- Nodes may have been added to an open element, but no element. -/
def SameOutlines (frame frame' : Frame) : Prop :=
  frame'.head = frame.head ∧ frame'.placement = frame.placement ∧
    outlinesAll frame'.children.reverse = outlinesAll frame.children.reverse

theorem sameOutlines_cons (frame : Frame) {n : Node} (h : n.outlines = []) :
    SameOutlines frame { frame with children := n :: frame.children } :=
  ⟨rfl, rfl, by rw [outlinesAll_reverse_cons, h, List.append_nil]⟩

theorem sameOutlines_addText (d : Delimiters) (text : String) (span : Option Span) (frame : Frame) :
    SameOutlines frame (addText d text span frame) := by
  unfold addText
  split
  · split
    · next hnone =>
      have hspace := sameOutlines_cons frame (n := .text ⟨text, [.fixed text], span⟩) rfl
      rw [hnone] at hspace
      exact hspace
    · split
      · exact ⟨rfl, rfl, rfl⟩
      · exact sameOutlines_cons frame rfl
  · exact sameOutlines_cons frame rfl

/-- Text outside elements is blank and passed over, or it is an error. -/
theorem text_outside (hg : g.Regular) (hframes : g.frames = []) {template content : String}
    {span : Option Span} (h : (g.text template o content span).NoErrors) :
    allBlank content = true ∧ g.text template o content span = g := by
  unfold text at h ⊢
  rw [if_neg (by simp [hg.skipped]), hframes] at h ⊢
  dsimp only at h ⊢
  split at h
  · exact absurd h (not_noErrors_complain hg.complained rfl)
  · next hlone =>
    rw [if_neg hlone]
    split at h
    · next hblank => exact ⟨hblank, if_pos hblank⟩
    · exact absurd h (not_noErrors_complain hg.complained rfl)

theorem text_inside (o : Options) (hskipped : g.skipped = 0) {frame : Frame} {outer : List Frame}
    (hframes : g.frames = frame :: outer) (template content : String) (span : Option Span) :
    ∃ frame', SameOutlines frame frame' ∧
      g.text template o content span = { g with frames := frame' :: outer } := by
  unfold text
  rw [if_neg (by simp [hskipped]), hframes]
  dsimp only
  split
  · exact ⟨frame, ⟨rfl, rfl, rfl⟩, by rw [← hframes]⟩
  · next text _ => exact ⟨_, sameOutlines_addText o.delimiters text span frame, rfl⟩

/-- What is neither a tag nor an error leaves a state outside elements alone, and adds no element to
an open one. -/
theorem content_of_noErrors (hg : g.Regular) {template : String} {e : Event}
    (he : e.isTag = false) (h : (step template o g e).NoErrors) :
    (g.frames = [] ∧ step template o g e = g) ∨
      ∃ frame frame' outer, g.frames = frame :: outer ∧ SameOutlines frame frame' ∧
        step template o g e = { g with frames := frame' :: outer } := by
  cases e with
  | startTag name attributes unary span => cases he
  | endTag name span => cases he
  | text content span =>
    cases hframes : g.frames with
    | nil => exact .inl ⟨rfl, (text_outside hg hframes h).2⟩
    | cons frame outer =>
      obtain ⟨frame', hsame, htext⟩ := text_inside o hg.skipped hframes template content span
      exact .inr ⟨frame, frame', outer, rfl, hsame, htext⟩
  | comment content span =>
    cases hframes : g.frames with
    | nil => exact .inl ⟨rfl, by simp [step, comment, hframes]⟩
    | cons frame outer =>
      refine .inr ⟨frame, _, outer, rfl, sameOutlines_cons frame (n := .comment content span) rfl, ?_⟩
      simp [step, comment, hg.skipped, hframes]
  | warning message range => exact absurd h (not_noErrors_report rfl)

/-- An event without an error leaves nothing out. -/
theorem regular_step [o.Modest] (hmodules : ∀ m ∈ o.modules, m.Keeps Head.tag) {template : String}
    (hg : g.Regular) {e : Event} (h : (step template o g e).NoErrors) :
    (step template o g e).Regular := by
  have hcontent : e.isTag = false → (step template o g e).Regular := by
    intro he
    obtain ⟨-, hstep⟩ | ⟨frame, frame', outer, -, -, hstep⟩ := content_of_noErrors hg he h
    · rwa [hstep]
    · rw [hstep]
      exact ⟨hg.skipped, hg.skippedOnce, hg.complained⟩
  cases e with
  | startTag name attributes unary span =>
    obtain ⟨frame, placed, hopens, hstart⟩ := start_of_noErrors hmodules hg h
    change (g.start o name attributes unary span).Regular
    rw [hstart]
    cases unary with
    | true => exact hopens.regular.of_sameReports (sameReports_close o frame placed)
    | false => exact ⟨hopens.regular.skipped, hopens.regular.skippedOnce, hopens.regular.complained⟩
  | endTag name span =>
    change (g.finish o span).Regular
    cases hframes : g.frames with
    | nil => simpa [finish, hg.skipped, hframes] using hg
    | cons frame outer =>
      rw [finish_eq o span hg.skipped hframes]
      have hpopped : Regular { g with frames := outer } :=
        ⟨hg.skipped, hg.skippedOnce, hg.complained⟩
      exact hpopped.of_sameReports (sameReports_close o _ _)
  | text content span => exact hcontent rfl
  | comment content span => exact hcontent rfl
  | warning message range => exact hcontent rfl

theorem regular_foldl [o.Modest] (hmodules : ∀ m ∈ o.modules, m.Keeps Head.tag) {template : String}
    (hg : g.Regular) {events : List Event} (h : (events.foldl (step template o) g).NoErrors) :
    (events.foldl (step template o) g).Regular := by
  induction events generalizing g with
  | nil => exact hg
  | cons e events ih =>
    exact ih (regular_step hmodules hg (h.of_extends (extends_foldl template o events _))) h

/-! ### Bracketed events add what they outline -/

/-- Elements of these outlines are added where a state stands: to the innermost open element, which
is the only frame to change, or as the root, of which there is one. -/
inductive Adds : List Outline → Growth → Growth → Prop where
  | inside {outlines : List Outline} {g g' : Growth} {frame : Frame} {outer : List Frame}
      (children : List Node) (hframes : g.frames = frame :: outer)
      (hframes' : g'.frames = { frame with children := children } :: outer)
      (houtlines : outlinesAll children.reverse = outlinesAll frame.children.reverse ++ outlines)
      (hroot : g'.root = g.root) (hseen : g'.rootSeen = g.rootSeen) : Adds outlines g g'
  | nothing {g g' : Growth} (hframes : g.frames = []) (hframes' : g'.frames = [])
      (hroot : g'.root = g.root) (hseen : g'.rootSeen = g.rootSeen) : Adds [] g g'
  | root {g g' : Growth} {root : Element} (hframes : g.frames = []) (hframes' : g'.frames = [])
      (hseen : g.rootSeen = false) (hseen' : g'.rootSeen = true) (hroot : g'.root = some root) :
      Adds [root.outline] g g'

theorem Adds.refl (g : Growth) : Adds [] g g := by
  cases hframes : g.frames with
  | nil => exact .nothing hframes hframes rfl rfl
  | cons frame outer => exact .inside frame.children hframes hframes (by simp) rfl rfl

theorem Adds.trans {first second : List Outline} {g₁ g₂ g₃ : Growth} (h : Adds first g₁ g₂)
    (h' : Adds second g₂ g₃) : Adds (first ++ second) g₁ g₃ := by
  cases h with
  | inside children hframes hframes₂ houtlines hroot hseen =>
    cases h' with
    | inside children' hframes₂' hframes₃ houtlines' hroot' hseen' =>
      obtain ⟨rfl, rfl⟩ := List.cons.inj (hframes₂.symm.trans hframes₂')
      refine .inside children' hframes hframes₃ ?_ (hroot'.trans hroot) (hseen'.trans hseen)
      rw [houtlines', houtlines, List.append_assoc]
    | nothing hframes₂' => rw [hframes₂'] at hframes₂; cases hframes₂
    | root hframes₂' => rw [hframes₂'] at hframes₂; cases hframes₂
  | nothing hframes hframes₂ hroot hseen =>
    cases h' with
    | inside children' hframes₂' => rw [hframes₂'] at hframes₂; cases hframes₂
    | nothing _ hframes₃ hroot' hseen' =>
      exact .nothing hframes hframes₃ (hroot'.trans hroot) (hseen'.trans hseen)
    | root _ hframes₃ hunseen hseen' hroot' =>
      exact .root hframes hframes₃ (hseen.symm.trans hunseen) hseen' hroot'
  | root hframes hframes₂ hunseen hseen hroot =>
    cases h' with
    | inside children' hframes₂' => rw [hframes₂'] at hframes₂; cases hframes₂
    | nothing _ hframes₃ hroot' hseen' =>
      exact .root hframes hframes₃ hunseen (hseen'.trans hseen) (hroot'.trans hroot)
    | root _ _ hunseen' => rw [hseen] at hunseen'; cases hunseen'

/-- The heads of the open elements stay as they are. -/
theorem Adds.map_head {outlines : List Outline} {g g' : Growth} (h : Adds outlines g g') :
    g'.frames.map Frame.head = g.frames.map Frame.head := by
  cases h with
  | inside children hframes hframes' => rw [hframes, hframes', List.map_cons, List.map_cons]
  | nothing hframes hframes' => rw [hframes, hframes']
  | root hframes hframes' => rw [hframes, hframes']

/-- Closing the element that was opened last adds it with what was added to it. -/
theorem adds_close (o : Options) (last : Growth) (frame' : Frame) {g placed : Growth}
    {name : String} {attributes : List Attribute} {unary : Bool} {frame : Frame}
    (h : Opens (name, attributes, unary) frame g placed) (hhead : frame'.head.tag = frame.head.tag)
    (hplacement : frame'.placement = frame.placement) (hframes : last.frames = placed.frames)
    (hroot : last.root = placed.root) (hseen : last.rootSeen = placed.rootSeen) :
    Adds [.element name attributes unary (outlinesAll frame'.children.reverse)] g
      (last.close o frame') := by
  obtain ⟨hname, hwritten, hunary⟩ : frame'.head.name = name ∧ frame'.head.written = attributes ∧
      frame'.head.unary = unary := by
    simpa [Head.tag] using hhead.trans h.tag_eq
  obtain ⟨n, hn⟩ := recount_eq (o.isPreformatted frame'.head.name) (last.preformatted - 1) last
  generalize hchildren : (if last.preformatted == 0 then frame'.children.dropWhile isSpace
    else frame'.children) = children
  have houtlines : outlinesAll children.reverse = outlinesAll frame'.children.reverse := by
    rw [← hchildren]
    split
    · exact outlinesAll_dropWhile_isSpace _
    · rfl
  unfold close
  simp only [hn, hchildren]
  rw [h.frames] at hframes
  rw [h.root] at hroot
  rw [h.rootSeen] at hseen
  rw [h.placement] at hplacement
  rw [← houtlines, ← hname, ← hwritten, ← hunary]
  -- outside elements it is the root; in an element it is the newest child
  cases hopen : g.frames with
  | nil =>
    simp only [hopen, List.isEmpty_nil, if_true] at hplacement
    simp only [hplacement]
    rw [hopen] at hframes
    rw [hopen, List.isEmpty_nil, Bool.or_true] at hseen
    change Adds [Element.outline ⟨frame'.head, children.reverse⟩] _ _
    exact .root hopen hframes (h.first hopen) hseen rfl
  | cons parent outer =>
    simp only [hopen, List.isEmpty_cons, Bool.false_eq_true, if_false] at hplacement
    simp only [hplacement]
    rw [hopen] at hframes
    rw [hopen, List.isEmpty_cons, Bool.or_false] at hseen
    simp only [hframes]
    exact .inside (.element frame'.head children.reverse :: parent.children) hopen rfl
      (outlinesAll_reverse_cons _ _) hroot hseen

theorem adds_content (hg : g.Regular) {template : String} {e : Event} (he : e.isTag = false)
    (h : (step template o g e).NoErrors) : Adds [] g (step template o g e) := by
  obtain ⟨hframes, hstep⟩ | ⟨frame, frame', outer, hframes, hsame, hstep⟩ :=
    content_of_noErrors hg he h
  · rw [hstep]
    exact .refl g
  · obtain ⟨hhead, hplacement, houtlines⟩ := hsame
    rw [hstep]
    refine .inside frame'.children hframes ?_ (by rw [houtlines, List.append_nil]) rfl rfl
    rw [← hhead, ← hplacement]

theorem adds_unary [o.Modest] (hmodules : ∀ m ∈ o.modules, m.Keeps Head.tag) (hg : g.Regular)
    {template : String} {name : String} {attributes : List Attribute} {span : Span}
    (h : (step template o g (.startTag name attributes true span)).NoErrors) :
    Adds [.element name attributes true []] g
      (step template o g (.startTag name attributes true span)) := by
  obtain ⟨frame, placed, hopens, hstart⟩ := start_of_noErrors hmodules hg h
  have hadds := adds_close o placed frame hopens rfl rfl rfl rfl rfl
  rw [hopens.children] at hadds
  change Adds _ g (g.start o name attributes true span)
  rw [hstart]
  exact hadds

/-- From its start tag on, an element has a frame to itself, which its end tag takes away. -/
theorem adds_element [o.Modest] (hmodules : ∀ m ∈ o.modules, m.Keeps Head.tag) (hg : g.Regular)
    {template : String} {name : String} {attributes : List Attribute} {span : Span}
    {children : List Outline} {last : Growth}
    (h : (step template o g (.startTag name attributes false span)).NoErrors)
    (hinner : Adds children (step template o g (.startTag name attributes false span)) last)
    (hskipped : last.skipped = 0) (ended : String) (span' : Span) :
    (∃ frame nodes,
      (step template o g (.startTag name attributes false span)).frames = frame :: g.frames ∧
      last.frames = { frame with children := nodes } :: g.frames) ∧
    Adds [.element name attributes false children] g (step template o last (.endTag ended span')) := by
  obtain ⟨frame, placed, hopens, hstart⟩ := start_of_noErrors hmodules hg h
  change Adds children (g.start o name attributes false span) last at hinner
  change (∃ frame nodes, (g.start o name attributes false span).frames = frame :: g.frames ∧ _) ∧
    Adds _ g (last.finish o span')
  rw [hstart, if_neg Bool.false_ne_true] at hinner ⊢
  cases hinner with
  | nothing hframes => cases hframes
  | root hframes => cases hframes
  | inside nodes hframes hlast houtlines hroot hseen =>
    obtain ⟨rfl, rfl⟩ := List.cons.inj hframes
    rw [hopens.children] at houtlines
    refine ⟨⟨frame, nodes, by rw [← hopens.frames], by rw [hlast, hopens.frames]⟩, ?_⟩
    rw [finish_eq o span' hskipped hlast]
    have hadds := adds_close o { last with frames := placed.frames }
      { frame with
        head := { frame.head with span := .between frame.head.span.start span'.stop }
        children := nodes } hopens rfl rfl rfl hroot hseen
    rw [houtlines] at hadds
    exact hadds

/-- Bracketed events without an error add the elements that they outline, and nothing else. -/
theorem adds_foldl [o.Modest] (hmodules : ∀ m ∈ o.modules, m.Keeps Head.tag) {template : String}
    {events : List Event} {outlines : List Outline} (hevents : Brackets events outlines)
    (hg : g.Regular) (h : (events.foldl (step template o) g).NoErrors) :
    Adds outlines g (events.foldl (step template o) g) := by
  -- reports only grow, so every state on the way is without an error, and thus regular
  induction hevents generalizing g with
  | nil => exact .refl g
  | @content e events outlines he _ ih =>
    have hstep := h.of_extends (extends_foldl template o events _)
    exact (adds_content hg he hstep).trans (ih (regular_step hmodules hg hstep) h)
  | @unary events outlines name attributes span _ ih =>
    have hstep := h.of_extends (extends_foldl template o events _)
    exact (adds_unary hmodules hg hstep).trans (ih (regular_step hmodules hg hstep) h)
  | @element inner rest children outlines name attributes span span' _ _ ihinner ihrest =>
    rw [List.cons_append, List.foldl_cons, List.foldl_append, List.foldl_cons] at h ⊢
    have hclosed := h.of_extends (extends_foldl template o rest _)
    have hfilled := hclosed.of_extends (extends_step template o _ _)
    have hopened := hfilled.of_extends (extends_foldl template o inner _)
    have hregular := regular_step hmodules hg hopened
    have hinner := ihinner hregular hfilled
    have hskipped := (regular_foldl hmodules hregular hfilled).skipped
    obtain ⟨-, helement⟩ := adds_element hmodules hg hopened hinner hskipped name span'
    exact helement.trans
      (ihrest (regular_step hmodules (regular_foldl hmodules hregular hfilled) hclosed) h)

/-! ### Frames are the open elements -/

theorem frameNames_eq (frames : List Frame) :
    frameNames frames = (frames.map Frame.head).map Head.name :=
  (List.map_map ..).symm

theorem map_head_close (o : Options) (frame : Frame) (g : Growth) :
    (g.close o frame).frames.map Frame.head = g.frames.map Frame.head := by
  obtain ⟨n, hn⟩ := recount_eq (o.isPreformatted frame.head.name) (g.preformatted - 1) g
  unfold close
  simp only [hn]
  split
  · rfl
  · next parent outer _ hparent => rw [hparent, List.map_cons, List.map_cons]
  · rfl
  · rfl

/-- The frames stay in step with the elements that are open in the markup. -/
theorem frameNames_step [o.Modest] (hmodules : ∀ m ∈ o.modules, m.Keeps Head.tag) (hg : g.Regular)
    {template : String} {opened after : List OpenTag}
    (hnames : frameNames g.frames = opened.map OpenTag.name) {e : Event}
    (hafter : e.openAfter? opened = some after) (h : (step template o g e).NoErrors) :
    frameNames (step template o g e).frames = after.map OpenTag.name := by
  have hsame : ∀ {outlines}, Adds outlines g (step template o g e) → after = opened →
      frameNames (step template o g e).frames = after.map OpenTag.name := by
    rintro outlines hadds rfl
    rw [frameNames_eq, hadds.map_head, ← frameNames_eq, hnames]
  cases e with
  | startTag name attributes unary span =>
    obtain rfl := Option.some.inj hafter
    cases unary with
    | true => exact hsame (adds_unary hmodules hg h) rfl
    | false =>
      obtain ⟨frame, placed, hopens, hstart⟩ := start_of_noErrors hmodules hg h
      have hname : frame.head.name = name := congrArg Prod.fst hopens.tag_eq
      change frameNames (g.start o name attributes false span).frames = _
      rw [hstart, if_neg Bool.false_ne_true, hopens.frames]
      exact congrArg₂ List.cons hname hnames
  | endTag name span =>
    cases opened with
    | nil => cases hafter
    | cons t outer =>
      obtain ⟨-, rfl⟩ := by simpa [Event.openAfter?] using hafter
      obtain ⟨frame, rest, hframes, -, hrest⟩ := List.map_eq_cons_iff.1 hnames
      change frameNames (g.finish o span).frames = _
      rw [finish_eq o span hg.skipped hframes, frameNames_eq, map_head_close, ← frameNames_eq]
      exact hrest
  | text content span => exact hsame (adds_content hg rfl h) (Option.some.inj hafter).symm
  | comment content span => exact hsame (adds_content hg rfl h) (Option.some.inj hafter).symm
  | warning message range => exact hsame (adds_content hg rfl h) (Option.some.inj hafter).symm

theorem frameNames_foldl [o.Modest] (hmodules : ∀ m ∈ o.modules, m.Keeps Head.tag) (hg : g.Regular)
    {template : String} {opened final : List OpenTag}
    (hnames : frameNames g.frames = opened.map OpenTag.name) {events : List Event}
    (hfinal : openAfter? opened events = some final)
    (h : (events.foldl (step template o) g).NoErrors) :
    frameNames (events.foldl (step template o) g).frames = final.map OpenTag.name := by
  induction events generalizing g opened with
  | nil =>
    obtain rfl := Option.some.inj hfinal
    exact hnames
  | cons e events ih =>
    rw [Markup.openAfter?_cons, Option.bind_eq_some_iff] at hfinal
    obtain ⟨middle, hmiddle, hfinal⟩ := hfinal
    have hstep := h.of_extends (extends_foldl template o events _)
    exact ih (regular_step hmodules hg hstep)
      (frameNames_step hmodules hg hnames hmiddle hstep) hfinal h

end

/-! ### The whole markup -/

/-- After the given events, an end event takes away the frame that the start event put there to
which it belongs, with the children that came between them, and no other frame. -/
def PopsOwnFrame (template : String) (o : Options) (before : List Event) (name : String)
    (span : Span) : Prop :=
  ∃ outside attributes span' inner children frame nodes,
    before = outside ++ .startTag name attributes false span' :: inner ∧ Brackets inner children ∧
    (ofEvents template o (outside ++ [.startTag name attributes false span'])).frames =
      frame :: (ofEvents template o outside).frames ∧
    (ofEvents template o before).frames =
      { frame with children := nodes } :: (ofEvents template o outside).frames ∧
    (ofEvents template o (before ++ [.endTag name span])).frames.map Frame.head =
      (ofEvents template o outside).frames.map Frame.head

theorem ofEvents_append (template : String) (o : Options) (events more : List Event) :
    ofEvents template o (events ++ more) = more.foldl (step template o) (ofEvents template o events) :=
  List.foldl_append

section

variable {o : Options} {template : String} {events : List Event}
  (h : (ofEvents template o events).NoErrors)
include h

theorem noErrors_ofEvents_left [o.Additive] {before after : List Event}
    (hsplit : events = before ++ after) : (ofEvents template o before).NoErrors := by
  rw [hsplit, ofEvents_append] at h
  exact h.of_extends (extends_foldl template o after _)

theorem regular_ofEvents [o.Modest] (hmodules : ∀ m ∈ o.modules, m.Keeps Head.tag) :
    (ofEvents template o events).Regular :=
  regular_foldl hmodules ⟨rfl, rfl, rfl⟩ h

theorem popsOwnFrame [o.Modest] (hmodules : ∀ m ∈ o.modules, m.Keeps Head.tag)
    {outlines : List Outline} (hevents : Brackets events outlines) {before after : List Event}
    {name : String} {span : Span} (hsplit : events = before ++ .endTag name span :: after) :
    PopsOwnFrame template o before name span := by
  obtain ⟨outside, attributes, span', inner, children, rfl, hinner⟩ := hevents.endsElement hsplit
  have hfilled := noErrors_ofEvents_left h hsplit
  have houtside := noErrors_ofEvents_left hfilled rfl
  have hregular := regular_ofEvents houtside hmodules
  rw [ofEvents_append, List.foldl_cons] at hfilled
  have hopened := hfilled.of_extends (extends_foldl template o inner _)
  have hregular' := regular_step hmodules hregular hopened
  obtain ⟨⟨frame, nodes, hframe, hnodes⟩, helement⟩ := adds_element hmodules hregular hopened
    (adds_foldl hmodules hinner hregular' hfilled)
    (regular_foldl hmodules hregular' hfilled).skipped name span
  refine ⟨outside, attributes, span', inner, children, frame, nodes, rfl, hinner, ?_, ?_, ?_⟩
  · rw [ofEvents_append]
    exact hframe
  · rw [ofEvents_append]
    exact hnodes
  · rw [ofEvents_append, ofEvents_append]
    exact helement.map_head

/-- Text that is not blank stands in an element. -/
theorem text_in_element [o.Modest] (hmodules : ∀ m ∈ o.modules, m.Keeps Head.tag)
    {final : List OpenTag} (hopen : openAfter? [] events = some final) {before after : List Event}
    {content : String} {span : Option Span}
    (hsplit : events = before ++ .text content span :: after)
    (hcontent : allBlank content = false) :
    ∃ t outer, openAfter? [] before = some (t :: outer) := by
  rw [hsplit, openAfter?_append, Option.bind_eq_some_iff] at hopen
  obtain ⟨opened, hopened, -⟩ := hopen
  have hbefore := noErrors_ofEvents_left h hsplit
  have hempty : frameNames (Growth.frames {}) = List.map OpenTag.name [] := rfl
  have hnames : frameNames (ofEvents template o before).frames = opened.map OpenTag.name :=
    frameNames_foldl hmodules ⟨rfl, rfl, rfl⟩ hempty hopened hbefore
  cases opened with
  | cons t outer => exact ⟨t, outer, hopened⟩
  | nil =>
    -- no frame is open then, so the text would have been complained of
    have htext : ((ofEvents template o before).text template o content span).NoErrors := by
      have hwith : events = (before ++ [.text content span]) ++ after := by simpa using hsplit
      have htext := noErrors_ofEvents_left h hwith
      rwa [ofEvents_append] at htext
    have hblank := (text_outside (regular_ofEvents hbefore hmodules) (List.map_eq_nil_iff.1 hnames)
      htext).1
    rw [hcontent] at hblank
    cases hblank

end

end Growth

/-- What a tree has to do with the tags of its markup: there are none and there is no tree, or they
bracket one element, and the tree has its outline. -/
def OutlinesTags (events : List Event) (root : Option Element) : Prop :=
  (root = none ∧ ∀ e ∈ events, e.isTag = false) ∨
    ∃ e, root = some e ∧ ∀ forest, Brackets events forest ↔ forest = [e.outline]

theorem outlinesTags_tree {o : Options} [o.Modest] (hmodules : ∀ m ∈ o.modules, m.Keeps Head.tag)
    {template : String} (h : (Growth.ofEvents template o (parse o.markup template)).NoErrors) :
    OutlinesTags (parse o.markup template) (tree o template).1 := by
  obtain ⟨forest, hforest⟩ := exists_brackets_parse o.markup template
  have hadds : Growth.Adds forest {} (Growth.ofEvents template o (parse o.markup template)) :=
    Growth.adds_foldl hmodules hforest ⟨rfl, rfl, rfl⟩ h
  cases hadds with
  | inside children hframes => cases hframes
  | nothing _ _ hroot => exact .inl ⟨hroot, hforest.isTag_eq_false⟩
  | root _ _ _ _ hroot =>
    refine .inr ⟨_, hroot, fun forest' => ⟨fun hforest' => hforest'.unique hforest, ?_⟩⟩
    rintro rfl
    exact hforest

theorem OutlinesTags.map_finish {events : List Event} {root : Option Element}
    (h : OutlinesTags events root) (v : Overrides) : OutlinesTags events (root.map v.finish) := by
  obtain ⟨rfl, htags⟩ | ⟨e, rfl, hforest⟩ := h
  · exact .inl ⟨rfl, htags⟩
  · exact .inr ⟨v.finish e, rfl, by rwa [outline_finish]⟩

/-- A compile for the web without errors loses no element, whether or not the tree is checked: the
tags of the markup outline the tree, text that is not blank stands in an element, and every end tag
closes the frame of its own start tag. -/
theorem compile_outlinesTags {v : Overrides} (hmodules : v.modules = [])
    {check : Option (Element → List Report)} {template : String}
    (herrors : (Compiler.compile ⟨.web, webBackend, check⟩ v template).errors = []) :
    let o := Options.web.override v
    let events := parse o.markup (trim template)
    OutlinesTags events (Compiler.compile ⟨.web, webBackend, check⟩ v template).tree ∧
      (∀ before content span after, events = before ++ .text content span :: after →
        allBlank content = false → ∃ t outer, openAfter? [] before = some (t :: outer)) ∧
      ∀ before name span after, events = before ++ .endTag name span :: after →
        Growth.PopsOwnFrame (trim template) o before name span := by
  intro o events
  have hmodest : o.Modest := modest_override_web hmodules
  have hmodules' : ∀ m ∈ o.modules, m.Keeps Head.tag := keepsTag_override_web hmodules
  have hopen := openAfter?_parse o.markup (trim template)
  obtain ⟨forest, hforest⟩ := exists_brackets_parse o.markup (trim template)
  have hnoErrors : (Growth.ofEvents (trim template) o events).NoErrors := by
    unfold Compiler.compile at herrors
    simp only [Compiler.optionsFor, webBackend_eq] at herrors
    intro r hr
    exact Diagnostics.errors_of_eq_nil_iff.1 herrors r
      (List.mem_append_left _ (List.mem_reverse.2 hr))
  refine ⟨?_, ?_, ?_⟩
  · have htree : (Compiler.compile ⟨.web, webBackend, check⟩ v template).tree =
        (v.root? template).map v.finish := by
      unfold Compiler.compile
      simp only [Compiler.optionsFor, webBackend_eq]
      rfl
    rw [htree]
    exact (outlinesTags_tree hmodules' hnoErrors).map_finish v
  · intro before content span after hsplit hcontent
    exact Growth.text_in_element hnoErrors hmodules' hopen hsplit hcontent
  · intro before name span after hsplit
    exact Growth.popsOwnFrame hnoErrors hmodules' hforest hsplit

theorem compile_outlinesTags_sample :
    ∃ root, (Compiler.web.compile {} sampleBlock).tree = some root ∧
      Brackets (parse Options.web.markup (trim sampleBlock)) [root.outline] := by
  have hfacts : (Compiler.web.compile {} sampleBlock).errors = [] ∧
      (Compiler.web.compile {} sampleBlock).tree.isSome = true := by
    decide +kernel
  have hmodules : ({} : Overrides).modules = [] := rfl
  obtain ⟨houtlines, -, -⟩ := compile_outlinesTags hmodules hfacts.1
  obtain ⟨hnone, -⟩ | ⟨root, hroot, hforest⟩ := houtlines
  · have hsome : (none : Option Element).isSome = true := hnone ▸ hfacts.2
    cases hsome
  · exact ⟨root, hroot, (hforest _).2 rfl⟩

end HtmlTemplate.Template
