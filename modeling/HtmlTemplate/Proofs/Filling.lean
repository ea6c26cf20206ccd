import HtmlTemplate.Proofs.OpenFrames

/-!
# How an open element is filled

Growing a tree looks at one event at a time. `Fills` says what all events between the tags of an
element make of its frame, with what stands around it given by names only: what is text, which
elements get a node and which are left out. Every run of bracketed events is of this kind, whatever
is reported on the way (`Growth.fills_foldl`), and so every element of a tree arises from the events
between its own tags (`arises_of_holds`).
-/

namespace HtmlTemplate.Template

open Markup

/-! ### Filling -/

/-- What the events between the tags of an open element make of its frame, where elements of the
given names are open around it, innermost first. An element among them gets a node if there is room
for it and it only shows; of one that is left out, nothing stays. -/
inductive Fills (o : Options) : List String → Frame → List Event → Frame → Prop where
  | nil (above : List String) (frame : Frame) : Fills o above frame [] frame
  | warning {above : List String} {frame final : Frame} {events : List Event} (message : String)
      (range : Locus) (hrest : Fills o above frame events final) :
      Fills o above frame (.warning message range :: events) final
  | comment {above : List String} {frame final : Frame} {events : List Event} (content : String)
      (span : Span) (hrest : Fills o above (frame.add (.comment content span)) events final) :
      Fills o above frame (.comment content span :: events) final
  | text {above : List String} {frame final : Frame} {events : List Event} {kept : Bool}
      (content : String) (span : Option Span)
      (hkept : o.KeepsBlanks (frame.head.name :: above) kept)
      (hrest : Fills o above (frame.addContent o kept content span) events final) :
      Fills o above frame (.text content span :: events) final
  | unary {above : List String} {frame final : Frame} {events : List Event} {name : String}
      {attributes : List Attribute} {span : Span} {head : Head}
      (hroom : above.length + 1 < nestingLimit)
      (hhead : head = (Growth.headOfTag o name attributes true span).1)
      (hshows : Growth.hasSideEffects head = false)
      (hrest : Fills o above (frame.add (.element head [])) events final) :
      Fills o above frame (.startTag name attributes true span :: events) final
  | element {above : List String} {frame inside final : Frame} {inner rest : List Event}
      {kept : Bool} {name : String} {attributes : List Attribute} {span span' : Span} {head : Head}
      (hroom : above.length + 1 < nestingLimit)
      (hhead : head = (Growth.headOfTag o name attributes false span).1)
      (hshows : Growth.hasSideEffects head = false)
      (hinner : Fills o (frame.head.name :: above) ⟨head, [], .child⟩ inner inside)
      (hkept : o.KeepsBlanks (head.name :: frame.head.name :: above) kept)
      (hrest : Fills o above
        (frame.add (.element (head.endingAt span') (Growth.closedChildren kept inside.children)))
        rest final) :
      Fills o above frame
        (.startTag name attributes false span :: inner ++ .endTag name span' :: rest) final
  | leftUnary {above : List String} {frame final : Frame} {events : List Event} {name : String}
      {attributes : List Attribute} {span : Span}
      (hleft : nestingLimit ≤ above.length + 1 ∨
        Growth.hasSideEffects (Growth.headOfTag o name attributes true span).1 = true)
      (hrest : Fills o above frame events final) :
      Fills o above frame (.startTag name attributes true span :: events) final
  | leftElement {above : List String} {frame final : Frame} {inner rest : List Event}
      {outlines : List Outline} {name : String} {attributes : List Attribute} {span span' : Span}
      (hleft : nestingLimit ≤ above.length + 1 ∨
        Growth.hasSideEffects (Growth.headOfTag o name attributes false span).1 = true)
      (hinner : Brackets inner outlines) (hrest : Fills o above frame rest final) :
      Fills o above frame
        (.startTag name attributes false span :: inner ++ .endTag name span' :: rest) final

theorem Fills.same {o : Options} {above : List String} {frame final : Frame} {events : List Event}
    (h : Fills o above frame events final) :
    final.head = frame.head ∧ final.placement = frame.placement := by
  induction h with
  | nil => exact ⟨rfl, rfl⟩
  | warning _ _ _ ih => exact ih
  | comment _ _ _ ih => exact ih
  | @text _ frame _ _ kept content span _ _ ih =>
    obtain ⟨hhead, hplacement⟩ := frame.addContent_same o kept content span
    exact ⟨ih.1.trans hhead, ih.2.trans hplacement⟩
  | unary _ _ _ _ ih => exact ih
  | element _ _ _ _ _ _ _ ih => exact ih
  | leftUnary _ _ ih => exact ih
  | leftElement _ _ _ ih => exact ih

namespace Growth

section

variable {o : Options} {g : Growth} {frame : Frame} {outer : List Frame} {root : Option Element}
  (hg : g.Settled (frame :: outer) root)
include hg

/-- What an event that is no tag makes of the innermost open element. -/
theorem fills_content (template : String) (hcounted : o.KeepsNames → g.Counted o) {e : Event}
    (he : e.isTag = false) :
    ∃ next, (step template o g e).Settled (next :: outer) root ∧
      ∀ {events final}, Fills o (frameNames outer) next events final →
        Fills o (frameNames outer) frame (e :: events) final := by
  cases e with
  | startTag name attributes unary span => cases he
  | endTag name span => cases he
  | text content span =>
    have hkept := keepsBlanks_of_counted hcounted
    rw [hg.frames] at hkept
    exact ⟨_, hg.text_eq template content span, .text content span hkept⟩
  | comment content span => exact ⟨_, hg.comment_eq content span, .comment content span⟩
  | warning message range =>
    exact ⟨frame, ⟨hg.frames, hg.root, hg.skipped⟩, .warning message range⟩

/-- What an element without an end tag makes of the innermost open element. -/
theorem fills_unary [o.Modest] (name : String) (attributes : List Attribute) (span : Span) :
    ∃ next, (g.start o name attributes true span).Settled (next :: outer) root ∧
      ∀ {events final}, Fills o (frameNames outer) next events final →
        Fills o (frameNames outer) frame (.startTag name attributes true span :: events) final := by
  by_cases hroom : outer.length + 1 < nestingLimit
  · have hstart := hg.start_unary (o := o) hroom name attributes span
    dsimp only at hstart
    rw [← length_frameNames] at hroom
    cases hshows : hasSideEffects (headOfTag o name attributes true span).1 with
    | true =>
      rw [hshows, if_pos rfl] at hstart
      exact ⟨_, hstart, .leftUnary (.inr hshows)⟩
    | false =>
      rw [hshows, if_neg Bool.false_ne_true] at hstart
      exact ⟨_, hstart, .unary hroom rfl hshows⟩
  · have hdeep : nestingLimit ≤ outer.length + 1 := Nat.le_of_not_lt hroom
    have hframes : nestingLimit ≤ g.frames.length := by rwa [hg.frames, List.length_cons]
    rw [start_unary_of_tooDeep o hframes]
    rw [← length_frameNames] at hdeep
    exact ⟨frame, hg.withReports _ true, .leftUnary (.inl hdeep)⟩

end

/-- What an element makes of the innermost open element if there is room for it, given what the
events in it make of the element itself. -/
theorem fills_element {o : Options} {g : Growth} {frame inside : Frame} {outer : List Frame}
    {root : Option Element} (hroom : outer.length + 1 < nestingLimit) (template : String)
    {inner : List Event} {outlines : List Outline} (hinner : Brackets inner outlines)
    (name : String) (attributes : List Attribute) (span span' : Span)
    (hcounted : o.KeepsNames →
      (inner.foldl (step template o) (g.start o name attributes false span)).Counted o)
    (hinside : Fills o (frameNames (frame :: outer))
      ⟨(headOfTag o name attributes false span).1, [],
        if hasSideEffects (headOfTag o name attributes false span).1 then .detached else .child⟩
      inner inside)
    (hlast : (inner.foldl (step template o) (g.start o name attributes false span)).Settled
      (inside :: frame :: outer) root) :
    ∃ next, ((inner.foldl (step template o)
        (g.start o name attributes false span)).finish o span').Settled (next :: outer) root ∧
      ∀ {events final}, Fills o (frameNames outer) next events final →
        Fills o (frameNames outer) frame
          (.startTag name attributes false span :: inner ++ .endTag name span' :: events)
          final := by
  rw [← length_frameNames] at hroom
  obtain ⟨hhead, hplacement⟩ := hinside.same
  cases hshows : hasSideEffects (headOfTag o name attributes false span).1 with
  | true =>
    rw [hshows, if_pos rfl] at hplacement
    exact ⟨frame, hlast.finish_detached rfl hplacement span', .leftElement (.inr hshows) hinner⟩
  | false =>
    have hkept := keepsBlanks_of_counted hcounted
    rw [hlast.frames, frameNames, List.map_cons, hhead] at hkept
    rw [hshows, if_neg Bool.false_ne_true] at hplacement hinside
    have hdone := hlast.finish_child (o := o) rfl hplacement span'
    rw [hhead] at hdone
    exact ⟨_, hdone, .element hroom rfl hshows hinside hkept⟩

/-- Bracketed events fill the innermost open element and leave all others alone. -/
theorem fills_foldl {o : Options} [o.Modest] (template : String) {events : List Event}
    {outlines : List Outline} (h : Brackets events outlines) {g : Growth} {frame : Frame}
    {outer : List Frame} {root : Option Element} (hg : g.Settled (frame :: outer) root)
    (hcounted : o.KeepsNames → g.Counted o) :
    ∃ final, Fills o (frameNames outer) frame events final ∧
      (events.foldl (step template o) g).Settled (final :: outer) root := by
  induction h generalizing g frame outer with
  | nil => exact ⟨frame, .nil _ _, hg⟩
  | @content e events outlines he _ ih =>
    obtain ⟨next, hnext, hfills⟩ := fills_content hg template hcounted he
    obtain ⟨final, hrest, hfinal⟩ :=
      ih hnext fun hnames => counted_step hnames (hcounted hnames) template e
    exact ⟨final, hfills hrest, hfinal⟩
  | @unary events outlines name attributes span _ ih =>
    obtain ⟨next, hnext, hfills⟩ := fills_unary (o := o) hg name attributes span
    obtain ⟨final, hrest, hfinal⟩ := ih hnext fun hnames =>
      counted_start hnames (hcounted hnames) name attributes true span
    exact ⟨final, hfills hrest, hfinal⟩
  | @element inner rest children outlines name attributes span span' hinner _ ihinner ihrest =>
    by_cases hroom : outer.length + 1 < nestingLimit
    · have hopened := fun hnames =>
        counted_start hnames (hcounted hnames) name attributes false span
      have hfilled := fun hnames => counted_foldl hnames (hopened hnames) template inner
      obtain ⟨inside, hinside, hlast⟩ :=
        ihinner (hg.start_element (o := o) hroom name attributes span) hopened
      obtain ⟨next, hnext, hfills⟩ :=
        fills_element hroom template hinner name attributes span span' hfilled hinside hlast
      obtain ⟨final, hrest, hfinal⟩ :=
        ihrest hnext fun hnames => counted_finish (hfilled hnames) span'
      rw [foldl_element]
      exact ⟨final, hfills hrest, hfinal⟩
    · have hdeep : nestingLimit ≤ outer.length + 1 := Nat.le_of_not_lt hroom
      have hframes : nestingLimit ≤ g.frames.length := by rwa [hg.frames, List.length_cons]
      rw [foldl_of_tooDeep template o hinner hg.skipped hframes]
      rw [← length_frameNames] at hdeep
      obtain ⟨final, hrest, hfinal⟩ :=
        ihrest (hg.withReports (warned inner ++ g.reportsWith span) true) hcounted
      exact ⟨final, .leftElement (.inl hdeep) hinner hrest, hfinal⟩

end Growth

/-! ### Where elements come from -/

/-- An element in a node, with the names of the elements around it, innermost first; those around
the node are given. -/
inductive Node.Holds : List String → Node → List String → Element → Prop where
  | self (outer : List String) (head : Head) (children : List Node) :
      Holds outer (.element head children) outer ⟨head, children⟩
  | child {outer above : List String} {head : Head} {children : List Node} {n : Node} {e : Element}
      (hn : n ∈ children) (h : Holds (head.name :: outer) n above e) :
      Holds outer (.element head children) above e

/-- The element is made of its tags and the events between them. -/
inductive Arises (o : Options) (above : List String) (events : List Event) : Element → Prop where
  | unary {name : String} {attributes : List Attribute} {span : Span} {head : Head}
      (hpart : [.startTag name attributes true span] <:+: events)
      (hroom : above.length < nestingLimit)
      (hhead : head = (Growth.headOfTag o name attributes true span).1) :
      Arises o above events ⟨head, []⟩
  | element {name : String} {attributes : List Attribute} {span span' : Span} {head : Head}
      {inner : List Event} {placement : Place} {inside : Frame} {kept : Bool}
      (hpart : .startTag name attributes false span :: inner ++ [.endTag name span'] <:+: events)
      (hroom : above.length < nestingLimit)
      (hhead : head = (Growth.headOfTag o name attributes false span).1)
      (hinner : Fills o above ⟨head, [], placement⟩ inner inside)
      (hkept : o.KeepsBlanks (head.name :: above) kept) :
      Arises o above events ⟨head.endingAt span', Growth.closedChildren kept inside.children⟩

theorem Arises.mono {o : Options} {above : List String} {events more : List Event} {e : Element}
    (h : Arises o above events e) (hle : events <:+: more) : Arises o above more e := by
  cases h with
  | unary hpart hroom hhead => exact .unary (hpart.trans hle) hroom hhead
  | element hpart hroom hhead hinner hkept =>
    exact .element (hpart.trans hle) hroom hhead hinner hkept

theorem infix_rest (first : List Event) {rest whole : List Event} (h : first ++ rest <:+: whole) :
    rest <:+: whole :=
  (List.suffix_append first rest).isInfix.trans h

theorem infix_after_element {inner rest whole : List Event} {e e' : Event}
    (h : e :: inner ++ e' :: rest <:+: whole) : rest <:+: whole :=
  infix_rest [e'] (infix_rest (e :: inner) h)

theorem infix_of_element {inner rest whole : List Event} {e e' : Event}
    (h : e :: inner ++ e' :: rest <:+: whole) : e :: inner ++ [e'] <:+: whole := by
  refine List.IsInfix.trans (List.prefix_append _ rest).isInfix ?_
  rwa [List.append_assoc]

theorem mem_children_addContent {o : Options} {kept : Bool} {content : String}
    {span : Option Span} {frame : Frame} {n : Node}
    (h : n ∈ (frame.addContent o kept content span).children) :
    n ∈ frame.children ∨ ∃ run, n = .text run := by
  unfold Frame.addContent Growth.addText at h
  split at h
  · exact .inl h
  split at h
  · split at h
    · exact .inr ⟨_, List.mem_singleton.1 h⟩
    split at h
    · exact .inl h
    · exact (List.mem_cons.1 h).symm.imp_right fun hn => ⟨_, hn⟩
  · exact (List.mem_cons.1 h).symm.imp_right fun hn => ⟨_, hn⟩

/-- Every element in a node that was added arises from events among those that filled the frame. -/
theorem Fills.arises {o : Options} {above : List String} {frame final : Frame}
    {events whole : List Event} (h : Fills o above frame events final) (hwhole : events <:+: whole)
    {n : Node} (hn : n ∈ final.children) :
    n ∈ frame.children ∨
      ∀ names e, n.Holds (frame.head.name :: above) names e → Arises o names whole e := by
  induction h generalizing n with
  | nil => exact .inl hn
  | warning message range _ ih => exact ih (infix_rest [_] hwhole) hn
  | comment content span _ ih =>
    rcases ih (infix_rest [_] hwhole) hn with hn | hn
    · rcases List.mem_cons.1 hn with rfl | hn
      · exact .inr fun names e hholds => by cases hholds
      · exact .inl hn
    · exact .inr hn
  | @text above frame final events kept content span hkept _ ih =>
    have hsame := (frame.addContent_same o kept content span).1
    rcases ih (infix_rest [_] hwhole) hn with hn | hn
    · rcases mem_children_addContent hn with hn | ⟨run, rfl⟩
      · exact .inl hn
      · exact .inr fun names e hholds => by cases hholds
    · exact .inr (hsame ▸ hn)
  | unary hroom hhead _ _ ih =>
    rcases ih (infix_rest [_] hwhole) hn with hn | hn
    · rcases List.mem_cons.1 hn with rfl | hn
      · refine .inr fun names e hholds => ?_
        cases hholds with
        | self => exact .unary ((List.prefix_append [_] _).isInfix.trans hwhole) hroom hhead
        | child hm => cases hm
      · exact .inl hn
    · exact .inr hn
  | @element above frame inside final inner rest kept name attributes span span' head hroom hhead _
      hinner hkept _ ihinner ihrest =>
    rcases ihrest (infix_after_element hwhole) hn with hn | hn
    · rcases List.mem_cons.1 hn with rfl | hn
      · refine .inr fun names e hholds => ?_
        have hpart := infix_of_element hwhole
        cases hholds with
        | self => exact .element hpart hroom hhead hinner hkept
        | @child _ _ _ _ m _ hm hholds =>
          have hinside : inner <:+: whole :=
            List.IsInfix.trans ⟨[_], [_], rfl⟩ hpart
          rcases ihinner hinside (Growth.mem_of_mem_closedChildren hm) with hm | hm
          · cases hm
          · exact hm names e hholds
      · exact .inl hn
    · exact .inr hn
  | leftUnary _ _ ih => exact ih (infix_rest [_] hwhole) hn
  | @leftElement above frame final inner rest _ _ _ _ _ _ _ _ ih =>
    exact ih (infix_after_element hwhole) hn

theorem Arises.holds {o : Options} {outer : List String} {whole : List Event} {e : Element}
    (h : Arises o outer whole e) {names : List String} {e' : Element}
    (hholds : e.toNode.Holds outer names e') : Arises o names whole e' := by
  cases hholds with
  | self => exact h
  | child hn hholds =>
    cases h with
    | unary => cases hn
    | @element name attributes span span' head inner placement inside kept hpart hroom hhead hinner
        hkept =>
      have hinside : inner <:+: whole := List.IsInfix.trans ⟨[_], [_], rfl⟩ hpart
      rcases hinner.arises hinside (Growth.mem_of_mem_closedChildren hn) with hm | hm
      · cases hm
      · exact hm names e' hholds

/-! ### The root -/

namespace Growth

section

variable {o : Options} {g : Growth} {root : Option Element} (h : g.Settled [] root)
include h

theorem Settled.content_outside (template : String) {e : Event} (he : e.isTag = false) :
    (step template o g e).Settled [] root := by
  cases e with
  | startTag name attributes unary span => cases he
  | endTag name span => cases he
  | text content span =>
    have hsame : (g.text template o content span).SameFrames g := by
      unfold text
      rw [if_neg (by simp [h.skipped]), h.frames]
      dsimp only
      split
      · exact sameFrames_complain _ g
      split
      · exact ⟨rfl, rfl, rfl, rfl⟩
      · exact sameFrames_complain _ g
    exact hsame.settled h
  | comment content span =>
    have hcomment : step template o g (.comment content span) = g := by
      rw [step, comment, if_neg (by simp [h.skipped]), h.frames]
    rwa [hcomment]
  | warning message range => exact ⟨h.frames, h.root, h.skipped⟩

/-- Outside elements a start tag finds room, and its element is the root or is dropped. -/
theorem Settled.start_outside [o.Modest] (name : String) (attributes : List Attribute)
    (unary : Bool) (span : Span) :
    ∃ placed : Growth, ∃ placement, placed.Settled [] root ∧ placement ≠ .child ∧
      g.start o name attributes unary span =
        placed.enter o name unary
          ⟨(headOfTag o name attributes unary span).1, [], placement⟩ := by
  have hlength : g.frames.length < nestingLimit := by
    rw [h.frames]
    exact Nat.succ_pos 127
  obtain ⟨reports, hstart⟩ := Growth.start_eq o name attributes unary span h.skipped hlength
  generalize (headOfTag o name attributes unary span).1 = head at hstart ⊢
  have hsame := sameFrames_place head { g with reports := reports ++ g.reports }
  refine ⟨_, _, hsame.settled (h.withReports (reports ++ g.reports) g.skippedOnce), ?_, hstart⟩
  unfold place
  cases hasSideEffects head <;> cases hseen : g.rootSeen <;> simp [report, h.frames]

theorem Settled.close_outside (last : Frame) (hplacement : last.placement ≠ .child) :
    ∃ root', (g.close o last).Settled [] root' ∧
      (root' = root ∨ root' = some
        ⟨last.head, closedChildren (decide (g.preformatted > 0)) last.children⟩) := by
  rw [close_eq]
  cases hplace : last.placement with
  | root => exact ⟨_, ⟨h.frames, rfl, h.skipped⟩, .inr rfl⟩
  | child => exact absurd hplace hplacement
  | detached => exact ⟨root, ⟨h.frames, h.root, h.skipped⟩, .inl rfl⟩

end

/-- The root after some events is the one before, or it arises from them. -/
def RootFrom (o : Options) (events : List Event) (root root' : Option Element) : Prop :=
  root' = root ∨ ∃ e, root' = some e ∧ Arises o [] events e

theorem RootFrom.mono {o : Options} {events more : List Event} {root root' : Option Element}
    (h : RootFrom o events root root') (hle : events <:+: more) : RootFrom o more root root' :=
  h.imp_right fun ⟨e, hroot, harises⟩ => ⟨e, hroot, harises.mono hle⟩

theorem RootFrom.trans {o : Options} {first rest whole : List Event}
    {root root₁ root₂ : Option Element} (h : RootFrom o first root root₁)
    (h' : RootFrom o rest root₁ root₂) (hfirst : first <:+: whole) (hrest : rest <:+: whole) :
    RootFrom o whole root root₂ := by
  obtain rfl | ⟨e, rfl, harises⟩ := h'
  · exact h.mono hfirst
  · exact .inr ⟨e, rfl, harises.mono hrest⟩

theorem rootFrom_unary {o : Options} [o.Modest] {g : Growth} {root : Option Element}
    (hg : g.Settled [] root) (name : String) (attributes : List Attribute) (span : Span) :
    ∃ root', (g.start o name attributes true span).Settled [] root' ∧
      RootFrom o [.startTag name attributes true span] root root' := by
  obtain ⟨placed, placement, hplaced, hplacement, hstart⟩ :=
    hg.start_outside (o := o) name attributes true span
  obtain ⟨n, hn⟩ := recount_eq (o.isPreformatted name) (placed.preformatted + 1) placed
  have hcounted : Settled { placed with preformatted := n } [] root :=
    ⟨hplaced.frames, hplaced.root, hplaced.skipped⟩
  obtain ⟨root', hclosed, hroot⟩ := hcounted.close_outside (o := o)
    ⟨(headOfTag o name attributes true span).1, [], placement⟩ hplacement
  rw [hstart, enter, hn]
  refine ⟨root', hclosed, hroot.imp_right fun hroot => ⟨_, hroot, ?_⟩⟩
  rw [closedChildren_nil]
  exact .unary (List.infix_refl _) (Nat.succ_pos 127) rfl

theorem rootFrom_element {o : Options} [o.Modest] (template : String) {inner : List Event}
    {outlines : List Outline} (hinner : Brackets inner outlines) {g : Growth}
    {root : Option Element} (hg : g.Settled [] root) (hcounted : o.KeepsNames → g.Counted o)
    (name : String) (attributes : List Attribute) (span span' : Span) :
    ∃ root', ((inner.foldl (step template o)
        (g.start o name attributes false span)).finish o span').Settled [] root' ∧
      RootFrom o (.startTag name attributes false span :: inner ++ [.endTag name span'])
        root root' := by
  obtain ⟨placed, placement, hplaced, hplacement, hstart⟩ :=
    hg.start_outside (o := o) name attributes false span
  obtain ⟨n, hn⟩ := recount_eq (o.isPreformatted name) (placed.preformatted + 1) placed
  have hopened : (g.start o name attributes false span).Settled
      [⟨(headOfTag o name attributes false span).1, [], placement⟩] root := by
    rw [hstart, enter, hn]
    exact ⟨congrArg _ hplaced.frames, hplaced.root, hplaced.skipped⟩
  have hcounted' := fun hnames => counted_start hnames (hcounted hnames) name attributes false span
  have hfilled := fun hnames => counted_foldl hnames (hcounted' hnames) template inner
  obtain ⟨inside, hinside, hlast⟩ := fills_foldl template hinner hopened hcounted'
  obtain ⟨hhead, hinplace⟩ := hinside.same
  have hkept := keepsBlanks_of_counted hfilled
  rw [hlast.frames, frameNames, List.map_cons, hhead] at hkept
  obtain ⟨popped, hpopped, hcount, hfinish⟩ := hlast.finish_eq (o := o) span'
  obtain ⟨root', hclosed, hroot⟩ := hpopped.close_outside (o := o)
    { inside with head := inside.head.endingAt span' } (by rwa [hinplace])
  rw [hfinish]
  refine ⟨root', hclosed, hroot.imp_right fun hroot => ⟨_, hroot, ?_⟩⟩
  have hroom : ([] : List String).length < nestingLimit := Nat.succ_pos 127
  have harises := Arises.element
    (List.infix_refl (.startTag name attributes false span :: inner ++ [.endTag name span']))
    hroom rfl hinside hkept
  rw [hcount, hhead]
  exact harises

/-- Bracketed events outside elements leave nothing open, and if they give a root, it arises from
them. -/
theorem root_foldl {o : Options} [o.Modest] (template : String) {events : List Event}
    {outlines : List Outline} (h : Brackets events outlines) {g : Growth} {root : Option Element}
    (hg : g.Settled [] root) (hcounted : o.KeepsNames → g.Counted o) :
    ∃ root', (events.foldl (step template o) g).Settled [] root' ∧
      RootFrom o events root root' := by
  induction h generalizing g root with
  | nil => exact ⟨root, hg, .inl rfl⟩
  | @content e events outlines he _ ih =>
    have hcounted' := fun hnames => counted_step hnames (hcounted hnames) template e
    obtain ⟨root', hfinal, hroot⟩ := ih (hg.content_outside template he) hcounted'
    exact ⟨root', hfinal, hroot.mono (List.suffix_cons e events).isInfix⟩
  | @unary events outlines name attributes span _ ih =>
    have hcounted' := fun hnames =>
      counted_step hnames (hcounted hnames) template (.startTag name attributes true span)
    obtain ⟨root₁, hstart, hfirst⟩ :=
      rootFrom_unary (o := o) hg name attributes span
    obtain ⟨root', hfinal, hroot⟩ := ih hstart hcounted'
    exact ⟨root', hfinal, hfirst.trans hroot (List.prefix_append [_] events).isInfix
      (List.suffix_cons _ events).isInfix⟩
  | @element inner rest children outlines name attributes span span' hinner _ _ ihrest =>
    have hcounted' := fun hnames => counted_finish (counted_foldl hnames
      (counted_start hnames (hcounted hnames) name attributes false span) template inner) span'
    obtain ⟨root₁, hfirst, hroot₁⟩ :=
      rootFrom_element template hinner hg hcounted name attributes span span'
    obtain ⟨root', hfinal, hroot⟩ := ihrest hfirst hcounted'
    rw [foldl_element]
    exact ⟨root', hfinal, hroot₁.trans hroot (infix_of_element (List.infix_refl _))
      (infix_after_element (List.infix_refl _))⟩

/-- The events of a markup leave no element open, and the root arises from them. -/
theorem settled_ofEvents (o : Options) [o.Modest] (template markup : String) :
    ∃ root, (ofEvents template o (parse o.markup markup)).Settled [] root ∧
      ∀ e ∈ root, Arises o [] (parse o.markup markup) e := by
  obtain ⟨outlines, hevents⟩ := exists_brackets_parse o.markup markup
  obtain ⟨root, hfinal, hroot⟩ :=
    root_foldl (o := o) template hevents (g := {}) ⟨rfl, rfl, rfl⟩ fun _ => rfl
  refine ⟨root, hfinal, fun e he => ?_⟩
  obtain rfl | ⟨e', rfl, harises⟩ := hroot
  · cases he
  · exact Option.some.inj he ▸ harises

end Growth

/-- Every element of a tree arises from events of the markup. -/
theorem arises_of_holds {o : Options} [o.Modest] {template : String} {root : Element}
    (hroot : (tree o template).1 = some root) {names : List String} {e : Element}
    (h : root.toNode.Holds [] names e) : Arises o names (parse o.markup template) e := by
  obtain ⟨root', hfinal, harises⟩ := Growth.settled_ofEvents o template template
  have hsome : root' = some root := hfinal.root.symm.trans hroot
  exact (harises root hsome).holds h

/-- Every element stands somewhere. -/
theorem Node.exists_holds {n : Node} {e : Element} (h : e ∈ n.elements) (outer : List String) :
    ∃ above, n.Holds outer above e := by
  induction n using Node.induction generalizing outer with
  | text run => cases h
  | comment content span => cases h
  | element head children ih =>
    rcases List.mem_cons.1 h with rfl | h
    · exact ⟨outer, .self outer head children⟩
    · obtain ⟨n, hn, h⟩ := mem_elementsAll.1 h
      obtain ⟨above, hholds⟩ := ih n hn h (head.name :: outer)
      exact ⟨above, .child hn hholds⟩

/-- The head of every element is that of a start tag, but for where the element ends. -/
theorem exists_headOfTag {o : Options} [o.Modest] {template : String} {root : Element}
    (hroot : (tree o template).1 = some root) {e : Element} (he : e ∈ root.toNode.elements) :
    ∃ name attributes unary span span',
      e.head = { (Growth.headOfTag o name attributes unary span).1 with span := span' } := by
  obtain ⟨above, hholds⟩ := Node.exists_holds he []
  cases arises_of_holds hroot hholds with
  | unary _ _ hhead => exact ⟨_, _, _, _, _, hhead⟩
  | element _ _ hhead => exact ⟨_, _, _, _, _, congrArg (Head.endingAt · _) hhead⟩

end HtmlTemplate.Template
