import HtmlTemplate.Proofs.Outline

/-!
# What events do to open elements

The open elements stand in frames, next to a count of those that are preformatted, the root and the
reports. The count is that of the open preformatted elements throughout (`Growth.counted_foldl`),
one event closes, opens or adds to the innermost frame only (`Growth.Settled`), and an element that
is too deep leaves nothing but reports, from its start tag to its end tag
(`Growth.foldl_of_tooDeep`).
-/

namespace HtmlTemplate.Template

open Markup

/-- The modules only change heads, and leave the names of elements alone. -/
structure Options.KeepsNames (o : Options) : Prop where
  modest : o.Modest
  names : ∀ m ∈ o.modules, m.Keeps Head.name

/-- Whether blanks are kept where elements of these names are open. The count of preformatted
elements says so only if no module gives an element another name on the way. -/
def Options.KeepsBlanks (o : Options) (names : List String) (kept : Bool) : Prop :=
  o.KeepsNames → kept = names.any o.isPreformatted

theorem keepsNames_override_web {v : Overrides} (hmodules : v.modules = []) :
    (Options.web.override v).KeepsNames where
  modest := modest_override_web hmodules
  names m hm s head := congrArg Prod.fst (keepsTag_override_web hmodules m hm s head)

theorem Options.KeepsNames.headOfTag {o : Options} (h : o.KeepsNames) (name : String)
    (attributes : List Attribute) (unary : Bool) (span : Span) :
    (Growth.headOfTag o name attributes unary span).1.name = name :=
  Growth.keeps_transformHead h.names o.toSettings _

namespace Growth

/-! ### Reports on what is too deep -/

/-- The state with other reports, which say that an element was too deep or do not. -/
def withReports (reports : List Report) (once : Bool) (g : Growth) : Growth :=
  { g with reports := reports, skippedOnce := once }

/-- The reports with one on an element that is too deep, unless there was one before. -/
def reportsWith (span : Span) (g : Growth) : List Report :=
  if g.skippedOnce then g.reports else tooDeeplyNested span :: g.reports

theorem skip_eq (unary : Bool) (span : Span) (g : Growth) :
    g.skip unary span =
      { g.withReports (g.reportsWith span) true with
        skipped := if unary then g.skipped else g.skipped + 1 } := by
  obtain ⟨_, _, _, _, _, _, once, _⟩ := g
  cases once <;> cases unary <;> rfl

/-! ### The count of preformatted elements -/

/-- The count is that of the open elements that are preformatted. -/
def Counted (o : Options) (g : Growth) : Prop :=
  g.preformatted = (frameNames g.frames).countP o.isPreformatted

/-- What an event does around the open elements leaves them and their count alone. -/
structure SameFrames (g' g : Growth) : Prop where
  frames : g'.frames = g.frames
  root : g'.root = g.root
  preformatted : g'.preformatted = g.preformatted
  skipped : g'.skipped = g.skipped

theorem SameFrames.trans {first second third : Growth} (h : first.SameFrames second)
    (h' : second.SameFrames third) : first.SameFrames third :=
  ⟨h.frames.trans h'.frames, h.root.trans h'.root, h.preformatted.trans h'.preformatted,
    h.skipped.trans h'.skipped⟩

theorem SameFrames.counted {o : Options} {g g' : Growth} (h : g'.SameFrames g)
    (hg : g.Counted o) : g'.Counted o := by
  rw [Counted, h.preformatted, h.frames]
  exact hg

theorem sameFrames_complain (r : Report) (g : Growth) : (g.complain r).SameFrames g := by
  unfold complain
  split <;> exact ⟨rfl, rfl, rfl, rfl⟩

theorem sameFrames_place (head : Head) (g : Growth) : (g.place head).2.SameFrames g := by
  unfold place
  dsimp only
  have hreported :
      (if hasSideEffects head then g.report (sideEffects head) else g).SameFrames g := by
    split <;> exact ⟨rfl, rfl, rfl, rfl⟩
  generalize (if hasSideEffects head then g.report (sideEffects head) else g) = g' at hreported ⊢
  refine SameFrames.trans ?_ hreported
  split
  · exact ⟨rfl, rfl, rfl, rfl⟩
  split
  · exact sameFrames_complain _ g'
  split
  · exact (sameFrames_complain (unfitRoot head) { g' with rootSeen := true }).trans
      ⟨rfl, rfl, rfl, rfl⟩
  · exact ⟨rfl, rfl, rfl, rfl⟩

theorem length_frameNames (frames : List Frame) : (frameNames frames).length = frames.length :=
  List.length_map _

theorem frameNames_close (o : Options) (frame : Frame) (g : Growth) :
    frameNames (g.close o frame).frames = frameNames g.frames := by
  rw [frameNames_eq, map_head_close, ← frameNames_eq]

theorem preformatted_close (o : Options) (frame : Frame) (g : Growth) :
    (g.close o frame).preformatted =
      if o.isPreformatted frame.head.name then g.preformatted - 1 else g.preformatted := by
  unfold close
  cases o.isPreformatted frame.head.name <;> dsimp only <;> split <;> rfl

/-- Closing an element takes it out of the count. -/
theorem counted_close (o : Options) {frame : Frame} {g : Growth}
    (h : g.preformatted = (frameNames (frame :: g.frames)).countP o.isPreformatted) :
    (g.close o frame).Counted o := by
  rw [Counted, preformatted_close, frameNames_close, h, frameNames, List.map_cons, List.countP_cons]
  split
  · rw [Nat.add_sub_cancel]
    rfl
  · rfl

theorem head_addText (d : Delimiters) (text : String) (span : Option Span) (frame : Frame) :
    (addText d text span frame).head = frame.head :=
  (sameOutlines_addText d text span frame).1

section

variable {o : Options} (hnames : o.KeepsNames) {g : Growth} (h : g.Counted o)
include h

theorem counted_finish (span : Span) : (g.finish o span).Counted o := by
  unfold finish
  split
  · exact h
  split
  · exact h
  · next frame outer hframes =>
    apply counted_close
    rw [Counted, hframes] at h
    exact h

theorem counted_text (template content : String) (span : Option Span) :
    (g.text template o content span).Counted o := by
  unfold text
  split
  · exact h
  split
  · split
    · exact (sameFrames_complain _ g).counted h
    split
    · exact h
    · exact (sameFrames_complain _ g).counted h
  · next frame outer hframes =>
    split
    · exact h
    · rw [Counted, hframes] at h
      rw [Counted]
      simpa [frameNames, head_addText] using h

theorem counted_comment (content : String) (span : Span) : (g.comment content span).Counted o := by
  unfold comment
  split
  · exact h
  split
  · exact h
  · next frame outer hframes =>
    rw [Counted, hframes] at h
    exact h

include hnames

theorem counted_start (name : String) (attributes : List Attribute) (unary : Bool) (span : Span) :
    (g.start o name attributes unary span).Counted o := by
  have hmodest := hnames.modest
  rw [start_eq_ite]
  split
  · rw [skip_eq]
    exact h
  · have hname := hnames.headOfTag name attributes unary span
    generalize headOfTag o name attributes unary span = tag at hname ⊢
    dsimp only
    have hplaced := sameFrames_place tag.1 { g with reports := tag.2.reverse ++ g.reports }
    generalize place tag.1 { g with reports := tag.2.reverse ++ g.reports } = placed at hplaced ⊢
    have hcounted : placed.2.Counted o := hplaced.counted h
    rw [Counted] at hcounted
    subst hname
    -- the frame is counted when it gets its place, before it is known whether it is closed at once
    unfold enter
    cases unary with
    | true =>
      rw [if_pos rfl]
      apply counted_close
      cases hpre : o.isPreformatted tag.1.name <;> simp [frameNames, hpre, hcounted]
    | false =>
      rw [if_neg Bool.false_ne_true, Counted]
      cases hpre : o.isPreformatted tag.1.name <;> simp [frameNames, hpre, hcounted]

theorem counted_step (template : String) (e : Event) : (step template o g e).Counted o := by
  cases e with
  | startTag name attributes unary span => exact counted_start hnames h name attributes unary span
  | endTag name span => exact counted_finish h span
  | text content span => exact counted_text h template content span
  | comment content span => exact counted_comment h content span
  | warning message range => exact h

theorem counted_foldl (template : String) (events : List Event) :
    (events.foldl (step template o) g).Counted o := by
  induction events generalizing g with
  | nil => exact h
  | cons e events ih => exact ih (counted_step hnames h template e)

end

/-- The count says whether a preformatted element is open. -/
theorem keepsBlanks_of_counted {o : Options} {g : Growth} (h : o.KeepsNames → g.Counted o) :
    o.KeepsBlanks (frameNames g.frames) (decide (g.preformatted > 0)) := by
  intro hnames
  rw [h hnames, Bool.eq_iff_iff, decide_eq_true_iff, List.any_eq_true]
  exact List.countP_pos_iff

/-! ### Closing -/

/-- The children of an element that is closed: spaces at the end go, unless blanks are kept. -/
def closedChildren (kept : Bool) (children : List Node) : List Node :=
  (if kept then children else children.dropWhile isSpace).reverse

theorem mem_of_mem_closedChildren {kept : Bool} {children : List Node} {n : Node}
    (h : n ∈ closedChildren kept children) : n ∈ children := by
  rw [closedChildren, List.mem_reverse] at h
  split at h
  · exact h
  · exact (List.dropWhile_sublist _).subset h

theorem closedChildren_nil (kept : Bool) : closedChildren kept [] = [] := by
  cases kept <;> rfl

end Growth

/-- The frame with one more child. -/
def Frame.add (frame : Frame) (n : Node) : Frame := { frame with children := n :: frame.children }

/-- The head of an element whose end tag has the given span. -/
def Head.endingAt (head : Head) (span : Span) : Head :=
  { head with span := .between head.span.start span.stop }

/-- The frame after a text event. -/
def Frame.addContent (o : Options) (kept : Bool) (content : String) (span : Option Span)
    (frame : Frame) : Frame :=
  match Growth.textFor kept frame content with
  | none => frame
  | some text => Growth.addText o.delimiters text span frame

theorem Frame.addContent_same (o : Options) (kept : Bool) (content : String) (span : Option Span)
    (frame : Frame) :
    (frame.addContent o kept content span).head = frame.head ∧
      (frame.addContent o kept content span).placement = frame.placement := by
  unfold addContent
  split
  · exact ⟨rfl, rfl⟩
  · next text _ =>
    have hsame := Growth.sameOutlines_addText o.delimiters text span frame
    exact ⟨hsame.1, hsame.2.1⟩

namespace Growth

/-- Closing an element puts it where it belongs and changes the count. -/
theorem close_eq (o : Options) (frame : Frame) (g : Growth) :
    g.close o frame =
      let children := closedChildren (decide (g.preformatted > 0)) frame.children
      { g with
        preformatted :=
          if o.isPreformatted frame.head.name then g.preformatted - 1 else g.preformatted
        root := match frame.placement with
          | .root => some ⟨frame.head, children⟩
          | .child => g.root
          | .detached => g.root
        frames := match frame.placement, g.frames with
          | .child, parent :: outer => parent.add (.element frame.head children) :: outer
          | _, frames => frames } := by
  have hchildren : (if g.preformatted == 0 then frame.children.dropWhile isSpace
      else frame.children).reverse =
        closedChildren (decide (g.preformatted > 0)) frame.children := by
    rw [closedChildren]
    cases g.preformatted <;> rfl
  unfold close
  rw [← hchildren]
  obtain ⟨root, rootSeen, frames, preformatted, complained, skipped, skippedOnce, reports⟩ := g
  cases o.isPreformatted frame.head.name <;> cases frame.placement <;> cases frames <;> rfl

/-! ### States with open elements -/

/-- The open elements and the root of a state that leaves nothing out. -/
structure Settled (g : Growth) (frames : List Frame) (root : Option Element) : Prop where
  frames : g.frames = frames
  root : g.root = root
  skipped : g.skipped = 0

theorem SameFrames.settled {g g' : Growth} {frames : List Frame} {root : Option Element}
    (hsame : g'.SameFrames g) (h : g.Settled frames root) : g'.Settled frames root :=
  ⟨hsame.frames.trans h.frames, hsame.root.trans h.root, hsame.skipped.trans h.skipped⟩

theorem Settled.withReports {g : Growth} {frames : List Frame} {root : Option Element}
    (h : g.Settled frames root) (reports : List Report) (once : Bool) :
    (g.withReports reports once).Settled frames root :=
  ⟨h.frames, h.root, h.skipped⟩

section

variable {o : Options} {g : Growth} {frame : Frame} {outer : List Frame} {root : Option Element}
  (h : g.Settled (frame :: outer) root)
include h

/-- Where a start tag finds room in an open element. -/
theorem Settled.start_eq [o.Modest] (hroom : outer.length + 1 < nestingLimit) (name : String)
    (attributes : List Attribute) (unary : Bool) (span : Span) :
    let head := (headOfTag o name attributes unary span).1
    ∃ placed : Growth, placed.Settled (frame :: outer) root ∧
      g.start o name attributes unary span = placed.enter o name unary
        ⟨head, [], if hasSideEffects head then .detached else .child⟩ := by
  have hlength : g.frames.length < nestingLimit := by rwa [h.frames, List.length_cons]
  obtain ⟨reports, hstart⟩ := Growth.start_eq o name attributes unary span h.skipped hlength
  generalize (headOfTag o name attributes unary span).1 = head at hstart ⊢
  have hsame := sameFrames_place head { g with reports := reports ++ g.reports }
  refine ⟨_, hsame.settled (h.withReports (reports ++ g.reports) g.skippedOnce), hstart.trans ?_⟩
  -- an element is open, so the root does not matter
  have hplacement : (place head { g with reports := reports ++ g.reports }).1 =
      if hasSideEffects head then .detached else .child := by
    unfold place
    cases hforbidden : hasSideEffects head <;> simp [report, h.frames]
  dsimp only
  rw [hplacement]

theorem Settled.start_element [o.Modest] (hroom : outer.length + 1 < nestingLimit) (name : String)
    (attributes : List Attribute) (span : Span) :
    let head := (headOfTag o name attributes false span).1
    (g.start o name attributes false span).Settled
      (⟨head, [], if hasSideEffects head then .detached else .child⟩ :: frame :: outer) root := by
  obtain ⟨placed, hplaced, hstart⟩ := h.start_eq (o := o) hroom name attributes false span
  obtain ⟨n, hn⟩ := recount_eq (o.isPreformatted name) (placed.preformatted + 1) placed
  dsimp only
  rw [hstart, enter, hn]
  exact ⟨congrArg _ hplaced.frames, hplaced.root, hplaced.skipped⟩

theorem Settled.close_child (last : Frame) (hplacement : last.placement = .child) :
    (g.close o last).Settled
      (frame.add (.element last.head
        (closedChildren (decide (g.preformatted > 0)) last.children)) :: outer) root := by
  rw [close_eq, hplacement]
  exact ⟨by simp only [h.frames], h.root, h.skipped⟩

theorem Settled.close_detached (last : Frame) (hplacement : last.placement = .detached) :
    (g.close o last).Settled (frame :: outer) root := by
  rw [close_eq, hplacement]
  exact ⟨h.frames, h.root, h.skipped⟩

theorem Settled.start_unary [o.Modest] (hroom : outer.length + 1 < nestingLimit) (name : String)
    (attributes : List Attribute) (span : Span) :
    let head := (headOfTag o name attributes true span).1
    (g.start o name attributes true span).Settled
      ((if hasSideEffects head then frame else frame.add (.element head [])) :: outer) root := by
  obtain ⟨placed, hplaced, hstart⟩ := h.start_eq (o := o) hroom name attributes true span
  obtain ⟨n, hn⟩ := recount_eq (o.isPreformatted name) (placed.preformatted + 1) placed
  have hplaced' : Settled { placed with preformatted := n } (frame :: outer) root :=
    ⟨hplaced.frames, hplaced.root, hplaced.skipped⟩
  generalize (headOfTag o name attributes true span).1 = head at hstart ⊢
  dsimp only
  rw [hstart, enter, hn]
  cases hasSideEffects head with
  | true => exact hplaced'.close_detached ⟨head, [], .detached⟩ rfl
  | false =>
    have hclosed := hplaced'.close_child (o := o) ⟨head, [], .child⟩ rfl
    rwa [closedChildren_nil] at hclosed

theorem Settled.text_eq (template content : String) (span : Option Span) :
    (g.text template o content span).Settled
      (frame.addContent o (decide (g.preformatted > 0)) content span :: outer) root := by
  unfold text Frame.addContent
  rw [if_neg (by simp [h.skipped]), h.frames]
  dsimp only
  cases textFor (decide (g.preformatted > 0)) frame content with
  | none => exact h
  | some text => exact ⟨rfl, h.root, h.skipped⟩

theorem Settled.comment_eq (content : String) (span : Span) :
    (g.comment content span).Settled (frame.add (.comment content span) :: outer) root := by
  unfold comment
  rw [if_neg (by simp [h.skipped]), h.frames]
  exact ⟨rfl, h.root, h.skipped⟩

end

section

variable {o : Options} {g : Growth} {last : Frame} {frames : List Frame} {root : Option Element}
  (h : g.Settled (last :: frames) root)
include h

theorem Settled.finish_eq (span : Span) :
    ∃ popped : Growth, popped.Settled frames root ∧ popped.preformatted = g.preformatted ∧
      g.finish o span = popped.close o { last with head := last.head.endingAt span } :=
  ⟨{ g with frames := frames }, ⟨rfl, h.root, h.skipped⟩, rfl,
    Growth.finish_eq o span h.skipped h.frames⟩

theorem Settled.finish_child {frame : Frame} {outer : List Frame}
    (hframes : frames = frame :: outer) (hplacement : last.placement = .child) (span : Span) :
    (g.finish o span).Settled
      (frame.add (.element (last.head.endingAt span)
        (closedChildren (decide (g.preformatted > 0)) last.children)) :: outer) root := by
  obtain ⟨popped, hpopped, hcount, hfinish⟩ := h.finish_eq (o := o) span
  rw [hfinish, ← hcount]
  rw [hframes] at hpopped
  exact hpopped.close_child { last with head := last.head.endingAt span } hplacement

theorem Settled.finish_detached {frame : Frame} {outer : List Frame}
    (hframes : frames = frame :: outer) (hplacement : last.placement = .detached) (span : Span) :
    (g.finish o span).Settled (frame :: outer) root := by
  obtain ⟨popped, hpopped, -, hfinish⟩ := h.finish_eq (o := o) span
  rw [hfinish]
  rw [hframes] at hpopped
  exact hpopped.close_detached { last with head := last.head.endingAt span } hplacement

end

/-! ### Elements that are too deep -/

/-- The reports of the warnings among events, newest first. -/
def warned (events : List Event) : List Report :=
  (events.filterMap fun
    | .warning message range => some (.error message range)
    | _ => none).reverse

theorem warned_append (events more : List Event) :
    warned (events ++ more) = warned more ++ warned events := by
  rw [warned, List.filterMap_append, List.reverse_append, warned, warned]

theorem warned_cons (e : Event) (events : List Event) :
    warned (e :: events) = warned events ++ warned [e] := warned_append [e] events

theorem warned_element (name : String) (attributes : List Attribute) (span span' : Span)
    (inner rest : List Event) :
    warned (.startTag name attributes false span :: inner ++ .endTag name span' :: rest) =
      warned rest ++ warned inner := by
  rw [warned_append, warned_cons, warned_cons (.endTag name span')]
  simp [warned]

theorem start_of_tooDeep {o : Options} {g : Growth}
    (h : 0 < g.skipped ∨ nestingLimit ≤ g.frames.length) (name : String)
    (attributes : List Attribute) (unary : Bool) (span : Span) :
    g.start o name attributes unary span = g.skip unary span := by
  unfold start
  rw [if_pos (by simpa using h)]

theorem foldl_element (template : String) (o : Options) (g : Growth) (name : String)
    (attributes : List Attribute) (span span' : Span) (inner rest : List Event) :
    (.startTag name attributes false span :: inner ++ .endTag name span' :: rest).foldl
        (step template o) g =
      rest.foldl (step template o) ((inner.foldl (step template o)
        (g.start o name attributes false span)).finish o span') := by
  rw [List.cons_append, List.foldl_cons, List.foldl_append, List.foldl_cons]
  rfl

theorem finish_of_skipped (o : Options) (span : Span) {g : Growth} (hskipped : 0 < g.skipped) :
    g.finish o span = { g with skipped := g.skipped - 1 } :=
  if_pos hskipped

theorem step_of_skipped {template : String} {o : Options} {g : Growth} (hskipped : 0 < g.skipped)
    {e : Event} (he : e.isTag = false) :
    step template o g e = g.withReports (warned [e] ++ g.reports) g.skippedOnce := by
  cases e with
  | startTag name attributes unary span => cases he
  | endTag name span => cases he
  | text content span => exact if_pos hskipped
  | comment content span => exact if_pos hskipped
  | warning message range => rfl

/-- In an element that is left out, elements open and close, and only warnings leave a trace. -/
theorem foldl_of_skipped (template : String) (o : Options) {events : List Event}
    {outlines : List Outline} (h : Brackets events outlines) (g : Growth) (hskipped : 0 < g.skipped)
    (honce : g.skippedOnce = true) :
    events.foldl (step template o) g = g.withReports (warned events ++ g.reports) true := by
  induction h generalizing g with
  | nil =>
    rw [← honce]
    rfl
  | @content e events outlines he _ ih =>
    have hrest := ih (g.withReports (warned [e] ++ g.reports) g.skippedOnce) hskipped honce
    rw [List.foldl_cons, step_of_skipped hskipped he, hrest, warned_cons e events,
      List.append_assoc]
    rfl
  | @unary events outlines name attributes span _ ih =>
    have hstart : step template o g (.startTag name attributes true span) = g := by
      refine (start_of_tooDeep (.inl hskipped) name attributes true span).trans ?_
      rw [skip_eq, reportsWith, honce]
      simp [withReports, ← honce]
    rw [List.foldl_cons, hstart, ih g hskipped honce, warned_cons]
    simp [warned]
  | @element inner rest children outlines name attributes span span' _ _ ihinner ihrest =>
    have hstart : g.start o name attributes false span = { g with skipped := g.skipped + 1 } := by
      rw [start_of_tooDeep (.inl hskipped), skip_eq, reportsWith, honce]
      simp [withReports, ← honce]
    have hinner := ihinner { g with skipped := g.skipped + 1 } (Nat.succ_pos _) honce
    have hrest := ihrest (g.withReports (warned inner ++ g.reports) true) hskipped rfl
    rw [warned_element, foldl_element, hstart, hinner, finish_of_skipped _ _ (Nat.succ_pos _),
      List.append_assoc]
    exact hrest

/-- An element for which there is no room is reported, as are the warnings in it. -/
theorem foldl_of_tooDeep (template : String) (o : Options) {inner : List Event}
    {outlines : List Outline} (h : Brackets inner outlines) {g : Growth} (hskipped : g.skipped = 0)
    (hdeep : nestingLimit ≤ g.frames.length) (name : String) (attributes : List Attribute)
    (span span' : Span) (rest : List Event) :
    (.startTag name attributes false span :: inner ++ .endTag name span' :: rest).foldl
        (step template o) g =
      rest.foldl (step template o) (g.withReports (warned inner ++ g.reportsWith span) true) := by
  rw [foldl_element, start_of_tooDeep (.inr hdeep), skip_eq,
    foldl_of_skipped template o h _ (Nat.succ_pos _) rfl, finish_of_skipped _ _ (Nat.succ_pos _)]
  simp [withReports, hskipped]

theorem start_unary_of_tooDeep (o : Options) {g : Growth} (hdeep : nestingLimit ≤ g.frames.length)
    (name : String) (attributes : List Attribute) (span : Span) :
    g.start o name attributes true span = g.withReports (g.reportsWith span) true := by
  rw [start_of_tooDeep (.inr hdeep), skip_eq]
  rfl

end Growth

end HtmlTemplate.Template
