import HtmlTemplate.Proofs.Compiles
import HtmlTemplate.Proofs.Placement

/-!
# What a tree keeps of the markup

If nothing is wrong with a template, its tree is what the markup says: the open frames are the open
elements, so every element stands where its start tag stood, and its attributes are those of the tag
(`read_tree`). Whatever would part the tree from the markup, a second root, an element that is too
deep or one that must not be there, is reported as an error.
-/

namespace HtmlTemplate.Template

open Markup (Event Attribute OpenTag isQualifiedName IsReadName AtEach openAfter?)

/-! ### What is known of elements -/

/-- A head whose attributes are those of its start tag. -/
structure Head.Read (head : Head) : Prop where
  qualified : isQualifiedName head.name.toList = true
  names : ∀ a ∈ head.written, IsReadName a.name.toList
  plain : ∀ p ∈ head.plain, ∃ a ∈ head.written, Purpose.of a = .plain p.1 p.2
  bindings : ∀ b ∈ head.bindings, ∃ a ∈ head.written, Purpose.of a = .binding b

/-- Without expressions in it, the text is what its parts show. -/
def TextRun.Whole (run : TextRun) : Prop :=
  run.isStatic = true → ∀ data, String.join (run.parts.map (Part.shown data)) = run.text

/-- The node may stand in an element of this name. -/
def Node.FitsIn (o : Markup.Options) (parent : String) : Node → Prop
  | .element head _ => o.ReadsMarkup [parent] ∧ o.StaysOpen [parent] head.name
  | .text run => run.Whole
  | .comment .. => o.keepComments = true

structure Element.Read (o : Markup.Options) (e : Element) : Prop where
  head : e.head.Read
  children : ∀ n ∈ e.children, n.FitsIn o e.head.name

/-- All elements of a tree are as in the markup. -/
def Node.Read (o : Markup.Options) (n : Node) : Prop := ∀ e ∈ n.elements, e.Read o

theorem Node.read_element {o : Markup.Options} {head : Head} {children : List Node}
    (hhead : head.Read) (hchildren : ∀ n ∈ children, n.FitsIn o head.name ∧ n.Read o) :
    (Node.element head children).Read o := by
  intro e he
  rcases List.mem_cons.1 he with rfl | he
  · exact ⟨hhead, fun n hn => (hchildren n hn).1⟩
  · obtain ⟨n, hn, he⟩ := mem_elementsAll.1 he
    exact (hchildren n hn).2 e he

/-! ### Sorting attributes -/

/-- What was sorted out comes from the attributes. -/
structure Sorted.From (attributes : List Attribute) (s : Sorted) : Prop where
  plain : ∀ p ∈ s.plain, ∃ a ∈ attributes, Purpose.of a = .plain p.1 p.2
  bindings : ∀ b ∈ s.bindings, ∃ a ∈ attributes, Purpose.of a = .binding b
  condition : ∀ e ∈ s.condition, ∃ a ∈ attributes, Purpose.of a = .condition e
  directives : ∀ d ∈ s.directives, ∃ a ∈ attributes, Purpose.of a = .directive d

/-- One more attribute in front, of which nothing is made but reports. -/
theorem Sorted.From.more {attributes : List Attribute} {s : Sorted} (h : s.From attributes)
    (a : Attribute) (reports : List Report) :
    From (a :: attributes) { s with reports := reports } := by
  have hmore : ∀ {p : Purpose}, (∃ b ∈ attributes, Purpose.of b = p) →
      ∃ b ∈ a :: attributes, Purpose.of b = p := by
    rintro p ⟨b, hb, hp⟩
    exact ⟨b, List.mem_cons_of_mem a hb, hp⟩
  exact ⟨fun p hp => hmore (h.plain p hp), fun b hb => hmore (h.bindings b hb),
    fun e he => hmore (h.condition e he), fun d hd => hmore (h.directives d hd)⟩

theorem Sorted.From.cons {attributes : List Attribute} {s : Sorted} (h : s.From attributes)
    (a : Attribute) (reports : List Report) :
    (s.cons (Purpose.of a) reports).From (a :: attributes) := by
  have hmore := h.more a (reports ++ s.reports)
  cases hpurpose : Purpose.of a with
  | binding b =>
    exact { hmore with
      bindings := List.forall_mem_cons.2 ⟨⟨a, by simp, hpurpose⟩, hmore.bindings⟩ }
  | condition expression =>
    refine { hmore with condition := ?_ }
    rintro e ⟨⟩
    exact ⟨a, by simp, hpurpose⟩
  | directive d =>
    exact { hmore with
      directives := List.forall_mem_cons.2 ⟨⟨a, by simp, hpurpose⟩, hmore.directives⟩ }
  | plain name value =>
    exact { hmore with plain := List.forall_mem_cons.2 ⟨⟨a, by simp, hpurpose⟩, hmore.plain⟩ }

theorem from_sortAfter (registered : String → Bool) (seen : List String)
    (attributes : List Attribute) : (sortAfter registered seen attributes).From attributes := by
  induction attributes generalizing seen with
  | nil => constructor <;> simp [sortAfter]
  | cons a attributes ih =>
    rw [sortAfter]
    split
    · exact (ih seen).more a _
    · exact (ih (a.name :: seen)).cons a _

/-- A head that differs from another by plain attributes that were taken away, and by what a module
makes of them. -/
structure Head.Refines (head base : Head) : Prop where
  name : head.name = base.name
  written : head.written = base.written
  bindings : head.bindings = base.bindings
  plain : ∀ p ∈ head.plain, p ∈ base.plain

theorem Head.Refines.trans {first second third : Head} (h : first.Refines second)
    (h' : second.Refines third) : first.Refines third :=
  ⟨h.name.trans h'.name, h.written.trans h'.written,
    h.bindings.trans h'.bindings, fun p hp => h'.plain p (h.plain p hp)⟩

theorem Head.Read.of_refines {head base : Head} (h : base.Read) (hrefines : head.Refines base) :
    head.Read where
  qualified := hrefines.name ▸ h.qualified
  names := hrefines.written ▸ h.names
  plain := by rw [hrefines.written]; exact fun p hp => h.plain p (hrefines.plain p hp)
  bindings := by rw [hrefines.written, hrefines.bindings]; exact h.bindings

/-- The module only takes plain attributes away. -/
def Module.Refining (m : Module) : Prop := ∀ s head, (m.onHead s head).1.Refines head

theorem refining_takingModule (staticKeys : List String) {name : String}
    {keep : Head → String → Head} (hkeep : ∀ head value, (keep head value).Refines head) :
    (takingModule staticKeys name keep).Refining := by
  intro s head
  rw [onHead_takingModule]
  obtain h | ⟨value, h⟩ := takePlain_cases name keep s.delimiters head <;> rw [h]
  · exact ⟨rfl, rfl, rfl, fun p hp => hp⟩
  · exact (hkeep _ _).trans ⟨rfl, rfl, rfl, fun p hp => List.mem_of_mem_eraseP hp⟩

theorem refining_classModule : classModule.Refining :=
  refining_takingModule _ fun _ _ => ⟨rfl, rfl, rfl, fun _ hp => hp⟩

theorem refining_styleModule : styleModule.Refining :=
  refining_takingModule _ fun _ _ => ⟨rfl, rfl, rfl, fun _ hp => hp⟩

theorem refines_transformHead {modules : List Module} (hmodules : ∀ m ∈ modules, m.Refining)
    (s : Settings) (head : Head) : (Growth.transformHead s modules head).1.Refines head := by
  induction modules generalizing head with
  | nil => exact ⟨rfl, rfl, rfl, fun _ hp => hp⟩
  | cons m modules ih =>
    exact (ih (fun m hm => hmodules m (by simp [hm])) _).trans (hmodules m (by simp) s head)

/-- The head that a start event gives its element. -/
theorem read_headOfTag {m : Markup.Options} {o : Options}
    (hmodules : ∀ module ∈ o.modules, module.Refining) {names : List String} {name : String}
    {attributes : List Attribute} (h : m.Admits names name attributes) (unary : Bool)
    (span : Span) :
    (Growth.headOfTag o name attributes unary span).1.name = name ∧
      (Growth.headOfTag o name attributes unary span).1.Read := by
  let registered : String → Bool := fun d => (o.directives.find? d).isSome
  have hrefines := refines_transformHead hmodules o.toSettings
    ((Head.ofTag name attributes unary span).sorted registered).1
  have hsorted := from_sortAfter registered [] attributes
  refine ⟨hrefines.name, Head.Read.of_refines ?_ hrefines⟩
  exact ⟨h.qualified, h.attributes, hsorted.plain, hsorted.bindings⟩

/-! ### Text -/

theorem join_fixedRun (data : Json.Value) (s : List Char) :
    String.join ((fixedRun s).map (Part.shown data)) = String.ofList s := by
  unfold fixedRun
  split
  · next h => simp [List.isEmpty_iff.1 h]
  · simp [Part.shown]

theorem join_splitFrom {opening closing : List Char} {nonempty : opening ≠ []}
    {begun s : List Char}
    (h : (splitFrom opening closing nonempty begun s).all Part.isFixed = true) (data : Json.Value) :
    String.join ((splitFrom opening closing nonempty begun s).map (Part.shown data)) =
      String.ofList (begun.reverse ++ s) := by
  fun_induction splitFrom opening closing nonempty begun s with
  | case1 => exact join_fixedRun data _
  | case2 => exact join_fixedRun data _
  | case3 begun s before inner hopening rest hclosing _ _ ih =>
    rw [← Text.cut?_append hopening, ← Text.cut?_append hclosing]
    simpa using ih (by simpa using h)
  | case4 => simp [Part.isFixed] at h

theorem whole_split (d : Delimiters) (text : String) (span : Option Span) :
    (TextRun.mk text (d.split text) span).Whole := by
  intro hstatic data
  change (d.split text).all Part.isFixed = true at hstatic
  change String.join ((d.split text).map (Part.shown data)) = text
  unfold Delimiters.split at hstatic ⊢
  split
  · rw [join_fixedRun, String.ofList_toList]
  · split
    · rw [join_fixedRun, String.ofList_toList]
    · simp_all [join_splitFrom]

theorem whole_fixed (text : String) (span : Option Span) :
    (TextRun.mk text [.fixed text] span).Whole := by
  intro _ data
  simp [Part.shown]

/-! ### Reports only grow -/

namespace Growth

/-- Nothing that was reported so far is an error. -/
def NoErrors (g : Growth) : Prop := ∀ r ∈ g.reports, r.isError = false

/-- What was reported stays reported. -/
def Extends (g' g : Growth) : Prop := g.reports <:+ g'.reports

theorem NoErrors.of_extends {g g' : Growth} (h : g'.NoErrors) (hextends : g'.Extends g) :
    g.NoErrors :=
  fun r hr => h r (hextends.subset hr)

theorem Extends.refl (g : Growth) : g.Extends g := List.suffix_refl _

theorem Extends.trans {first second third : Growth} (h : first.Extends second)
    (h' : second.Extends third) : first.Extends third :=
  List.IsSuffix.trans h' h

theorem extends_report (r : Report) (g : Growth) : (g.report r).Extends g := List.suffix_cons r _

theorem extends_complain (r : Report) (g : Growth) : (g.complain r).Extends g := by
  unfold complain
  split
  · exact .refl g
  · exact List.suffix_cons r _

theorem extends_skip (unary : Bool) (span : Span) (g : Growth) : (g.skip unary span).Extends g := by
  unfold skip
  cases g.skippedOnce <;> cases unary <;> first | exact .refl g | exact List.suffix_cons _ _

/-- An element that acts rather than shows is reported wherever it stands. -/
theorem extends_place (head : Head) (g : Growth) :
    (g.place head).2.Extends (if hasSideEffects head then g.report (sideEffects head) else g) := by
  unfold place
  dsimp only
  generalize (if hasSideEffects head then g.report (sideEffects head) else g) = g'
  split
  · exact .refl g'
  · split
    · exact extends_complain _ g'
    · split
      · exact extends_complain (unfitRoot head) { g' with rootSeen := true }
      · exact .refl g'

theorem extends_place_self (head : Head) (g : Growth) : (g.place head).2.Extends g := by
  refine (extends_place head g).trans ?_
  split
  · exact extends_report _ g
  · exact .refl g

/-- What closing an element leaves alone. -/
structure SameReports (g' g : Growth) : Prop where
  reports : g'.reports = g.reports
  complained : g'.complained = g.complained
  skipped : g'.skipped = g.skipped
  skippedOnce : g'.skippedOnce = g.skippedOnce

theorem SameReports.trans {first second third : Growth} (h : first.SameReports second)
    (h' : second.SameReports third) : first.SameReports third :=
  ⟨h.reports.trans h'.reports, h.complained.trans h'.complained, h.skipped.trans h'.skipped,
    h.skippedOnce.trans h'.skippedOnce⟩

theorem SameReports.extends {g g' : Growth} (h : g'.SameReports g) : g'.Extends g :=
  ⟨[], h.reports.symm⟩

theorem sameReports_close (o : Options) (frame : Frame) (g : Growth) :
    (g.close o frame).SameReports g := by
  obtain ⟨n, hn⟩ := recount_eq (o.isPreformatted frame.head.name) (g.preformatted - 1) g
  unfold close
  rw [hn]
  simp only
  split <;> exact ⟨rfl, rfl, rfl, rfl⟩

theorem extends_text (template : String) (o : Options) (content : String) (span : Option Span)
    (g : Growth) : (g.text template o content span).Extends g := by
  unfold text
  split
  · exact .refl g
  · split
    · split
      · exact extends_complain _ g
      · split
        · exact .refl g
        · exact extends_complain _ g
    · split <;> exact .refl g

theorem extends_finish (o : Options) (span : Span) (g : Growth) : (g.finish o span).Extends g := by
  unfold finish
  split
  · exact .refl g
  · split
    · exact .refl g
    · next frame outer _ => exact (sameReports_close o _ { g with frames := outer }).extends

theorem extends_comment (content : String) (span : Span) (g : Growth) :
    (g.comment content span).Extends g := by
  unfold comment
  split
  · exact .refl g
  · split <;> exact .refl g

/-- Where there is room, an element is opened whatever is reported on its attributes. -/
theorem start_eq (o : Options) [o.Modest] (name : String) (attributes : List Attribute)
    (unary : Bool) (span : Span) {g : Growth} (hskipped : g.skipped = 0)
    (hroom : g.frames.length < nestingLimit) :
    ∃ reports, g.start o name attributes unary span =
      let head := (headOfTag o name attributes unary span).1
      let placed := { g with reports := reports ++ g.reports }.place head
      placed.2.enter o name unary ⟨head, [], placed.1⟩ := by
  refine ⟨(headOfTag o name attributes unary span).2.reverse, ?_⟩
  rw [start_eq_ite, if_neg (by simp [hskipped]; omega)]

theorem sameReports_enter (o : Options) (name : String) (unary : Bool) (frame : Frame)
    (g : Growth) : (g.enter o name unary frame).SameReports g := by
  obtain ⟨n, hn⟩ := recount_eq (o.isPreformatted name) (g.preformatted + 1) g
  have hsame : SameReports { g with preformatted := n } g := ⟨rfl, rfl, rfl, rfl⟩
  unfold enter
  rw [hn]
  cases unary with
  | true => exact (sameReports_close o frame _).trans hsame
  | false => exact ⟨rfl, rfl, rfl, rfl⟩

theorem extends_start (o : Options) [o.Additive] (name : String) (attributes : List Attribute)
    (unary : Bool) (span : Span) (g : Growth) :
    (g.start o name attributes unary span).Extends g := by
  rw [start_eq_element]
  split
  · exact extends_skip unary span g
  · refine (sameReports_enter ..).extends.trans ((extends_place_self _ _).trans ?_)
    exact List.suffix_append _ g.reports

theorem extends_step (template : String) (o : Options) [o.Additive] (g : Growth) (e : Event) :
    (step template o g e).Extends g := by
  cases e with
  | startTag name attributes unary span => exact extends_start o name attributes unary span g
  | endTag name span => exact extends_finish o span g
  | text content span => exact extends_text template o content span g
  | comment content span => exact extends_comment content span g
  | warning message range => exact extends_report _ g

theorem extends_foldl (template : String) (o : Options) [o.Additive] (events : List Event)
    (g : Growth) :
    (events.foldl (step template o) g).Extends g := by
  induction events generalizing g with
  | nil => exact .refl g
  | cons e events ih => exact (ih _).trans (extends_step template o g e)

end Growth

/-! ### Frames are the open elements -/

def frameNames (frames : List Frame) : List String := frames.map fun frame => frame.head.name

/-- A frame where it may stand, with what is known of its element so far. -/
structure Frame.Read (o : Markup.Options) (outer : List Frame) (frame : Frame) : Prop where
  head : frame.head.Read
  children : ∀ n ∈ frame.children, n.FitsIn o frame.head.name ∧ n.Read o
  placement : frame.placement = if outer.isEmpty then .root else .child
  readsMarkup : o.ReadsMarkup (frameNames outer)
  staysOpen : o.StaysOpen (frameNames outer) frame.head.name

def FramesRead (o : Markup.Options) : List Frame → Prop
  | [] => True
  | frame :: outer => frame.Read o outer ∧ FramesRead o outer

theorem Frame.Read.add {o : Markup.Options} {outer : List Frame} {frame : Frame}
    (h : frame.Read o outer) {n : Node} (hfits : n.FitsIn o frame.head.name) (hread : n.Read o) :
    Frame.Read o outer { frame with children := n :: frame.children } :=
  ⟨h.head, List.forall_mem_cons.2 ⟨⟨hfits, hread⟩, h.children⟩, h.placement, h.readsMarkup,
    h.staysOpen⟩

/-- The frames are the open elements, and what stands in them and in the root is as
in the markup. -/
structure Traced (o : Markup.Options) (names : List String) (frames : List Frame)
    (root : Option Element) : Prop where
  names_eq : frameNames frames = names
  frames_read : FramesRead o frames
  root_read : ∀ e ∈ root, e.toNode.Read o

/-- Adding a node to the innermost element. -/
theorem Traced.added {o : Markup.Options} {names : List String} {frame : Frame} {outer : List Frame}
    {root : Option Element} (h : Traced o names (frame :: outer) root) {n : Node}
    (hfits : n.FitsIn o frame.head.name) (hread : n.Read o) :
    Traced o names ({ frame with children := n :: frame.children } :: outer) root :=
  ⟨h.names_eq, ⟨h.frames_read.1.add hfits hread, h.frames_read.2⟩, h.root_read⟩

/-- The invariant of a growing tree as long as there is no error: nothing was left out or complained
of, and the frames are the open elements. -/
structure Growth.Faithful (o : Markup.Options) (names : List String) (g : Growth) : Prop where
  skipped : g.skipped = 0
  skippedOnce : g.skippedOnce = false
  complained : g.complained = false
  traced : Traced o names g.frames g.root

namespace Growth

section

variable {m : Markup.Options} {names : List String} {g : Growth}

theorem Faithful.of_sameReports (h : g.Faithful m names) {g' : Growth} (hsame : g'.SameReports g)
    {names' : List String} (htraced : Traced m names' g'.frames g'.root) : g'.Faithful m names' :=
  ⟨hsame.skipped.trans h.skipped, hsame.skippedOnce.trans h.skippedOnce,
    hsame.complained.trans h.complained, htraced⟩

theorem not_noErrors_report {r : Report} (hr : r.isError = true) : ¬ (g.report r).NoErrors := by
  intro h
  have hfalse := h r List.mem_cons_self
  rw [hr] at hfalse
  cases hfalse

theorem not_noErrors_complain (hcomplained : g.complained = false) {r : Report}
    (hr : r.isError = true) : ¬ (g.complain r).NoErrors := by
  intro h
  rw [complain, hcomplained] at h
  exact not_noErrors_report hr h

/-- Closing an element makes a node of it where it stands. -/
theorem traced_close (o : Options) (h : Traced m names g.frames g.root) {frame : Frame}
    (hframe : frame.Read m g.frames) :
    Traced m names (g.close o frame).frames (g.close o frame).root := by
  obtain ⟨n, hn⟩ := recount_eq (o.isPreformatted frame.head.name) (g.preformatted - 1) g
  unfold close
  rw [hn]
  generalize hchildren : (if g.preformatted == 0 then frame.children.dropWhile isSpace
    else frame.children) = children
  have hsub : ∀ n ∈ children.reverse, n ∈ frame.children := by
    intro n hn
    rw [List.mem_reverse, ← hchildren] at hn
    split at hn
    · exact (List.dropWhile_sublist _).subset hn
    · exact hn
  have hnode : (Node.element frame.head children.reverse).Read m :=
    Node.read_element hframe.head fun n hn => hframe.children n (hsub n hn)
  simp only
  split
  · exact ⟨h.names_eq, h.frames_read, by rintro e ⟨⟩; exact hnode⟩
  · next parent outer _ hparent =>
    have hreads := hframe.readsMarkup
    have hstays := hframe.staysOpen
    rw [hparent] at h hreads hstays
    exact h.added ⟨hreads, hstays⟩ hnode
  · exact h
  · exact h

theorem faithful_enter (o : Options) (h : g.Faithful m names) {name : String} {unary : Bool}
    {frame : Frame} (hframe : frame.Read m g.frames) (hname : frame.head.name = name) :
    (g.enter o name unary frame).Faithful m (if unary then names else name :: names) := by
  refine h.of_sameReports (sameReports_enter o name unary frame g) ?_
  obtain ⟨n, hn⟩ := recount_eq (o.isPreformatted name) (g.preformatted + 1) g
  unfold enter
  rw [hn]
  cases unary with
  | true => exact traced_close (g := { g with preformatted := n }) o h.traced hframe
  | false =>
    refine ⟨?_, ⟨hframe, h.traced.frames_read⟩, h.traced.root_read⟩
    change frame.head.name :: frameNames g.frames = name :: names
    rw [hname, h.traced.names_eq]

/-- Without an error an element is the first root or stands in the innermost open element. -/
theorem place_of_noErrors {head : Head} (hcomplained : g.complained = false)
    (h : (g.place head).2.NoErrors) :
    (g.place head).1 = (if g.frames.isEmpty then .root else .child) ∧
      (g.place head).2 = { g with rootSeen := g.rootSeen || g.frames.isEmpty } ∧
      (g.frames.isEmpty = true → g.rootSeen = false) := by
  have hforbidden : hasSideEffects head = false := by
    rw [Bool.eq_false_iff]
    intro hforbidden
    have hreport := h.of_extends (extends_place head g)
    rw [if_pos hforbidden] at hreport
    exact not_noErrors_report rfl hreport
  unfold place at h ⊢
  simp only [hforbidden, Bool.false_eq_true, if_false] at h ⊢
  split
  · next hopen =>
    have hnonempty : g.frames.isEmpty = false := by simpa using hopen
    simp [hnonempty]
  · next hopen =>
    have hempty : g.frames.isEmpty = true := by simpa using hopen
    rw [if_neg hopen] at h
    split
    · next hseen =>
      rw [if_pos hseen] at h
      exact absurd h (not_noErrors_complain hcomplained rfl)
    · next hseen =>
      rw [if_neg hseen] at h
      split
      · next hunfit =>
        rw [if_pos hunfit] at h
        exact absurd h (not_noErrors_complain (g := { g with rootSeen := true }) hcomplained rfl)
      · simp [hempty, hseen]

/-! ### Steps -/

variable {o : Options}

/-- An element too deep to be kept is an error. -/
theorem length_frames_lt_of_noErrors (honce : g.skippedOnce = false) {name : String}
    {attributes : List Attribute} {unary : Bool} {span : Span}
    (h : (g.start o name attributes unary span).NoErrors) : g.frames.length < nestingLimit := by
  by_contra hdeep
  unfold start at h
  rw [if_pos (by simp; omega), skip, honce] at h
  refine not_noErrors_report (g := g) (r := tooDeeplyNested span) rfl fun r hr => h r ?_
  cases unary <;> exact hr

theorem faithful_start [o.Modest] (hmodules : ∀ module ∈ o.modules, module.Refining)
    (h : g.Faithful m names) {name : String} {attributes : List Attribute} {unary : Bool}
    (hadmits : m.Admits names name attributes) (span : Span)
    (herrors : (g.start o name attributes unary span).NoErrors) :
    (g.start o name attributes unary span).Faithful m (if unary then names else name :: names) := by
  have hroom := length_frames_lt_of_noErrors h.skippedOnce herrors
  obtain ⟨hname, hread⟩ := read_headOfTag hmodules hadmits unary span
  obtain ⟨reports, hstart⟩ := start_eq o name attributes unary span h.skipped hroom
  simp only at hstart
  rw [hstart] at herrors ⊢
  clear hstart
  generalize (headOfTag o name attributes unary span).1 = head at hname hread herrors ⊢
  subst hname
  obtain ⟨hplacement, hplaced, -⟩ := place_of_noErrors
    (g := { g with reports := reports ++ g.reports }) h.complained
    (herrors.of_extends (sameReports_enter ..).extends)
  rw [hplaced, hplacement]
  refine faithful_enter (g := { g with rootSeen := _, reports := reports ++ g.reports }) o
    ⟨h.skipped, h.skippedOnce, h.complained, h.traced⟩ ?_ rfl
  exact
    { head := hread
      children := by simp
      placement := rfl
      readsMarkup := h.traced.names_eq ▸ hadmits.readsMarkup
      staysOpen := h.traced.names_eq ▸ hadmits.staysOpen }

theorem faithful_finish {name : String} (h : g.Faithful m (name :: names)) (span : Span) :
    (g.finish o span).Faithful m names := by
  have hnames := h.traced.names_eq
  unfold finish
  rw [if_neg (by simp [h.skipped])]
  cases hframes : g.frames with
  | nil => simp [hframes, frameNames] at hnames
  | cons frame outer =>
    have hreads := h.traced.frames_read
    rw [hframes] at hnames hreads
    obtain ⟨hframe, houter⟩ := hreads
    have hread := hframe.head
    have hopen : Growth.SameReports { g with frames := outer } g := ⟨rfl, rfl, rfl, rfl⟩
    refine h.of_sameReports ((sameReports_close o _ _).trans hopen) (traced_close o ?_ ?_)
    · exact ⟨(List.cons.inj hnames).2, houter, h.traced.root_read⟩
    · exact
        { head := ⟨hread.qualified, hread.names, hread.plain, hread.bindings⟩
          children := hframe.children
          placement := hframe.placement
          readsMarkup := hframe.readsMarkup
          staysOpen := hframe.staysOpen }

theorem read_text (run : TextRun) : (Node.text run).Read m := by
  intro e he
  cases he

theorem traced_addText {frame : Frame} {outer : List Frame} {root : Option Element}
    (h : Traced m names (frame :: outer) root) (d : Delimiters) (text : String)
    (span : Option Span) : Traced m names (addText d text span frame :: outer) root := by
  unfold addText
  split
  · have hspace := h.added (n := .text ⟨text, [.fixed text], span⟩) (whole_fixed text span)
      (read_text _)
    split
    · next hchildren => simpa only [hchildren] using hspace
    · split
      · exact h
      · exact hspace
  · exact h.added (whole_split d text span) (read_text _)

theorem faithful_text (h : g.Faithful m names) (template content : String) (span : Option Span)
    (herrors : (g.text template o content span).NoErrors) :
    (g.text template o content span).Faithful m names := by
  unfold text at herrors ⊢
  rw [if_neg (by simp [h.skipped])] at herrors ⊢
  split
  · next hframes =>
    simp only [hframes] at herrors
    split
    · next hlone =>
      rw [if_pos hlone] at herrors
      exact absurd herrors (not_noErrors_complain h.complained rfl)
    · next hlone =>
      rw [if_neg hlone] at herrors
      split
      · exact h
      · next hblank =>
        rw [if_neg hblank] at herrors
        exact absurd herrors (not_noErrors_complain h.complained rfl)
  · next frame outer hframes =>
    have htraced := h.traced
    rw [hframes] at htraced
    split
    · exact h
    · next text _ =>
      exact ⟨h.skipped, h.skippedOnce, h.complained, traced_addText htraced o.delimiters text span⟩

theorem faithful_comment (h : g.Faithful m names) (hkeeps : m.keepComments = true)
    (content : String) (span : Span) : (g.comment content span).Faithful m names := by
  unfold comment
  rw [if_neg (by simp [h.skipped])]
  split
  · exact h
  · next frame outer hframes =>
    have htraced := h.traced
    rw [hframes] at htraced
    refine ⟨h.skipped, h.skippedOnce, h.complained, ?_⟩
    exact htraced.added (n := .comment content span) hkeeps (by intro e he; cases he)

/-- A step that reports no error leaves the frames to be the open elements. -/
theorem faithful_step [o.Modest] (hmodules : ∀ module ∈ o.modules, module.Refining)
    (template : String) {opened after : List OpenTag} (h : g.Faithful m (opened.map OpenTag.name))
    {e : Event}
    (hplaced : m.WellPlaced (opened.map OpenTag.name) e) (hafter : e.openAfter? opened = some after)
    (herrors : (step template o g e).NoErrors) :
    (step template o g e).Faithful m (after.map OpenTag.name) := by
  cases e with
  | startTag name attributes unary span =>
    obtain rfl := Option.some.inj hafter
    have hstart := faithful_start hmodules h hplaced span herrors
    cases unary <;> exact hstart
  | endTag name span =>
    cases opened with
    | nil => cases hafter
    | cons t outer =>
      obtain ⟨-, rfl⟩ := by simpa [Event.openAfter?] using hafter
      exact faithful_finish h span
  | text content span =>
    obtain rfl := Option.some.inj hafter
    exact faithful_text h template content span herrors
  | comment content span =>
    obtain rfl := Option.some.inj hafter
    exact faithful_comment h hplaced content span
  | warning message range => exact absurd herrors (not_noErrors_report rfl)

theorem faithful_foldl [o.Modest] (hmodules : ∀ module ∈ o.modules, module.Refining)
    (template : String) {opened final : List OpenTag}
    (h : g.Faithful m (opened.map OpenTag.name)) {events : List Event}
    (hplaced : AtEach m.WellPlaced opened events) (hfinal : openAfter? opened events = some final)
    (herrors : (events.foldl (step template o) g).NoErrors) :
    (events.foldl (step template o) g).Faithful m (final.map OpenTag.name) := by
  induction events generalizing g opened with
  | nil =>
    obtain rfl := Option.some.inj hfinal
    exact h
  | cons e events ih =>
    rw [Markup.openAfter?_cons, Option.bind_eq_some_iff] at hfinal
    obtain ⟨middle, hmiddle, hfinal⟩ := hfinal
    rw [List.foldl_cons] at herrors ⊢
    have hstep := faithful_step hmodules template h hplaced.head hmiddle
      (herrors.of_extends (extends_foldl template o events _))
    exact ih hstep (hplaced.tail hmiddle) hfinal herrors

end

end Growth

/-- A tree without errors is as its markup says. -/
theorem read_tree {o : Options} [o.Modest] (hparagraphs : o.mayBeLeftOpen "p" = true)
    (hmodules : ∀ m ∈ o.modules, m.Refining) {template : String} {root : Element}
    {reports : List Report} (h : tree o template = (some root, reports))
    (herrors : ∀ r ∈ reports, r.isError = false) : root.toNode.Read o.markup := by
  obtain ⟨hroot, rfl⟩ := Prod.ext_iff.1 h
  have hempty : Growth.Faithful o.markup (List.map OpenTag.name []) {} :=
    ⟨rfl, rfl, rfl, rfl, trivial, by simp⟩
  have hfaithful := Growth.faithful_foldl hmodules template hempty
    (Markup.wellPlaced_parse hparagraphs template) (Markup.openAfter?_parse o.markup template)
    fun r hr => herrors r (List.mem_reverse.2 hr)
  exact hfaithful.traced.root_read root hroot

end HtmlTemplate.Template
