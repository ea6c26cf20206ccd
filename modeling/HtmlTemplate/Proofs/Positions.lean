import HtmlTemplate.Proofs.Compiles
import HtmlTemplate.Proofs.Spanless

/-!
# Asking for positions

A compile that is asked for positions gives spans to attributes and ranges to reports, and does
nothing else differently. The markup is read into the same events up to the spans of attributes;
from events without these spans the same tree grows without them (`Growth.strips_ofEvents`), so the
trees of both compiles are one tree once the spans are taken out.
-/

namespace HtmlTemplate.Template

open Text Markup

/-! ### Sorting -/

def Purpose.spanless : Purpose → Purpose
  | .binding b => .binding b.spanless
  | .condition expression => .condition expression
  | .directive d => .directive d.spanless
  | .plain name value => .plain name value

def Sorted.spanless (s : Sorted) : Sorted :=
  { s with
    bindings := s.bindings.map Binding.spanless
    directives := s.directives.map Directive.spanless
    reports := unlocated s.reports }

theorem Purpose.of_spanless (a : Attribute) : Purpose.of a.spanless = (Purpose.of a).spanless := by
  unfold Purpose.of
  simp only [Attribute.spanless]
  cases bindingArgument? a.name.toList with
  | some argument => rfl
  | none =>
    simp only [apply_ite Purpose.spanless]
    rfl

theorem Purpose.reports_spanless (registered : String → Bool) (a : Attribute) (p : Purpose) :
    p.spanless.reports registered a.spanless = unlocated (p.reports registered a) := by
  cases p with
  | binding b =>
    simp only [reports, spanless, Binding.spanless, Attribute.spanless]
    split <;> rfl
  | directive d =>
    simp only [reports, spanless, Directive.spanless, Attribute.spanless]
    split <;> rfl
  | condition _ => rfl
  | plain _ _ => rfl

theorem Sorted.cons_spanless (p : Purpose) (reports : List Report) (s : Sorted) :
    s.spanless.cons p.spanless (unlocated reports) = (s.cons p reports).spanless := by
  cases p <;> simp [cons, spanless, Purpose.spanless]

theorem sortAfter_spanless (registered : String → Bool) (seen : List String)
    (attributes : List Attribute) :
    sortAfter registered seen (attributes.map Attribute.spanless) =
      (sortAfter registered seen attributes).spanless := by
  induction attributes generalizing seen with
  | nil => rfl
  | cons a attributes ih =>
    have hname : a.spanless.name = a.name := rfl
    rw [List.map_cons, sortAfter, sortAfter, hname, ih seen, ih (a.name :: seen)]
    split
    · rfl
    · simp only [Purpose.of_spanless, Purpose.reports_spanless, Sorted.cons_spanless]

theorem Head.sorted_spanless (registered : String → Bool) (head : Head) :
    head.spanless.sorted registered =
      ((head.sorted registered).1.spanless, unlocated (head.sorted registered).2) := by
  simp only [sorted, sortAttributes, spanless, sortAfter_spanless, Sorted.spanless]

/-! ### Modules -/

theorem Head.rangeOf_spanless (head : Head) (name : String) :
    head.spanless.rangeOf name = .unknown := by
  have hwritten : head.spanless.written? name = (head.written? name).map Attribute.spanless :=
    List.find?_map ..
  rw [rangeOf, hwritten]
  cases head.written? name <;> rfl

/-- The options with positions asked for or not. -/
def Options.asking (o : Options) (positions : Bool) : Options :=
  { o with givePositions := positions }

instance (o : Options) [h : o.Modest] (positions : Bool) : (o.asking positions).Modest where
  additive := h.additive
  childless := h.childless

/-- The module does the same to an element whose attributes have no spans, whether or not positions
are asked for. -/
def Module.IgnoresSpans (m : Module) : Prop :=
  ∀ (s : Settings) positions head,
    m.onHead { s with givePositions := positions } head.spanless =
      ((m.onHead s head).1.spanless, unlocated (m.onHead s head).2)

theorem ignoresSpans_takingModule (staticKeys : List String) {name : String}
    {keep : Head → String → Head}
    (hkeep : ∀ head value, keep head.spanless value = (keep head value).spanless) :
    (takingModule staticKeys name keep).IgnoresSpans := by
  intro s positions head
  have hplain : head.spanless.plain? name = head.plain? name := rfl
  have hdrop : head.spanless.dropPlain name = (head.dropPlain name).spanless := rfl
  rw [onHead_takingModule, onHead_takingModule, takePlain, takePlain, hplain]
  cases head.plain? name with
  | none => rfl
  | some value =>
    simp only [hdrop, hkeep, head.rangeOf_spanless]
    split <;> rfl

theorem ignoresSpans_classModule : classModule.IgnoresSpans :=
  ignoresSpans_takingModule _ fun _ _ => rfl

theorem ignoresSpans_styleModule : styleModule.IgnoresSpans :=
  ignoresSpans_takingModule _ fun _ _ => rfl

namespace Growth

theorem transformHead_spanless {modules : List Module} (hmodules : ∀ m ∈ modules, m.IgnoresSpans)
    (s : Settings) (positions : Bool) (head : Head) :
    transformHead { s with givePositions := positions } modules head.spanless =
      ((transformHead s modules head).1.spanless, unlocated (transformHead s modules head).2) := by
  induction modules generalizing head with
  | nil => rfl
  | cons m modules ih =>
    obtain ⟨hm, hmore⟩ := List.forall_mem_cons.1 hmodules
    simp only [transformHead, hm s positions head, ih hmore, unlocated_append]

theorem plainReports_spanless (d : Delimiters) (head : Head) :
    plainReports d head.spanless = unlocated (plainReports d head) := by
  unfold plainReports unlocated
  rw [List.map_filterMap]
  apply List.filterMap_congr
  rintro ⟨name, value⟩ -
  simp only [head.rangeOf_spanless]
  split <;> rfl

theorem headOfTag_spanless {o : Options} (hmodules : ∀ m ∈ o.modules, m.IgnoresSpans)
    (positions : Bool) (name : String) (attributes : List Attribute) (unary : Bool) (span : Span) :
    headOfTag (o.asking positions) name (attributes.map Attribute.spanless) unary span =
      ((headOfTag o name attributes unary span).1.spanless,
        unlocated (headOfTag o name attributes unary span).2) := by
  have htag : Head.ofTag name (attributes.map Attribute.spanless) unary span =
      (Head.ofTag name attributes unary span).spanless := rfl
  have htransform := transformHead_spanless hmodules o.toSettings positions
  simp only [headOfTag, Options.asking, htag, Head.sorted_spanless, htransform,
    plainReports_spanless, unlocated_append]

theorem isSpace_spanless (n : Node) : isSpace n.spanless = isSpace n := by
  cases n <;> rfl

end Growth

/-! ### Growing -/

def Frame.spanless (f : Frame) : Frame :=
  { f with head := f.head.spanless, children := f.children.map Node.spanless }

/-- Without the spans of attributes, the tree has grown to `bare`, and the reports say the same. -/
structure Growth.Strips (g bare : Growth) : Prop where
  root : bare.root = g.root.map Element.spanless
  rootSeen : bare.rootSeen = g.rootSeen
  frames : bare.frames = g.frames.map Frame.spanless
  preformatted : bare.preformatted = g.preformatted
  complained : bare.complained = g.complained
  skipped : bare.skipped = g.skipped
  skippedOnce : bare.skippedOnce = g.skippedOnce
  reports : unlocated bare.reports = unlocated g.reports

namespace Growth

theorem addText_spanless (d : Delimiters) (text : String) (span : Option Span) (f : Frame) :
    addText d text span f.spanless = (addText d text span f).spanless := by
  have hchildren : f.spanless.children = f.children.map Node.spanless := rfl
  unfold addText
  rw [hchildren]
  split
  · cases f.children with
    | nil => rfl
    | cons last before =>
      simp only [List.map_cons, isSpace_spanless]
      split <;> rfl
  · rfl

theorem Strips.ite {p : Prop} [Decidable p] {g g' bare bare' : Growth} (h : g.Strips bare)
    (h' : g'.Strips bare') : (if p then g else g').Strips (if p then bare else bare') := by
  split
  · exact h
  · exact h'

section

variable {g bare : Growth} (h : g.Strips bare)
include h

/-- The same elements are open. -/
theorem Strips.frames_cases :
    (g.frames = [] ∧ bare.frames = []) ∨
      ∃ frame outer, g.frames = frame :: outer ∧
        bare.frames = frame.spanless :: outer.map Frame.spanless := by
  have hframes := h.frames
  cases hopen : g.frames with
  | nil => exact .inl ⟨rfl, by rw [hframes, hopen, List.map_nil]⟩
  | cons frame outer => exact .inr ⟨frame, outer, rfl, by rw [hframes, hopen, List.map_cons]⟩

theorem strips_reports {reports reports' : List Report}
    (hreports : unlocated reports' = unlocated reports) :
    Strips { g with reports := reports ++ g.reports }
      { bare with reports := reports' ++ bare.reports } :=
  { h with reports := by simp only [unlocated_append, hreports, h.reports] }

theorem strips_report {r r' : Report} (hr : r'.relocate none = r.relocate none) :
    (g.report r).Strips (bare.report r') := by
  have hone : unlocated [r'] = unlocated [r] := congrArg (· :: []) hr
  exact strips_reports h hone

theorem strips_complain {r r' : Report} (hr : r'.relocate none = r.relocate none) :
    (g.complain r).Strips (bare.complain r') := by
  unfold complain
  rw [h.complained]
  split
  · exact h
  · exact { strips_report h hr with complained := rfl }

theorem strips_skip (unary : Bool) (span : Span) :
    (g.skip unary span).Strips (bare.skip unary span) := by
  unfold skip
  rw [h.skippedOnce]
  have hreported : Strips { g.report (tooDeeplyNested span) with skippedOnce := true }
      { bare.report (tooDeeplyNested span) with skippedOnce := true } :=
    { strips_report h rfl with skippedOnce := rfl }
  have h' := h.ite (p := g.skippedOnce) hreported
  cases unary with
  | true => exact h'
  | false => exact { h' with skipped := congrArg (· + 1) h'.skipped }

theorem strips_place (head : Head) :
    (bare.place head.spanless).1 = (g.place head).1 ∧
      (g.place head).2.Strips (bare.place head.spanless).2 := by
  have hforbidden : hasSideEffects head.spanless = hasSideEffects head := rfl
  have hname : head.spanless.name = head.name := rfl
  unfold place
  dsimp only
  rw [hforbidden, hname]
  have hreported : (g.report (sideEffects head)).Strips
      (bare.report (sideEffects head.spanless)) := strips_report h rfl
  have h' := hreported.ite (p := hasSideEffects head) h
  generalize (if hasSideEffects head then g.report (sideEffects head) else g) = g' at h' ⊢
  generalize (if hasSideEffects head then bare.report (sideEffects head.spanless)
    else bare) = bare' at h' ⊢
  have hempty : bare'.frames.isEmpty = g'.frames.isEmpty := by rw [h'.frames, List.isEmpty_map]
  rw [hempty, h'.rootSeen]
  split
  · exact ⟨rfl, h'⟩
  split
  · exact ⟨rfl, strips_complain h' rfl⟩
  have hseen : Strips { g' with rootSeen := true } { bare' with rootSeen := true } :=
    { h' with rootSeen := rfl }
  split
  · exact ⟨rfl, strips_complain hseen rfl⟩
  · exact ⟨rfl, hseen⟩

theorem strips_close (o : Options) (frame : Frame) :
    (g.close o frame).Strips (bare.close o frame.spanless) := by
  have hspace : isSpace ∘ Node.spanless = isSpace := funext isSpace_spanless
  have hname : frame.spanless.head.name = frame.head.name := rfl
  unfold close
  dsimp only
  rw [h.preformatted, hname]
  generalize hchildren : (if g.preformatted == 0 then frame.children.dropWhile isSpace
    else frame.children) = children
  have hbareChildren : (if g.preformatted == 0 then frame.spanless.children.dropWhile isSpace
      else frame.spanless.children) = children.map Node.spanless := by
    rw [← hchildren, apply_ite (List.map Node.spanless), Frame.spanless, List.dropWhile_map, hspace]
  have hcounted : Strips { g with preformatted := g.preformatted - 1 }
      { bare with preformatted := g.preformatted - 1 } := { h with preformatted := rfl }
  have h' := hcounted.ite (p := o.isPreformatted frame.head.name) h
  generalize (if o.isPreformatted frame.head.name then
    { g with preformatted := g.preformatted - 1 } else g) = g' at h' ⊢
  generalize (if o.isPreformatted frame.head.name then
    { bare with preformatted := g.preformatted - 1 } else bare) = bare' at h' ⊢
  have hreverse : (children.map Node.spanless).reverse = spanlessAll children.reverse := by
    rw [spanlessAll_eq_map, List.map_reverse]
  rw [hbareChildren, hreverse]
  cases hplacement : frame.placement with
  | root =>
    simp only [Frame.spanless, hplacement]
    exact { h' with root := rfl }
  | detached =>
    simp only [Frame.spanless, hplacement]
    exact h'
  | child =>
    obtain ⟨hopen, hbare⟩ | ⟨parent, outer, hopen, hbare⟩ := h'.frames_cases
    · simp only [Frame.spanless, hplacement, hopen, hbare]
      exact h'
    · simp only [Frame.spanless, hplacement, hopen, hbare]
      exact { h' with frames := rfl }

theorem strips_enter (o : Options) (name : String) (unary : Bool) (frame : Frame) :
    (g.enter o name unary frame).Strips (bare.enter o name unary frame.spanless) := by
  have hcounted : Strips { g with preformatted := g.preformatted + 1 }
      { bare with preformatted := bare.preformatted + 1 } :=
    { h with preformatted := congrArg (· + 1) h.preformatted }
  have h' := hcounted.ite (p := o.isPreformatted name) h
  cases unary with
  | true => exact strips_close h' o frame
  | false =>
    have hframes := congrArg (frame.spanless :: ·) h'.frames
    exact { h' with frames := hframes }

theorem strips_start {o : Options} [o.Modest] (hmodules : ∀ m ∈ o.modules, m.IgnoresSpans)
    (positions : Bool) (name : String) (attributes : List Attribute) (unary : Bool) (span : Span) :
    (g.start o name attributes unary span).Strips
      (bare.start (o.asking positions) name (attributes.map Attribute.spanless) unary span) := by
  have hfull : (bare.skipped > 0 || bare.frames.length ≥ nestingLimit : Bool) =
      (g.skipped > 0 || g.frames.length ≥ nestingLimit : Bool) := by
    rw [h.skipped, h.frames, List.length_map]
  rw [start_eq_ite, start_eq_ite, hfull, headOfTag_spanless hmodules positions]
  split
  · exact strips_skip h unary span
  generalize headOfTag o name attributes unary span = tag
  have hpushed : Strips { g with reports := tag.2.reverse ++ g.reports }
      { bare with reports := (unlocated tag.2).reverse ++ bare.reports } :=
    strips_reports h (by simp)
  obtain ⟨hplacement, hplaced⟩ := strips_place hpushed tag.1
  dsimp only
  rw [hplacement]
  exact strips_enter hplaced o name unary ⟨tag.1, [], _⟩

theorem strips_finish (o : Options) (span : Span) :
    (g.finish o span).Strips (bare.finish o span) := by
  unfold finish
  rw [h.skipped]
  split
  · exact { h with skipped := rfl }
  obtain ⟨hopen, hbare⟩ | ⟨frame, outer, hopen, hbare⟩ := h.frames_cases
  · simp only [hopen, hbare]
    exact h
  · simp only [hopen, hbare]
    have houter : Strips { g with frames := outer }
        { bare with frames := outer.map Frame.spanless, skipped := g.skipped } :=
      { h with frames := rfl, skipped := rfl }
    exact strips_close houter o
      { frame with head := { frame.head with span := .between frame.head.span.start span.stop } }

theorem strips_text (template : String) (o : Options) (content : String) (span : Option Span) :
    (g.text template o content span).Strips (bare.text template o content span) := by
  unfold text
  rw [h.skipped]
  split
  · exact h
  obtain ⟨hopen, hbare⟩ | ⟨frame, outer, hopen, hbare⟩ := h.frames_cases
  · simp only [hopen, hbare]
    split
    · exact strips_complain h rfl
    split
    · exact h
    · exact strips_complain h rfl
  · have hempty : frame.spanless.children.isEmpty = frame.children.isEmpty := List.isEmpty_map ..
    have hfor : textFor (g.preformatted > 0) frame.spanless content =
        textFor (g.preformatted > 0) frame content := by
      rw [textFor, textFor, hempty]
      rfl
    simp only [hopen, hbare, h.preformatted, hfor]
    cases textFor (g.preformatted > 0) frame content with
    | none => exact h
    | some text =>
      simp only [addText_spanless]
      exact { h with preformatted := rfl, frames := rfl, skipped := rfl }

theorem strips_comment (content : String) (span : Span) :
    (g.comment content span).Strips (bare.comment content span) := by
  unfold comment
  rw [h.skipped]
  split
  · exact h
  obtain ⟨hopen, hbare⟩ | ⟨frame, outer, hopen, hbare⟩ := h.frames_cases
  · simp only [hopen, hbare]
    exact h
  · simp only [hopen, hbare]
    exact { h with frames := rfl, skipped := rfl }

theorem strips_step {o : Options} [o.Modest] (hmodules : ∀ m ∈ o.modules, m.IgnoresSpans)
    (positions : Bool) (template : String) (e : Event) :
    (step template o g e).Strips (step template (o.asking positions) bare e.spanless) := by
  cases e with
  | startTag name attributes unary span =>
    exact strips_start h hmodules positions name attributes unary span
  | endTag name span => exact strips_finish h o span
  | text content span => exact strips_text h template o content span
  | comment content span => exact strips_comment h content span
  | warning message range => exact strips_report h rfl

theorem strips_foldl {o : Options} [o.Modest] (hmodules : ∀ m ∈ o.modules, m.IgnoresSpans)
    (positions : Bool) (template : String) (events : List Event) :
    (events.foldl (step template o) g).Strips
      ((events.map Event.spanless).foldl (step template (o.asking positions)) bare) := by
  induction events generalizing g bare with
  | nil => exact h
  | cons e events ih => exact ih (strips_step h hmodules positions template e)

end

theorem strips_ofEvents {o : Options} [o.Modest] (hmodules : ∀ m ∈ o.modules, m.IgnoresSpans)
    (positions : Bool) (template : String) (events : List Event) :
    (ofEvents template o events).Strips
      (ofEvents template (o.asking positions) (events.map Event.spanless)) := by
  have hempty : Strips {} {} := ⟨rfl, rfl, rfl, rfl, rfl, rfl, rfl, rfl⟩
  exact strips_foldl hempty hmodules positions template events

end Growth

/-! ### Compiles -/

theorem Options.finish_spanless (o : Options) (root : Element) :
    o.finish root.spanless = (o.finish root).spanless := by
  rw [finish, finish, Element.optimize_spanless]
  split <;> rfl

section

variable {o : Options} (positions : Bool)

theorem agree_asking : View.spanless.Agree o.markup (o.asking positions).markup where
  implicitClose := rfl
  isVoid _ := rfl
  mayBeLeftOpen _ := rfl
  isRawText _ := rfl
  decoding _ := ⟨rfl, rfl⟩
  keepComments _ := rfl

variable (hmodules : ∀ m ∈ o.modules, m.IgnoresSpans) (template : String)
include hmodules

theorem tree_spanless_eq [o.Modest] :
    (tree o template).1.map Element.spanless =
        (tree (o.asking positions) template).1.map Element.spanless ∧
      unlocated (tree o template).2 = unlocated (tree (o.asking positions) template).2 := by
  have hevents : (parse o.markup template).map Event.spanless =
      (parse (o.asking positions).markup template).map Event.spanless := by
    rw [← View.ofEvents_spanless, ← View.ofEvents_spanless, View.parse_eq (agree_asking positions)]
  have hstrips := Growth.strips_ofEvents hmodules positions template (parse o.markup template)
  have hasking := Growth.strips_ofEvents (o := o.asking positions) hmodules positions template
    (parse (o.asking positions).markup template)
  have htwice : (o.asking positions).asking positions = o.asking positions := rfl
  rw [← hevents, htwice] at hasking
  rw [tree, tree, unlocated_reverse, unlocated_reverse, ← hstrips.reports,
    ← hasking.reports, ← hstrips.root, ← hasking.root]
  exact ⟨rfl, rfl⟩

theorem webBackend_spanless_eq [o.Modest] :
    (webBackend o template).1.tree.map Element.spanless =
        (webBackend (o.asking positions) template).1.tree.map Element.spanless ∧
      unlocated (webBackend o template).2 =
        unlocated (webBackend (o.asking positions) template).2 := by
  obtain ⟨htree, hreports⟩ := tree_spanless_eq positions hmodules template
  have hfinish : Element.spanless ∘ o.finish = o.finish ∘ Element.spanless :=
    funext fun root => (o.finish_spanless root).symm
  have hasking : (o.asking positions).finish = o.finish := rfl
  rw [webBackend_tree, webBackend_tree, webBackend_reports, webBackend_reports, hasking]
  simp only [Option.map_map, hfinish]
  rw [← Option.map_map, ← Option.map_map, htree]
  exact ⟨rfl, hreports⟩

theorem webBackend_code_eq [o.Modest]
    (hdirectives : ∀ name, ∀ code ∈ o.directives.find? name, IgnoresSpan code) :
    (webBackend o template).1.code = (webBackend (o.asking positions) template).1.code := by
  obtain ⟨htree, -⟩ := webBackend_spanless_eq positions hmodules template
  have hcode : Element.code o ∘ Element.spanless = Element.code o :=
    funext fun root => root.toNode.code_spanless hdirectives 0
  have hasking : Element.code (o.asking positions) = Element.code o := rfl
  rw [webBackend_code, webBackend_code, hasking, ← hcode, ← Option.map_map, ← Option.map_map, htree]

end

/-- The directives of the web do not make code of spans. -/
theorem ignoresSpan_directives_web {v : Overrides}
    (hdirectives : ∀ entry ∈ v.directives, IgnoresSpan entry.2) (name : String) :
    ∀ code ∈ (Options.web.override v).directives.find? name, IgnoresSpan code := by
  intro code hcode
  obtain ⟨entry, hentry, rfl⟩ | hweb := OrderedMap.find?_insertAll_cases hcode
  · exact hdirectives entry hentry
  obtain ⟨entry, hentry, rfl⟩ | hnone := OrderedMap.find?_insertAll_cases hweb
  · simp only [List.mem_cons, List.not_mem_nil, or_false] at hentry
    obtain rfl | rfl := hentry
    · exact ignoresSpan_textDirective
    · exact ignoresSpan_markupDirective
  · cases hnone

/-- Moving reports changes neither what they say nor which of them are errors. -/
theorem messages_relocate (keeps : Report → Bool)
    (hkeeps : ∀ leading r, keeps (Report.relocate leading r) = keeps r) (leading : Option Nat)
    (reports : List Report) :
    ((reports.map (Report.relocate leading)).filter keeps).map Report.message =
      ((unlocated reports).filter keeps).map Report.message := by
  have hmessage : ∀ leading r, (Report.relocate leading r).message = r.message := by
    intro leading r
    cases leading <;> rfl
  have hmoved : ∀ leading, ((reports.map (Report.relocate leading)).filter keeps).map
      Report.message = (reports.filter keeps).map Report.message := by
    intro leading
    rw [List.filter_map, List.map_map]
    congr 1
    · exact funext (hmessage leading)
    · congr 1
      exact funext (hkeeps leading)
  rw [unlocated, hmoved, hmoved]

theorem messages_diagnostics_eq {reports reports' : List Report}
    (h : unlocated reports = unlocated reports') (leading leading' : Option Nat) :
    (Diagnostics.of leading reports).errors.map Report.message =
        (Diagnostics.of leading' reports').errors.map Report.message ∧
      (Diagnostics.of leading reports).tips.map Report.message =
        (Diagnostics.of leading' reports').tips.map Report.message := by
  have herror := messages_relocate Report.isError Report.isError_relocate
  have htip := messages_relocate (fun r => !r.isError) fun leading r =>
    congrArg not (Report.isError_relocate leading r)
  simp only [Diagnostics.of, herror, htip, h, and_self]

/-- The outcomes differ at most in the spans of attributes, bindings and directives and in the
ranges of reports. -/
structure Compiled.SameButPositions (c c' : Compiled) : Prop where
  tree : c.tree.map Element.spanless = c'.tree.map Element.spanless
  errors : c.errors.map Report.message = c'.errors.map Report.message
  tips : c.tips.map Report.message = c'.tips.map Report.message

/-- The check does not look at spans other than to say where it found something. -/
def Compiler.ChecksSpanless (c : Compiler) : Prop :=
  ∀ check ∈ c.check, ∀ e, unlocated (check (Element.spanless e)) = unlocated (check e)

theorem Compiler.ChecksSpanless.checked_eq {c : Compiler} (hcheck : c.ChecksSpanless)
    {root root' : Option Element} (h : root.map Element.spanless = root'.map Element.spanless) :
    unlocated (c.checked root) = unlocated (c.checked root') := by
  unfold checked
  cases hsome : c.check with
  | none => rfl
  | some check =>
    cases root with
    | none =>
      rw [Option.map_none] at h
      rw [Option.map_eq_none_iff.1 h.symm]
    | some e =>
      rw [Option.map_some] at h
      obtain ⟨e', rfl, he⟩ := Option.map_eq_some_iff.1 h.symm
      dsimp only
      rw [← hcheck check hsome e, ← hcheck check hsome e', he]

theorem compile_spanless_eq {c : Compiler} (hbackend : c.backend = webBackend)
    (hcheck : c.ChecksSpanless) {v : Overrides} [(c.optionsFor v).Modest]
    (hmodules : ∀ m ∈ (c.optionsFor v).modules, m.IgnoresSpans) (positions : Option Bool)
    (template : String) :
    (c.compile v template).SameButPositions
      (c.compile { v with givePositions := positions } template) := by
  obtain ⟨htree, hreports⟩ := webBackend_spanless_eq (positions.getD c.options.givePositions)
    hmodules (trim template)
  have hall : unlocated (c.reports v template) =
      unlocated (c.reports { v with givePositions := positions } template) := by
    simp only [Compiler.reports, hbackend, unlocated_append]
    exact congrArg₂ (· ++ ·) hreports (hcheck.checked_eq htree)
  obtain ⟨herrors, htips⟩ := messages_diagnostics_eq hall (c.leading v template)
    (c.leading { v with givePositions := positions } template)
  refine ⟨?_, herrors, htips⟩
  unfold Compiler.compile
  rw [hbackend]
  exact htree

theorem compile_code_spanless_eq {c : Compiler} (hbackend : c.backend = webBackend)
    {v : Overrides} [(c.optionsFor v).Modest]
    (hmodules : ∀ m ∈ (c.optionsFor v).modules, m.IgnoresSpans)
    (hdirectives : ∀ name, ∀ code ∈ (c.optionsFor v).directives.find? name, IgnoresSpan code)
    (positions : Option Bool) (template : String) :
    (c.compile v template).code =
      (c.compile { v with givePositions := positions } template).code := by
  unfold Compiler.compile
  rw [hbackend]
  exact webBackend_code_eq (positions.getD c.options.givePositions) hmodules (trim template)
    hdirectives

/-- Asking for positions changes nothing but positions: the trees are equal up to the spans of
attributes, bindings and directives, errors and tips say the same in the same order, and the code
and its static pieces are the same. A directive of the caller's is handed the span of its attribute;
the code is the same if the directives do not write it down. -/
theorem compile_positions_eq {c : Compiler} (hc : c = .web ∨ c = .webUnchecked) {v : Overrides}
    (hmodules : v.modules = []) (positions positions' : Option Bool) (template : String) :
    (c.compile { v with givePositions := positions } template).SameButPositions
        (c.compile { v with givePositions := positions' } template) ∧
      ((∀ entry ∈ v.directives, IgnoresSpan entry.2) →
        (c.compile { v with givePositions := positions } template).code =
          (c.compile { v with givePositions := positions' } template).code) := by
  obtain ⟨hoptions, hbackend⟩ := Compiler.of_web hc
  have hignores := forall_mem_modules_web (v := { v with givePositions := positions }) hmodules
    ignoresSpans_classModule ignoresSpans_styleModule
  have hmodest : (c.optionsFor { v with givePositions := positions }).Modest := by
    rw [Compiler.optionsFor, hoptions]
    exact modest_override_web hmodules
  have hcheck : c.ChecksSpanless := by
    rcases hc with rfl | rfl
    · rintro check ⟨⟩ e
      exact e.toNode.check_spanless
    · rintro check ⟨⟩
  rw [← hoptions] at hignores
  refine ⟨compile_spanless_eq hbackend hcheck hignores positions' template, fun hdirectives => ?_⟩
  have hcodes := ignoresSpan_directives_web (v := { v with givePositions := positions }) hdirectives
  rw [← hoptions] at hcodes
  exact compile_code_spanless_eq hbackend hignores hcodes positions' template

theorem compile_positions_eq_sample :
    let v : Overrides := { directives := [("upper", patternDirective "[_v(\"\x7bvalue\x7d\")]")] }
    let template := "  <p :id='let' v-upper='x' title='\x7b\x7b y \x7d\x7d' v-other><b></p>"
    let asked := Compiler.web.compile { v with givePositions := some true } template
    let unasked := Compiler.web.compile { v with givePositions := some false } template
    v.modules = [] ∧ (∀ entry ∈ v.directives, IgnoresSpan entry.2) ∧ asked.errors ≠ unasked.errors ∧
      asked.tips ≠ unasked.tips ∧ asked.SameButPositions unasked ∧ asked.code = unasked.code := by
  intro v template asked unasked
  have hdirectives : ∀ entry ∈ v.directives, IgnoresSpan entry.2 := by
    rintro entry ⟨⟩
    · exact ignoresSpan_patternDirective _
    · contradiction
  have hdiffer : asked.errors ≠ unasked.errors ∧ asked.tips ≠ unasked.tips := by decide +kernel
  obtain ⟨hsame, hcode⟩ := compile_positions_eq (.inl rfl) (v := v) rfl (some true) (some false)
    template
  exact ⟨rfl, hdirectives, hdiffer.1, hdiffer.2, hsame, hcode hdirectives⟩

/-- The children say where the attribute of the directive is, if that is known. -/
def positionDirective : ChildrenCode := fun d =>
  d.span.map fun span => "[_v(\"" ++ span.start.repr ++ "\")]"

/-- The code of a directive that writes down the span of its attribute is not the same. -/
theorem compile_positions_code_ne :
    let v : Overrides := { directives := [("at", positionDirective)] }
    let asked := Compiler.web.compile { v with givePositions := some true } "<p v-at=\"x\">a</p>"
    let unasked := Compiler.web.compile { v with givePositions := some false } "<p v-at=\"x\">a</p>"
    v.modules = [] ∧ asked.errors = [] ∧ unasked.errors = [] ∧ asked.code ≠ unasked.code ∧
      asked.code.main = "_c(\"p\",[],[_v(\"3\")])" ∧
      unasked.code.main = "_c(\"p\",[],[_v(\"a\")])" := by
  decide +kernel

end HtmlTemplate.Template
