import HtmlTemplate.Proofs.Filling

/-!
# Elements below the deepest level

No more than 128 elements are open at once. `Prunes` takes from the events of a markup every element
that starts where so many are open, from its start tag to the end tag that belongs to it, and leaves
the warnings in it. What is left is never too deep, it grows into the tree of all events, and it has
their reports but for one on the first element that was taken away (`tree_prunes`): the count of
skipped elements brings the growing tree back exactly where the element ends. That holds for modules
that only add to the reports and give no elements to an element, and not for all others
(`nestingLimit_exceeded`).
-/

namespace HtmlTemplate.Template

open Text Markup

/-- What is left of bracketed events if the elements are taken away that start where as many as may
be are open already, and the spans of the start tags that go. Only warnings stay of what is in such
an element. -/
inductive Prunes : Nat → List Event → List Event → List Span → Prop where
  | nil (level : Nat) : Prunes level [] [] []
  | content {level : Nat} {e : Event} {events kept : List Event} {dropped : List Span}
      (he : e.isTag = false) (hrest : Prunes level events kept dropped) :
      Prunes level (e :: events) (e :: kept) dropped
  | unary {level : Nat} {events kept : List Event} {dropped : List Span} {name : String}
      {attributes : List Attribute} {span : Span} (hroom : level < nestingLimit)
      (hrest : Prunes level events kept dropped) :
      Prunes level (.startTag name attributes true span :: events)
        (.startTag name attributes true span :: kept) dropped
  | deepUnary {level : Nat} {events kept : List Event} {dropped : List Span} {name : String}
      {attributes : List Attribute} {span : Span} (hdeep : nestingLimit ≤ level)
      (hrest : Prunes level events kept dropped) :
      Prunes level (.startTag name attributes true span :: events) kept (span :: dropped)
  | element {level : Nat} {inner rest kept kept' : List Event} {dropped dropped' : List Span}
      {name : String} {attributes : List Attribute} {span span' : Span}
      (hroom : level < nestingLimit) (hinner : Prunes (level + 1) inner kept dropped)
      (hrest : Prunes level rest kept' dropped') :
      Prunes level (.startTag name attributes false span :: inner ++ .endTag name span' :: rest)
        (.startTag name attributes false span :: kept ++ .endTag name span' :: kept')
        (dropped ++ dropped')
  | deepElement {level : Nat} {inner rest kept : List Event} {outlines : List Outline}
      {dropped : List Span} {name : String} {attributes : List Attribute} {span span' : Span}
      (hdeep : nestingLimit ≤ level) (hinner : Brackets inner outlines)
      (hrest : Prunes level rest kept dropped) :
      Prunes level (.startTag name attributes false span :: inner ++ .endTag name span' :: rest)
        (inner.filter Event.isWarning ++ kept) (span :: dropped)

/-- Bracketed events can be pruned. -/
theorem exists_prunes {events : List Event} {outlines : List Outline} (h : Brackets events outlines)
    (level : Nat) : ∃ kept dropped, Prunes level events kept dropped := by
  induction h generalizing level with
  | nil => exact ⟨[], [], .nil level⟩
  | content he _ ih =>
    obtain ⟨kept, dropped, hrest⟩ := ih level
    exact ⟨_, _, .content he hrest⟩
  | unary name attributes span _ ih =>
    obtain ⟨kept, dropped, hrest⟩ := ih level
    by_cases hroom : level < nestingLimit
    · exact ⟨_, _, .unary hroom hrest⟩
    · exact ⟨_, _, .deepUnary (Nat.le_of_not_lt hroom) hrest⟩
  | element name attributes span span' hinner _ ihinner ihrest =>
    obtain ⟨kept', dropped', hrest⟩ := ihrest level
    by_cases hroom : level < nestingLimit
    · obtain ⟨kept, dropped, hkept⟩ := ihinner (level + 1)
      exact ⟨_, _, .element hroom hkept hrest⟩
    · exact ⟨_, _, .deepElement (Nat.le_of_not_lt hroom) hinner hrest⟩

/-- With each element that is dropped an event goes at least. -/
theorem Prunes.length_add_le {level : Nat} {events kept : List Event} {dropped : List Span}
    (h : Prunes level events kept dropped) : kept.length + dropped.length ≤ events.length := by
  induction h with
  | nil => simp
  | content _ _ ih =>
    rw [List.length_cons, List.length_cons]
    omega
  | unary _ _ ih =>
    rw [List.length_cons, List.length_cons]
    omega
  | deepUnary _ _ ih =>
    rw [List.length_cons, List.length_cons]
    omega
  | element _ _ _ ihinner ihrest =>
    simp only [List.cons_append, List.length_cons, List.length_append]
    omega
  | @deepElement _ inner _ _ _ _ _ _ _ _ _ _ _ ih =>
    have hfilter := List.length_filter_le Event.isWarning inner
    simp only [List.cons_append, List.length_cons, List.length_append]
    omega

theorem Prunes.eq_of_nil {level : Nat} {events kept : List Event}
    (h : Prunes level events kept []) : kept = events := by
  generalize hdropped : [] = dropped at h
  induction h with
  | nil => rfl
  | content _ _ ih => rw [ih hdropped]
  | unary _ _ ih => rw [ih hdropped]
  | deepUnary => cases hdropped
  | element _ _ _ ihinner ihrest =>
    obtain ⟨rfl, rfl⟩ := List.append_eq_nil_iff.1 hdropped.symm
    rw [ihinner rfl, ihrest rfl]
  | deepElement => cases hdropped

/-- Something is taken away exactly if an element is dropped. -/
theorem Prunes.eq_nil_iff {level : Nat} {events kept : List Event} {dropped : List Span}
    (h : Prunes level events kept dropped) : dropped = [] ↔ kept = events := by
  constructor
  · rintro rfl
    exact h.eq_of_nil
  · rintro rfl
    have hlength := h.length_add_le
    exact List.eq_nil_of_length_eq_zero (by omega)

/-- Warnings may stand before pruned events. -/
theorem Prunes.warnings {level : Nat} {kept : List Event} (h : Prunes level kept kept [])
    (events : List Event) :
    Prunes level (events.filter Event.isWarning ++ kept) (events.filter Event.isWarning ++ kept)
      [] := by
  induction events with
  | nil => exact h
  | cons e events ih =>
    cases e with
    | warning message range => exact .content rfl ih
    | startTag name attributes unary span => exact ih
    | endTag name span => exact ih
    | text content span => exact ih
    | comment content span => exact ih

/-- What is left is not too deep. -/
theorem Prunes.idem {level : Nat} {events kept : List Event} {dropped : List Span}
    (h : Prunes level events kept dropped) : Prunes level kept kept [] := by
  induction h with
  | nil level => exact .nil level
  | content he _ ih => exact .content he ih
  | unary hroom _ ih => exact .unary hroom ih
  | deepUnary _ _ ih => exact ih
  | element hroom _ _ ihinner ihrest => exact .element hroom ihinner ihrest
  | @deepElement _ inner _ _ _ _ _ _ _ _ _ _ _ ih => exact ih.warnings inner

/-! ### Steps do not look at the reports -/

namespace Growth

/-- In this state the operation adds the same reports whatever was reported before, and does the
same otherwise. -/
def IgnoresReports (f : Growth → Growth) (g : Growth) : Prop :=
  ∃ made g', ∀ reports once,
    f (g.withReports reports once) = withReports (made ++ reports) once g'

/-- Other reports before give other reports behind, and the operation keeps those before. -/
theorem IgnoresReports.eq {f : Growth → Growth} {g : Growth} (h : IgnoresReports f g) :
    ∃ made, (∀ reports once,
        f (g.withReports reports once) = (f g).withReports (made ++ reports) once) ∧
      (f g).reports = made ++ g.reports ∧ (f g).skippedOnce = g.skippedOnce := by
  obtain ⟨made, g', hmade⟩ := h
  have hself : f g = g'.withReports (made ++ g.reports) g.skippedOnce :=
    hmade g.reports g.skippedOnce
  refine ⟨made, fun reports once => ?_, ?_, ?_⟩
  · rw [hmade, hself]
    rfl
  · rw [hself]
    rfl
  · rw [hself]
    rfl

theorem ignoresReports_complain (r : Report) (g : Growth) : IgnoresReports (complain r) g := by
  unfold complain
  cases hcomplained : g.complained with
  | true => exact ⟨[], g, fun reports once => by simp [withReports, hcomplained]⟩
  | false =>
    exact ⟨[r], { g with complained := true }, fun reports once => by
      simp [withReports, report, hcomplained]⟩

/-- Where an element belongs does not depend on the reports; giving it its place adds to them. -/
theorem place_withReports (head : Head) (g : Growth) :
    ∃ made, ∀ reports once, place head (g.withReports reports once) =
      ((place head g).1, (place head g).2.withReports (made ++ reports) once) := by
  refine ⟨(place head (g.withReports [] false)).2.reports, fun reports once => ?_⟩
  unfold place
  generalize hasSideEffects head = forbidden
  generalize (head.name == "slot" || head.name == "template") = unfit
  obtain ⟨_, rootSeen, frames, _, complained, _, _, _⟩ := g
  cases forbidden <;> cases frames <;> cases rootSeen <;> cases complained <;> cases unfit <;> rfl

theorem close_withReports (o : Options) (frame : Frame) (g : Growth) (reports : List Report)
    (once : Bool) : close o frame (g.withReports reports once) =
      (g.close o frame).withReports reports once := by
  rw [close_eq, close_eq]
  rfl

theorem enter_withReports (o : Options) (name : String) (unary : Bool) (frame : Frame) (g : Growth)
    (reports : List Report) (once : Bool) : enter o name unary frame (g.withReports reports once) =
      (g.enter o name unary frame).withReports reports once := by
  unfold enter
  cases o.isPreformatted name <;> cases unary
  · rfl
  · exact close_withReports o frame g reports once
  · rfl
  · exact close_withReports o frame { g with preformatted := g.preformatted + 1 } reports once

section

variable (template : String) {o : Options} {g : Growth} (hskipped : g.skipped = 0)
include hskipped

theorem ignoresReports_start [o.Additive] (hroom : g.frames.length < nestingLimit) (name : String)
    (attributes : List Attribute) (unary : Bool) (span : Span) :
    IgnoresReports (start o name attributes unary span) g := by
  let tag := elementOfTag o name attributes unary span
  let frame := Frame.mk tag.1.head tag.1.children.reverse
  obtain ⟨made, hplace⟩ := place_withReports tag.1.head g
  refine ⟨made ++ tag.2.reverse,
    (place tag.1.head g).2.enter o name unary (frame (place tag.1.head g).1),
    fun reports once => ?_⟩
  rw [start_eq_element, if_neg (by simp [withReports, hskipped]; omega), List.append_assoc,
    ← enter_withReports]
  dsimp only
  change enter o name unary
    (frame (place tag.1.head (g.withReports (tag.2.reverse ++ reports) once)).1)
    (place tag.1.head (g.withReports (tag.2.reverse ++ reports) once)).2 = _
  rw [hplace]

theorem ignoresReports_finish (span : Span) : IgnoresReports (finish o span) g := by
  cases hframes : g.frames with
  | nil => exact ⟨[], g, fun reports once => by simp [finish, withReports, hskipped, hframes]⟩
  | cons frame outer =>
    refine ⟨[], close o { frame with head := frame.head.endingAt span } { g with frames := outer },
      fun reports once => ?_⟩
    rw [finish_eq (g := g.withReports reports once) o span hskipped hframes]
    exact close_withReports o _ { g with frames := outer } reports once

theorem ignoresReports_text (content : String) (span : Option Span) :
    IgnoresReports (text template o content span) g := by
  cases hframes : g.frames with
  | nil =>
    let lone := textForRoot (.ofSpan? span)
    let outside := textOutsideRoot content (.ofSpan? span)
    have htext : ∀ reports once, text template o content span (g.withReports reports once) =
        if content == template then complain lone (g.withReports reports once)
        else if allBlank content then g.withReports reports once
        else complain outside (g.withReports reports once) := by
      intro reports once
      rw [text, if_neg (by simp [withReports, hskipped])]
      simp only [withReports, hframes, lone, outside]
    split at htext
    · obtain ⟨made, g', hmade⟩ := ignoresReports_complain lone g
      exact ⟨made, g', fun reports once => (htext reports once).trans (hmade reports once)⟩
    split at htext
    · exact ⟨[], g, htext⟩
    · obtain ⟨made, g', hmade⟩ := ignoresReports_complain outside g
      exact ⟨made, g', fun reports once => (htext reports once).trans (hmade reports once)⟩
  | cons frame outer =>
    refine ⟨[], { g with
      frames := frame.addContent o (decide (g.preformatted > 0)) content span :: outer },
      fun reports once => ?_⟩
    rw [text, if_neg (by simp [withReports, hskipped])]
    simp only [withReports, hframes, Frame.addContent]
    cases textFor (decide (g.preformatted > 0)) frame content with
    | none => rw [← hframes]; rfl
    | some text => rfl

theorem ignoresReports_step [o.Additive] {e : Event}
    (hroom : e.isStart = true → g.frames.length < nestingLimit) :
    IgnoresReports (fun g => step template o g e) g := by
  cases e with
  | startTag name attributes unary span =>
    exact ignoresReports_start hskipped (hroom rfl) name attributes unary span
  | endTag name span => exact ignoresReports_finish hskipped span
  | text content span => exact ignoresReports_text template hskipped content span
  | comment content span =>
    cases hframes : g.frames with
    | nil =>
      refine ⟨[], g, fun reports once => ?_⟩
      simp [step, comment, withReports, hskipped, hframes]
    | cons frame outer =>
      refine ⟨[], { g with frames := frame.add (.comment content span) :: outer },
        fun reports once => ?_⟩
      simp [step, comment, withReports, hskipped, hframes, Frame.add]
  | warning message range => exact ⟨[_], g, fun _ _ => rfl⟩

end

/-! ### How many elements are open -/

/-- So many elements are open, and nothing is being left out. -/
structure HasOpen (level : Nat) (g : Growth) : Prop where
  skipped : g.skipped = 0
  length : g.frames.length = level

theorem HasOpen.close {level : Nat} {g : Growth} (h : g.HasOpen level) (o : Options)
    (frame : Frame) : (g.close o frame).HasOpen level := by
  have hlength := congrArg List.length (map_head_close o frame g)
  rw [List.length_map, List.length_map] at hlength
  exact ⟨(sameReports_close o frame g).skipped.trans h.skipped, hlength.trans h.length⟩

section

variable {o : Options} {level : Nat} {g : Growth}

theorem HasOpen.start (h : g.HasOpen level) (hroom : level < nestingLimit)
    (name : String) (attributes : List Attribute) (unary : Bool) (span : Span) :
    (g.start o name attributes unary span).HasOpen (if unary then level else level + 1) := by
  have hplace : ¬ (decide (g.skipped > 0) || decide (g.frames.length ≥ nestingLimit)) = true := by
    simp [h.skipped, h.length, hroom]
  rw [start_eq_enter, if_neg hplace]
  generalize elementAfter o name attributes unary span g.reports = made
  dsimp only
  have hsame := sameFrames_place made.1.head { g with reports := made.2 }
  generalize place made.1.head { g with reports := made.2 } = placed at hsame ⊢
  obtain ⟨n, hn⟩ := recount_eq (o.isPreformatted name) (placed.2.preformatted + 1) placed.2
  have hplaced : HasOpen level { placed.2 with preformatted := n } :=
    ⟨hsame.skipped.trans h.skipped, (congrArg List.length hsame.frames).trans h.length⟩
  rw [enter, hn]
  cases unary with
  | true => exact hplaced.close o _
  | false => exact ⟨hplaced.skipped, congrArg Nat.succ hplaced.length⟩

theorem HasOpen.finish (h : g.HasOpen (level + 1)) (span : Span) :
    (g.finish o span).HasOpen level := by
  obtain ⟨frame, outer, hframes⟩ := List.exists_cons_of_length_eq_add_one h.length
  have hlength := h.length
  rw [hframes, List.length_cons] at hlength
  rw [finish_eq o span h.skipped hframes]
  exact HasOpen.close (g := { g with frames := outer }) ⟨h.skipped, Nat.succ.inj hlength⟩ o _

theorem HasOpen.content (h : g.HasOpen level) (template : String) {e : Event}
    (he : e.isTag = false) : (step template o g e).HasOpen level := by
  cases hframes : g.frames with
  | nil =>
    have hg : g.Settled [] g.root := ⟨hframes, rfl, h.skipped⟩
    have hsettled := hg.content_outside (o := o) template he
    have hlength := h.length
    rw [hframes] at hlength
    exact ⟨hsettled.skipped, by rw [hsettled.frames, hlength]⟩
  | cons frame outer =>
    have hlength := h.length
    rw [hframes] at hlength
    have hg : g.Settled (frame :: outer) g.root := ⟨hframes, rfl, h.skipped⟩
    cases e with
    | startTag name attributes unary span => cases he
    | endTag name span => cases he
    | text content span =>
      have hsettled := hg.text_eq (o := o) template content span
      exact ⟨hsettled.skipped, (congrArg List.length hsettled.frames).trans hlength⟩
    | comment content span =>
      have hsettled := hg.comment_eq content span
      exact ⟨hsettled.skipped, (congrArg List.length hsettled.frames).trans hlength⟩
    | warning message range => exact ⟨h.skipped, h.length⟩

end

/-! ### The pruned events give the same tree -/

/-- The first state has a report more than the second, on an element that is too deep, and they are
the same otherwise; or they are the same. -/
inductive Lost : Option Span → Growth → Growth → Prop where
  | nothing {g : Growth} (honce : g.skippedOnce = false) : Lost none g g
  | first {g : Growth} (span : Span) (earlier later : List Report) (honce : g.skippedOnce = false)
      (hreports : g.reports = later ++ earlier) :
      Lost (some span) (g.withReports (later ++ tooDeeplyNested span :: earlier) true) g

section

variable {first : Option Span} {g k : Growth} (h : Lost first g k)
include h

theorem Lost.frames_eq : g.frames = k.frames := by
  cases h <;> rfl

theorem Lost.skipped_eq : g.skipped = k.skipped := by
  cases h <;> rfl

theorem Lost.step (template : String) (o : Options) [o.Additive] (e : Event)
    (hskipped : k.skipped = 0) (hroom : e.isStart = true → k.frames.length < nestingLimit) :
    Lost first (step template o g e) (step template o k e) := by
  obtain ⟨made, hstep, hreports, honce⟩ :=
    (ignoresReports_step template (o := o) hskipped hroom).eq
  cases h with
  | nothing hnone => exact .nothing (honce.trans hnone)
  | first span earlier later hnone hkept =>
    have hlater := hstep (later ++ tooDeeplyNested span :: earlier) true
    rw [hlater, ← List.append_assoc]
    refine .first span earlier (made ++ later) (honce.trans hnone) ?_
    rw [hreports, hkept, List.append_assoc]

/-- An element is too deep: it is reported unless one was before, and its warnings are. -/
theorem Lost.deep (span : Span) (said : List Report) :
    Lost (first.or (some span)) (g.withReports (said ++ g.reportsWith span) true)
      (k.withReports (said ++ k.reports) k.skippedOnce) := by
  cases h with
  | nothing honce =>
    rw [reportsWith, honce, if_neg Bool.false_ne_true]
    exact Lost.first (g := g.withReports (said ++ g.reports) false) span g.reports said rfl rfl
  | first span' earlier later honce hreports =>
    have hkept : said ++ k.reports = (said ++ later) ++ earlier := by
      rw [hreports, List.append_assoc]
    have hlost := Lost.first (g := k.withReports (said ++ k.reports) k.skippedOnce) span' earlier
      (said ++ later) honce hkept
    rw [List.append_assoc] at hlost
    exact hlost

end

/-- Both have the same root, and the reports differ by the one. -/
theorem Lost.told {first : Option Span} {g k : Growth} (h : Lost first g k) :
    g.root = k.root ∧ k.skippedOnce = false ∧
      ((first = none ∧ g.reports.reverse = k.reports.reverse) ∨
        ∃ span earlier later, first = some span ∧
          g.reports.reverse = earlier ++ tooDeeplyNested span :: later ∧
          k.reports.reverse = earlier ++ later) := by
  cases h with
  | nothing honce => exact ⟨rfl, honce, .inl ⟨rfl, rfl⟩⟩
  | first span earlier later honce hreports =>
    refine ⟨rfl, honce, .inr ⟨span, earlier.reverse, later.reverse, rfl, ?_, ?_⟩⟩
    · simp [withReports]
    · rw [hreports, List.reverse_append]

theorem foldl_filter_isWarning (template : String) (o : Options) (events rest : List Event)
    (g : Growth) :
    (events.filter Event.isWarning ++ rest).foldl (step template o) g =
      rest.foldl (step template o) (g.withReports (warned events ++ g.reports) g.skippedOnce) := by
  induction events generalizing g with
  | nil => rfl
  | cons e events ih =>
    rw [warned_cons, List.append_assoc]
    cases e with
    | warning message range => exact ih (g.report (.error message range))
    | startTag name attributes unary span => exact ih g
    | endTag name span => exact ih g
    | text content span => exact ih g
    | comment content span => exact ih g

/-- Pruned events grow into the same tree, and all that they do not report is the first element that
was dropped. -/
theorem lost_foldl (template : String) (o : Options) [o.Additive] {level : Nat}
    {events kept : List Event} {dropped : List Span} (h : Prunes level events kept dropped)
    {first : Option Span} {g k : Growth} (hlost : Lost first g k) (hopen : k.HasOpen level) :
    Lost (first.or dropped.head?) (events.foldl (step template o) g)
        (kept.foldl (step template o) k) ∧
      (kept.foldl (step template o) k).HasOpen level := by
  induction h generalizing first g k with
  | nil => exact ⟨by simpa using hlost, hopen⟩
  | @content level e events kept dropped he _ ih =>
    have hstart : e.isStart = false := by
      cases e <;> first | rfl | cases he
    exact ih (hlost.step template o e hopen.skipped fun h => by simp [hstart] at h)
      (hopen.content template he)
  | @unary level events kept dropped name attributes span hroom _ ih =>
    exact ih (hlost.step template o _ hopen.skipped fun _ => hopen.length ▸ hroom)
      (hopen.start hroom name attributes true span)
  | @deepUnary level events kept dropped name attributes span hdeep _ ih =>
    have hlength : nestingLimit ≤ g.frames.length := by
      rwa [hlost.frames_eq, hopen.length]
    have hrest := ih (hlost.deep span []) hopen
    rw [Option.or_assoc, Option.some_or] at hrest
    have hstart : Growth.step template o g (.startTag name attributes true span) =
        g.withReports (g.reportsWith span) true := start_unary_of_tooDeep o hlength ..
    rw [List.foldl_cons, hstart]
    exact hrest
  | @element level inner rest kept kept' dropped dropped' name attributes span span' hroom _ _
      ihinner ihrest =>
    obtain ⟨hinner, hfilled⟩ := ihinner
      (hlost.step template o (.startTag name attributes false span) hopen.skipped
        fun _ => hopen.length ▸ hroom)
      (hopen.start hroom name attributes false span)
    obtain ⟨hrest, hfinal⟩ := ihrest
      (hinner.step template o (.endTag name span') hfilled.skipped fun hstart => by cases hstart)
      (hfilled.finish span')
    rw [foldl_element, foldl_element, List.head?_append, ← Option.or_assoc]
    exact ⟨hrest, hfinal⟩
  | @deepElement level inner rest kept outlines dropped name attributes span span' hdeep hinner _
      ih =>
    have hlength : nestingLimit ≤ g.frames.length := by
      rwa [hlost.frames_eq, hopen.length]
    have hrest := ih (hlost.deep span (warned inner)) ⟨hopen.skipped, hopen.length⟩
    rw [Option.or_assoc, Option.some_or] at hrest
    rw [foldl_of_tooDeep template o hinner (hlost.skipped_eq.trans hopen.skipped) hlength,
      foldl_filter_isWarning]
    exact hrest

end Growth

/-- An error among reports stands among the errors, and nowhere among the tips. -/
theorem diagnostics_insert (leading : Option Nat) (earlier later : List Report) {r : Report}
    (hr : r.isError = true) :
    (Diagnostics.of leading (earlier ++ r :: later)).tips =
        (Diagnostics.of leading (earlier ++ later)).tips ∧
      ∃ before after, (Diagnostics.of leading (earlier ++ r :: later)).errors =
          before ++ r.relocate leading :: after ∧
        (Diagnostics.of leading (earlier ++ later)).errors = before ++ after := by
  have hmoved : (r.relocate leading).isError = true := by rwa [Report.isError_relocate]
  constructor
  · simp [Diagnostics.of, hmoved]
  · exact ⟨(Diagnostics.of leading earlier).errors, (Diagnostics.of leading later).errors,
      by simp [Diagnostics.of, hmoved], by simp [Diagnostics.of]⟩

/-- The limit takes away what is too deep and nothing else. The events of a markup can be pruned,
and however they are, what is left is not too deep, and it is all events exactly if no element is
dropped. If the modules only add to the reports, the tree is the one that grows from the events that
are left, and nothing is said of the nesting as they grow. The reports are those on what is left,
and if an element is dropped, one more, an error that has the span of the first start tag to go, so
far as positions are asked for. If the modules give no elements to an element, no more than 128
elements stand in each other. -/
theorem tree_prunes (o : Options) (template : String) :
    let events := parse o.markup template
    (∃ kept dropped, Prunes 0 events kept dropped) ∧
    (∀ kept dropped, Prunes 0 events kept dropped →
      Prunes 0 kept kept [] ∧ (dropped = [] ↔ kept = events) ∧
      ((∀ m ∈ o.modules, m.Additive) →
        let pruned := Growth.ofEvents template o kept
        (tree o template).1 = pruned.root ∧ pruned.skippedOnce = false ∧
        ((dropped = [] ∧ (tree o template).2 = pruned.reports.reverse) ∨
          ∃ span more earlier later, dropped = span :: more ∧
            (tree o template).2 = earlier ++ Growth.tooDeeplyNested span :: later ∧
            pruned.reports.reverse = earlier ++ later ∧
            ∀ leading,
              let told := Diagnostics.of leading (tree o template).2
              let toldPruned := Diagnostics.of leading pruned.reports.reverse
              told.tips = toldPruned.tips ∧
              ∃ before after,
                told.errors =
                  before ++ (Growth.tooDeeplyNested span).relocate leading :: after ∧
                toldPruned.errors = before ++ after))) ∧
    ((∀ m ∈ o.modules, m.Flat) →
      ∀ root, (tree o template).1 = some root → root.toNode.height ≤ nestingLimit) := by
  intro events
  refine ⟨?_, ?_, fun hflat root hroot => height_tree_le hflat hroot⟩
  · obtain ⟨outlines, hevents⟩ := exists_brackets_parse o.markup template
    exact exists_prunes hevents 0
  · intro kept dropped hprunes
    refine ⟨hprunes.idem, hprunes.eq_nil_iff, fun hadditive => ?_⟩
    have hinstance : o.Additive := ⟨hadditive⟩
    obtain ⟨hlost, -⟩ := Growth.lost_foldl template o hprunes
      (.nothing (g := {}) rfl) ⟨rfl, rfl⟩
    obtain ⟨hroot, honce, hreports⟩ := hlost.told
    refine ⟨hroot, honce, ?_⟩
    obtain ⟨hfirst, hsame⟩ | ⟨span, earlier, later, hfirst, hfull, hpruned⟩ := hreports
    · exact .inl ⟨List.head?_eq_none_iff.1 hfirst, hsame⟩
    · obtain ⟨more, hdropped⟩ := List.head?_eq_some_iff.1 hfirst
      refine .inr ⟨span, more, earlier, later, hdropped, hfull, hpruned, fun leading => ?_⟩
      have htold := diagnostics_insert leading earlier later (r := Growth.tooDeeplyNested span) rfl
      rwa [← hfull, ← hpruned] at htold

/-- An element below as many others as may be open, and one beside the innermost of these. -/
def deepMarkup : List Char :=
  (List.replicate 128 "<a>".toList).flatten ++ "<b/></a><i/>".toList ++
    (List.replicate 127 "</a>".toList).flatten

def deepTemplate : String := String.ofList deepMarkup

/-- The events of a text that is given by its characters. -/
theorem parse_ofList (o : Markup.Options) (s : List Char) :
    parse o (String.ofList s) =
      let (pieces, opened) := traceFrom o (lastClose s) [] 0 s
      pieces.flatMap Piece.events ++ closeAll opened (String.ofList s).utf8ByteSize := by
  simp only [parse, trace, String.toList_ofList]

/-- The events of the sample: only `b` starts where so many are open. -/
def deepEvents : List Event :=
  (List.range 128).map (fun n => .startTag "a" [] false ⟨3 * n, 3⟩) ++
    [.startTag "b" [] true ⟨384, 4⟩, .endTag "a" ⟨388, 4⟩, .startTag "i" [] true ⟨392, 4⟩] ++
    (List.range 127).map fun n => .endTag "a" ⟨396 + 4 * n, 4⟩

theorem parse_deepTemplate : parse Options.web.markup deepTemplate = deepEvents := by
  -- The kernel is slow to take the characters out of a long text.
  refine (parse_ofList Options.web.markup deepMarkup).trans ?_
  decide +kernel

/-- The sample loses an element, and what is left makes its tree. -/
theorem tree_prunes_deepTemplate :
    let o := Options.web.override {}
    ∃ kept span more, Prunes 0 (parse o.markup deepTemplate) kept (span :: more) ∧
      (tree o deepTemplate).1 = (Growth.ofEvents deepTemplate o kept).root ∧
      ∀ root, (tree o deepTemplate).1 = some root → root.toNode.height ≤ nestingLimit := by
  intro o
  have hadditive : ∀ m ∈ o.modules, m.Additive := (modest_override_web rfl).additive
  have hflat : ∀ m ∈ o.modules, m.Flat :=
    forall_mem_modules_web rfl (flat_takingModule _ _ _) (flat_takingModule _ _ _)
  have hdeep : (Growth.ofEvents deepTemplate o (parse o.markup deepTemplate)).skippedOnce =
      true := by
    rw [show parse o.markup deepTemplate = deepEvents from parse_deepTemplate]
    decide +kernel
  obtain ⟨⟨kept, dropped, hprunes⟩, hpruned, hheight⟩ := tree_prunes o deepTemplate
  obtain ⟨-, hall, htold⟩ := hpruned kept dropped hprunes
  obtain ⟨hroot, honce, -⟩ := htold hadditive
  cases dropped with
  | nil =>
    rw [hall.1 rfl, hdeep] at honce
    cases honce
  | cons span more => exact ⟨kept, span, more, hprunes, hroot, hheight hflat⟩

/-- So many elements in each other, all with one head. -/
def Head.nest (head : Head) : Nat → List Node
  | 0 => []
  | n + 1 => [.element head (head.nest n)]

/-- A module that gives as many elements to an element as may be open. -/
def nestingModule : Module where
  staticKeys := []
  transform := fun _ e reports => (⟨e.head, e.head.nest nestingLimit⟩, reports)

/-- A module that forgets what was reported. -/
def forgettingModule : Module where
  staticKeys := []
  transform := fun _ e _ => (e, [])

/-- A module that says once more what was said last. -/
def repeatingModule : Module where
  staticKeys := []
  transform := fun _ e reports => (e, reports.take 1 ++ reports)

/-- A module may make a tree higher than the limit, and it may forget that something was too deep or
say it again. Where no positions are asked for, the error on what is too deep has none. -/
theorem nestingLimit_exceeded :
    (tree { Options.web with modules := [nestingModule] } "<p></p>").1.map
        (fun root => root.toNode.height) = some 129 ∧
      (tree { Options.web with modules := [forgettingModule] } deepTemplate).2 = [] ∧
      (tree { Options.web with modules := [repeatingModule] } deepTemplate).2 =
        [Growth.tooDeeplyNested ⟨384, 4⟩, Growth.tooDeeplyNested ⟨384, 4⟩] ∧
      (tree Options.web deepTemplate).2 = [Growth.tooDeeplyNested ⟨384, 4⟩] ∧
      (Diagnostics.of none (tree Options.web deepTemplate).2).errors =
        [{ Growth.tooDeeplyNested ⟨384, 4⟩ with range := .unknown }] := by
  have hreports (modules : List Module) :
      (tree { Options.web with modules } deepTemplate).2 = (Growth.ofEvents deepTemplate
        { Options.web with modules } deepEvents).reports.reverse :=
    congrArg (fun events => (Growth.ofEvents deepTemplate
      { Options.web with modules } events).reports.reverse) parse_deepTemplate
  have htree : (tree Options.web deepTemplate).2 = [Growth.tooDeeplyNested ⟨384, 4⟩] :=
    (hreports Options.web.modules).trans (by decide +kernel)
  refine ⟨by decide +kernel, (hreports _).trans (by decide +kernel),
    (hreports _).trans (by decide +kernel), htree, ?_⟩
  rw [htree]
  decide

end HtmlTemplate.Template
