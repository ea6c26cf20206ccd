import HtmlTemplate.Proofs.ActingTags
import HtmlTemplate.Proofs.Compiles
import HtmlTemplate.Proofs.EventSpans
import HtmlTemplate.Proofs.Positions

/-!
# Complaints about tags that act

Of all reports of a growing tree, `tellsSideEffects` finds those that say of a tag that it acts.
They are the complaints about the tags for whose elements there is room, which act, and whose names
are in small letters: one for each, in the order of the tags, and no others (`Growth.told_foldl`).
-/

namespace HtmlTemplate.Template

open Text Markup

/-! ### Reports on tags that act -/

/-- The report says of a tag that it acts. -/
def tellsSideEffects (r : Report) : Bool :=
  r.isError && "Templates should only be responsible for".toList.isPrefixOf r.message.toList &&
    " as they will not be parsed.".toList.isSuffixOf r.message.toList

theorem tells_sideEffects (head : Head) : tellsSideEffects (Growth.sideEffects head) = true := by
  have hsuffix :
      " as they will not be parsed.".toList <:+ ">, as they will not be parsed.".toList :=
    ⟨">,".toList, rfl⟩
  have hprefix : "Templates should only be responsible for".toList <+:
      ("Templates should only be responsible for mapping the state to the UI. " ++
        "Avoid placing tags with side-effects in your templates, such as <").toList :=
    ⟨(" mapping the state to the UI. " ++
      "Avoid placing tags with side-effects in your templates, such as <").toList, by simp⟩
  rw [tellsSideEffects, Growth.sideEffects, Report.error, Bool.and_eq_true, Bool.and_eq_true,
    List.isPrefixOf_iff_prefix, List.isSuffixOf_iff_suffix]
  refine ⟨⟨rfl, ?_⟩, ?_⟩
  · rw [String.toList_append, String.toList_append, List.append_assoc]
    exact hprefix.trans (List.prefix_append _ _)
  · rw [String.toList_append]
    exact hsuffix.trans (List.suffix_append _ _)

theorem tells_relocate (leading : Option Nat) (r : Report) :
    tellsSideEffects (r.relocate leading) = tellsSideEffects r := by
  cases leading <;> rfl

/-- Most reports begin with other letters. -/
theorem not_tells_of_take {r : Report} (h : r.message.toList.take 2 ≠ ['T', 'e']) :
    tellsSideEffects r = false := by
  rw [tellsSideEffects, Bool.and_eq_false_iff, Bool.and_eq_false_iff]
  refine .inl (.inr (Bool.eq_false_iff.2 fun hprefix => h ?_))
  obtain ⟨rest, hrest⟩ := List.isPrefixOf_iff_prefix.1 hprefix
  rw [← hrest]
  rfl

/-- What is said of an interpolation may begin as it likes, with the name of the attribute, but it
ends in other letters. -/
theorem not_tells_interpolatedAttribute (name value instead : String) (range : Locus) :
    tellsSideEffects (interpolatedAttribute name value instead range) = false := by
  rw [tellsSideEffects, Bool.and_eq_false_iff]
  refine .inr (Bool.eq_false_iff.2 fun hsuffix => ?_)
  obtain ⟨before, hbefore⟩ := List.isSuffixOf_iff_suffix.1 hsuffix
  have hlast := congrArg (List.take 2 ∘ List.reverse) hbefore
  simp [interpolatedAttribute, Report.error] at hlast

/-- None of the reports says that a tag acts. -/
def Quiet (reports : List Report) : Prop := ∀ r ∈ reports, tellsSideEffects r = false

theorem Quiet.filter {reports : List Report} (h : Quiet reports) :
    reports.filter tellsSideEffects = [] :=
  List.filter_eq_nil_iff.2 fun r hr => Bool.eq_false_iff.1 (h r hr)

theorem Quiet.append {reports more : List Report} (h : Quiet reports) (h' : Quiet more) :
    Quiet (reports ++ more) :=
  List.forall_mem_append.2 ⟨h, h'⟩

theorem quiet_nil : Quiet [] := by simp [Quiet]

theorem quiet_singleton {r : Report} (h : tellsSideEffects r = false) : Quiet [r] := by
  simpa [Quiet] using h

theorem Purpose.quiet_reports (registered : String → Bool) (a : Attribute) (p : Purpose) :
    Quiet (p.reports registered a) := by
  unfold Purpose.reports
  split
  · split
    · exact quiet_singleton (not_tells_of_take (by simp [emptyBinding, Report.error]))
    · exact quiet_nil
  · split
    · exact quiet_nil
    · exact quiet_singleton rfl
  · exact quiet_nil

theorem quiet_sortAfter (registered : String → Bool) (seen : List String)
    (attributes : List Attribute) : Quiet (sortAfter registered seen attributes).reports := by
  induction attributes generalizing seen with
  | nil => exact quiet_nil
  | cons a attributes ih =>
    unfold sortAfter
    split
    · refine (quiet_singleton (not_tells_of_take ?_)).append (ih seen)
      simp [duplicateAttribute, Report.error]
    · have hreports : ((sortAfter registered (a.name :: seen) attributes).cons (Purpose.of a)
          ((Purpose.of a).reports registered a)).reports = (Purpose.of a).reports registered a ++
            (sortAfter registered (a.name :: seen) attributes).reports := by
        unfold Sorted.cons
        split <;> rfl
      rw [hreports]
      exact (Purpose.quiet_reports registered a _).append (ih _)

/-- The module says of no tag that it acts. -/
def Module.IsQuiet (m : Module) : Prop := ∀ s head, Quiet (m.onHead s head).2

theorem isQuiet_takingModule (staticKeys : List String) (name : String)
    (keep : Head → String → Head) : (takingModule staticKeys name keep).IsQuiet := by
  intro s head
  rw [onHead_takingModule]
  unfold takePlain
  split
  · exact quiet_nil
  · dsimp only
    split
    · exact quiet_singleton (not_tells_interpolatedAttribute ..)
    · exact quiet_nil

theorem isQuiet_override_web {v : Overrides} (hmodules : v.modules = []) :
    ∀ m ∈ (Options.web.override v).modules, m.IsQuiet :=
  forall_mem_modules_web hmodules (isQuiet_takingModule _ _ _) (isQuiet_takingModule _ _ _)

theorem quiet_transformHead {modules : List Module} (hmodules : ∀ m ∈ modules, m.IsQuiet)
    (s : Settings) (head : Head) : Quiet (Growth.transformHead s modules head).2 := by
  induction modules generalizing head with
  | nil => exact quiet_nil
  | cons m modules ih =>
    exact (hmodules m (by simp) s head).append (ih (fun m hm => hmodules m (by simp [hm])) _)

theorem quiet_plainReports (d : Delimiters) (head : Head) :
    Quiet (Growth.plainReports d head) := by
  intro r hr
  obtain ⟨p, -, hp⟩ := List.mem_filterMap.1 hr
  dsimp only at hp
  split at hp
  · cases hp
    exact not_tells_interpolatedAttribute ..
  · cases hp

/-- What is said of the attributes of a tag is not that it acts. -/
theorem quiet_headOfTag {o : Options} (hmodules : ∀ m ∈ o.modules, m.IsQuiet) (name : String)
    (attributes : List Attribute) (unary : Bool) (span : Span) :
    Quiet (Growth.headOfTag o name attributes unary span).2 :=
  ((quiet_sortAfter _ [] attributes).append (quiet_transformHead hmodules o.toSettings _)).append
    (quiet_plainReports o.delimiters _)

/-! ### Reports of the check -/

/-- What holds of all reports on expressions holds of all that the check of a tree says. -/
theorem Node.forall_mem_check {P : Report → Prop}
    (hexpression : ∀ expression written span, ∀ r ∈ checkExpression expression written span, P r)
    (n : Node) : ∀ r ∈ n.check, P r := by
  have hbinding : ∀ b : Binding, ∀ r ∈ b.check, P r := by
    intro b
    refine List.forall_mem_append.2 ⟨?_, hexpression _ _ _⟩
    split
    · exact hexpression _ _ _
    · simp
  have hdirective : ∀ d : Directive, ∀ r ∈ d.check, P r := by
    intro d
    unfold Directive.check
    split
    · simp
    · exact hexpression _ _ _
  have hcondition : ∀ head : Head, ∀ r ∈ head.checkCondition, P r := by
    intro head
    unfold Head.checkCondition
    split
    · simp
    · exact hexpression _ _ _
  have hhead : ∀ head : Head, ∀ r ∈ head.check, P r := by
    intro head
    refine List.forall_mem_append.2 ⟨List.forall_mem_append.2 ⟨?_, hcondition head⟩, ?_⟩
    · exact List.forall_mem_flatMap.2 fun b _ => hbinding b
    · exact List.forall_mem_flatMap.2 fun d _ => hdirective d
  induction n using Node.induction with
  | comment content span => simp [check]
  | text run =>
    refine List.forall_mem_flatMap.2 fun p _ => ?_
    cases p with
    | fixed text => simp
    | expression code => exact hexpression _ _ _
  | element head children ih =>
    rw [check, checkAll_eq]
    exact List.forall_mem_append.2 ⟨hhead head, List.forall_mem_flatMap.2 ih⟩

theorem quiet_checkExpression (expression written : String) (span : Option Span) :
    Quiet (checkExpression expression written span) := by
  unfold checkExpression
  split
  · exact quiet_nil
  · refine quiet_singleton (not_tells_of_take ?_)
    unfold faultMessage
    split <;> simp [Report.error]

/-- The check of a tree does not tell of tags that act. -/
theorem quiet_checked {c : Compiler} (hc : c = .web ∨ c = .webUnchecked) (root : Option Element) :
    Quiet (c.checked root) := by
  rcases hc with rfl | rfl
  · cases root with
    | none => exact quiet_nil
    | some root => exact Node.forall_mem_check quiet_checkExpression root.toNode
  · cases root <;> exact quiet_nil

/-! ### What a growing tree tells -/

/-- The events hold no warning that says of a tag that it acts. -/
def QuietWarnings (events : List Event) : Prop :=
  ∀ message range, .warning message range ∈ events → tellsSideEffects (.error message range) = false

/-- Markup is not warned of for tags that act. -/
theorem quietWarnings_parse (o : Options) (markup : String) :
    QuietWarnings (parse o.markup markup) := by
  intro message range hmem
  have hspanless : Event.warning message range ∈
      (parse (o.asking true).markup markup).map Event.spanless := by
    rw [← View.ofEvents_spanless, ← View.parse_eq (agree_asking true), View.ofEvents_spanless]
    exact List.mem_map.2 ⟨_, hmem, rfl⟩
  obtain ⟨e, he, hwarning⟩ := List.mem_map.1 hspanless
  have hstands := stands_parse (o := (o.asking true).markup) rfl markup e he
  cases e with
  | warning message' range' =>
    obtain ⟨rfl, rfl⟩ := Event.warning.inj hwarning
    cases hstands with
    | missingEnd => exact not_tells_of_take (by simp [Report.error])
    | malformedEnd => exact not_tells_of_take (by simp [Report.error])
  | startTag name attributes unary span => cases hwarning
  | endTag name span => cases hwarning
  | text content span => cases hwarning
  | comment content span => cases hwarning

/-- What is said of the tags that are found to act. -/
def complaints (tags : List StartedTag) : List Report :=
  (tags.filter StartedTag.isNoticed).map StartedTag.complaint

theorem complaints_singleton (t : StartedTag) :
    complaints [t] = if t.isNoticed then [t.complaint] else [] := by
  rw [complaints, List.filter_singleton]
  cases t.isNoticed <;> rfl

theorem complaints_append (tags more : List StartedTag) :
    complaints (tags ++ more) = complaints tags ++ complaints more := by
  rw [complaints, List.filter_append, List.map_append, complaints, complaints]

namespace Growth

/-- The reports of tags that act, newest first. -/
def told (g : Growth) : List Report := g.reports.filter tellsSideEffects

theorem told_of_reports {g g' : Growth} (made : List Report) (h : g'.reports = made ++ g.reports)
    (hmade : Quiet made) : g'.told = g.told := by
  rw [told, h, List.filter_append, hmade.filter]
  rfl

theorem told_complain {r : Report} (h : tellsSideEffects r = false) (g : Growth) :
    (g.complain r).told = g.told := by
  unfold complain
  split
  · rfl
  · exact told_of_reports [r] rfl (quiet_singleton h)

theorem told_place (head : Head) (g : Growth) :
    (g.place head).2.told =
      (if hasSideEffects head then [sideEffects head] else []) ++ g.told := by
  have hreported : (if hasSideEffects head then g.report (sideEffects head) else g).told =
      (if hasSideEffects head then [sideEffects head] else []) ++ g.told := by
    split
    · exact List.filter_cons_of_pos (tells_sideEffects head)
    · rfl
  unfold place
  dsimp only
  rw [← hreported]
  generalize (if hasSideEffects head then g.report (sideEffects head) else g) = g'
  split
  · rfl
  split
  · exact told_complain (not_tells_of_take (by simp [secondRoot, Report.error])) g'
  split
  · exact told_complain (not_tells_of_take (by simp [unfitRoot, Report.error]))
      { g' with rootSeen := true }
  · rfl

theorem told_skip (unary : Bool) (span : Span) (g : Growth) :
    (g.skip unary span).told = g.told := by
  rw [skip_eq]
  unfold reportsWith
  split
  · rfl
  · refine told_of_reports [tooDeeplyNested span] rfl (quiet_singleton ?_)
    exact not_tells_of_take (by simp [tooDeeplyNested, Report.error])

theorem told_close (o : Options) (frame : Frame) (g : Growth) : (g.close o frame).told = g.told :=
  congrArg (List.filter tellsSideEffects) (sameReports_close o frame g).reports

theorem told_finish (o : Options) (span : Span) (g : Growth) : (g.finish o span).told = g.told := by
  unfold finish
  split
  · rfl
  split
  · rfl
  · next frame outer _ => exact told_close o _ { g with frames := outer }

theorem told_text (template : String) (o : Options) (content : String) (span : Option Span)
    (g : Growth) : (g.text template o content span).told = g.told := by
  unfold text
  split
  · rfl
  split
  · split
    · exact told_complain (not_tells_of_take (by simp [textForRoot, Report.error])) g
    split
    · rfl
    · exact told_complain (not_tells_of_take (by simp [textOutsideRoot, Report.error])) g
  · split <;> rfl

theorem told_comment (content : String) (span : Span) (g : Growth) :
    (g.comment content span).told = g.told := by
  unfold comment
  split
  · rfl
  · split <;> rfl

section

variable {o : Options} [o.Modest] (hdeeds : ∀ m ∈ o.modules, m.Keeps Head.deed)
  (hquiet : ∀ m ∈ o.modules, m.IsQuiet) {level : Nat} {g : Growth} (h : g.AtLevel level)
include hdeeds

omit [o.Modest] in
theorem complaint_eq (t : StartedTag) :
    t.complaint = sideEffects (headOfTag o t.name t.attributes t.unary t.span).1 := by
  have hdeed := deed_headOfTag hdeeds t
  generalize (headOfTag o t.name t.attributes t.unary t.span).1 = head at hdeed
  obtain ⟨hname, -, hspan⟩ := by simpa [Head.deed] using hdeed
  rw [StartedTag.complaint, sideEffects, sideEffects, hname, hspan]
  rfl

include hquiet h

/-- A start tag is told of exactly if it is found to act. -/
theorem told_start (name : String) (attributes : List Attribute) (unary : Bool) (span : Span) :
    (g.start o name attributes unary span).told =
      complaints [⟨level, name, attributes, unary, span⟩] ++ g.told := by
  by_cases hroom : level < nestingLimit
  · have hopen := h.hasOpen hroom.le
    have hsaid := quiet_headOfTag hquiet name attributes unary span
    have hnoticed := isNoticed_eq hdeeds ⟨level, name, attributes, unary, span⟩ hroom
    have hcomplaint := complaint_eq hdeeds ⟨level, name, attributes, unary, span⟩
    rw [start_eq_ite, if_neg (by simp [hopen.skipped, hopen.length, hroom])]
    dsimp only at hnoticed hcomplaint ⊢
    generalize headOfTag o name attributes unary span = tag at hsaid hnoticed hcomplaint ⊢
    have hreported : Growth.told { g with reports := tag.2.reverse ++ g.reports } = g.told :=
      told_of_reports _ rfl fun r hr => hsaid r (List.mem_reverse.1 hr)
    have hentered := congrArg (List.filter tellsSideEffects) (sameReports_enter o name unary
      ⟨tag.1, [], (place tag.1 { g with reports := tag.2.reverse ++ g.reports }).1⟩
      (place tag.1 { g with reports := tag.2.reverse ++ g.reports }).2).reports
    refine hentered.trans ((told_place tag.1 _).trans ?_)
    rw [hreported, complaints_singleton, hnoticed, hcomplaint]
  · have hdeep : nestingLimit ≤ level := Nat.le_of_not_lt hroom
    rw [start_of_tooDeep (h.tooDeep hdeep), told_skip, complaints_singleton, StartedTag.isNoticed,
      decide_eq_false hroom]
    rfl

theorem told_step (template : String) {e : Event} (hwarnings : QuietWarnings [e]) :
    (step template o g e).told = complaints (startedTag? level e).toList ++ g.told := by
  cases e with
  | startTag name attributes unary span =>
    exact told_start hdeeds hquiet h name attributes unary span
  | endTag name span => exact told_finish o span g
  | text content span => exact told_text template o content span g
  | comment content span => exact told_comment content span g
  | warning message range =>
    have hwarning := hwarnings message range List.mem_cons_self
    exact told_of_reports [_] rfl (quiet_singleton hwarning)

/-- The tags that are found to act are told of, in their order, and no others. -/
theorem told_foldl (template : String) {events : List Event} (hwarnings : QuietWarnings events) :
    (events.foldl (step template o) g).told =
      (complaints (startedTags level events)).reverse ++ g.told := by
  induction events generalizing level g with
  | nil => rfl
  | cons e events ih =>
    have hfirst := told_step hdeeds hquiet h template (e := e) fun message range hmem =>
      hwarnings message range (List.mem_singleton.1 hmem ▸ List.mem_cons_self)
    have hrest := ih (h.step (o := o) template e) fun message range hmem =>
      hwarnings message range (List.mem_cons_of_mem e hmem)
    have hone : (complaints (startedTag? level e).toList).reverse =
        complaints (startedTag? level e).toList := by
      cases startedTag? level e with
      | none => rfl
      | some t =>
        rw [Option.toList_some, complaints_singleton]
        split <;> rfl
    rw [List.foldl_cons, hrest, hfirst, startedTags, complaints_append, List.reverse_append,
      List.append_assoc, hone]

end

end Growth

end HtmlTemplate.Template
