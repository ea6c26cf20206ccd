import HtmlTemplate.Proofs.ActingTags

/-!
# Elements that leave nothing behind

`Sheds` takes from the events of a markup every element below the root whose start tag is found to
act, from this tag to the end tag that belongs to it. What is left grows into the same tree
(`Growth.silent_sheds`): such an element is built apart, and when it ends the growing tree is as it
was before but for reports (`Growth.silent_leftElement`).
-/

namespace HtmlTemplate.Template

open Text Markup

/-- The element of the tag stands in another one, there is room for it, and it acts. -/
def StartedTag.isForbidden (t : StartedTag) : Bool :=
  decide (0 < t.level) && (decide (t.level < nestingLimit) && t.acts)

/-- The element of the tag stands in another one and is found to act. -/
def StartedTag.leaves (t : StartedTag) : Bool := decide (0 < t.level) && t.isNoticed

theorem StartedTag.leaves_eq (t : StartedTag) :
    t.leaves = (t.isForbidden && isActingName t.name) := by
  rw [leaves, isNoticed, isForbidden, Bool.and_assoc, Bool.and_assoc]

theorem StartedTag.isActingName_of_isNoticed {t : StartedTag} (h : t.isNoticed = true) :
    isActingName t.name = true := by
  rw [isNoticed, Bool.and_eq_true, Bool.and_eq_true] at h
  exact h.2.2

theorem StartedTag.isNoticed_of_isForbidden {t : StartedTag} (h : t.isForbidden = true)
    (hname : isActingName t.name = true) : t.isNoticed = true := by
  rw [isForbidden, Bool.and_eq_true] at h
  rw [isNoticed, hname, Bool.and_true, h.2]

/-- What is left of bracketed events if the elements are taken away that are found to act in
others. -/
inductive Sheds : Nat → List Event → List Event → Prop where
  | nil (level : Nat) : Sheds level [] []
  | content {level : Nat} {e : Event} {events kept : List Event} (he : e.isTag = false)
      (hrest : Sheds level events kept) : Sheds level (e :: events) (e :: kept)
  | unary {level : Nat} {events kept : List Event} {name : String} {attributes : List Attribute}
      {span : Span} (hstays : StartedTag.leaves ⟨level, name, attributes, true, span⟩ = false)
      (hrest : Sheds level events kept) :
      Sheds level (.startTag name attributes true span :: events)
        (.startTag name attributes true span :: kept)
  | leftUnary {level : Nat} {events kept : List Event} {name : String}
      {attributes : List Attribute} {span : Span}
      (hleaves : StartedTag.leaves ⟨level, name, attributes, true, span⟩ = true)
      (hrest : Sheds level events kept) :
      Sheds level (.startTag name attributes true span :: events) kept
  | element {level : Nat} {inner rest kept kept' : List Event} {name : String}
      {attributes : List Attribute} {span span' : Span}
      (hstays : StartedTag.leaves ⟨level, name, attributes, false, span⟩ = false)
      (hinner : Sheds (level + 1) inner kept) (hrest : Sheds level rest kept') :
      Sheds level (.startTag name attributes false span :: inner ++ .endTag name span' :: rest)
        (.startTag name attributes false span :: kept ++ .endTag name span' :: kept')
  | leftElement {level : Nat} {inner rest kept : List Event} {outlines : List Outline}
      {name : String} {attributes : List Attribute} {span span' : Span}
      (hleaves : StartedTag.leaves ⟨level, name, attributes, false, span⟩ = true)
      (hinner : Brackets inner outlines) (hrest : Sheds level rest kept) :
      Sheds level (.startTag name attributes false span :: inner ++ .endTag name span' :: rest) kept

/-- The elements can be taken from bracketed events. -/
theorem exists_sheds {events : List Event} {outlines : List Outline} (h : Brackets events outlines)
    (level : Nat) : ∃ kept, Sheds level events kept := by
  induction h generalizing level with
  | nil => exact ⟨[], .nil level⟩
  | content he _ ih =>
    obtain ⟨kept, hrest⟩ := ih level
    exact ⟨_, .content he hrest⟩
  | unary name attributes span _ ih =>
    obtain ⟨kept, hrest⟩ := ih level
    cases hleaves : StartedTag.leaves ⟨level, name, attributes, true, span⟩ with
    | true => exact ⟨_, .leftUnary hleaves hrest⟩
    | false => exact ⟨_, .unary hleaves hrest⟩
  | element name attributes span span' hinner _ ihinner ihrest =>
    obtain ⟨kept', hrest⟩ := ihrest level
    cases hleaves : StartedTag.leaves ⟨level, name, attributes, false, span⟩ with
    | true => exact ⟨_, .leftElement hleaves hinner hrest⟩
    | false =>
      obtain ⟨kept, hkept⟩ := ihinner (level + 1)
      exact ⟨_, .element hleaves hkept hrest⟩

/-- All events are bracketed, and so is what is left. -/
theorem Sheds.brackets {level : Nat} {events kept : List Event} (h : Sheds level events kept) :
    (∃ outlines, Brackets events outlines) ∧ ∃ outlines, Brackets kept outlines := by
  induction h with
  | nil => exact ⟨⟨[], .nil⟩, [], .nil⟩
  | content he _ ih =>
    obtain ⟨⟨outlines, hevents⟩, outlines', hkept⟩ := ih
    exact ⟨⟨outlines, .content he hevents⟩, outlines', .content he hkept⟩
  | unary _ _ ih =>
    obtain ⟨⟨outlines, hevents⟩, outlines', hkept⟩ := ih
    exact ⟨⟨_, .unary _ _ _ hevents⟩, _, .unary _ _ _ hkept⟩
  | leftUnary _ _ ih =>
    obtain ⟨⟨outlines, hevents⟩, hkept⟩ := ih
    exact ⟨⟨_, .unary _ _ _ hevents⟩, hkept⟩
  | element _ _ _ ihinner ihrest =>
    obtain ⟨⟨children, hinner⟩, children', hinner'⟩ := ihinner
    obtain ⟨⟨outlines, hrest⟩, outlines', hrest'⟩ := ihrest
    exact ⟨⟨_, .element _ _ _ _ hinner hrest⟩, _, .element _ _ _ _ hinner' hrest'⟩
  | leftElement _ hinner _ ih =>
    obtain ⟨⟨outlines, hrest⟩, hkept⟩ := ih
    exact ⟨⟨_, .element _ _ _ _ hinner hrest⟩, hkept⟩

/-- What is left has start tags of the markup, each as deep as it was. -/
theorem Sheds.startedTags_sublist {level : Nat} {events kept : List Event}
    (h : Sheds level events kept) :
    (startedTags level kept).Sublist (startedTags level events) := by
  induction h with
  | nil level => exact List.Sublist.refl _
  | content he _ ih => rwa [startedTags_content he, startedTags_content he]
  | unary _ _ ih => exact ih.cons_cons _
  | leftUnary _ _ ih => exact ih.cons _
  | element _ hinner _ ihinner ihrest =>
    obtain ⟨⟨outlines, hevents⟩, outlines', hkept⟩ := hinner.brackets
    rw [startedTags_element hevents, startedTags_element hkept]
    exact (ihinner.append ihrest).cons_cons _
  | leftElement _ hinner _ ih =>
    rw [startedTags_element hinner]
    exact (List.sublist_append_of_sublist_right ih).cons _

/-- No element is left that is found to act in another one. -/
theorem Sheds.leaves_eq_false {level : Nat} {events kept : List Event}
    (h : Sheds level events kept) : ∀ t ∈ startedTags level kept, t.leaves = false := by
  induction h with
  | nil => simp [startedTags]
  | content he _ ih => rwa [startedTags_content he]
  | unary hstays _ ih => exact List.forall_mem_cons.2 ⟨hstays, ih⟩
  | leftUnary _ _ ih => exact ih
  | element hstays hinner _ ihinner ihrest =>
    obtain ⟨-, outlines, hkept⟩ := hinner.brackets
    rw [startedTags_element hkept]
    exact List.forall_mem_cons.2 ⟨hstays, List.forall_mem_append.2 ⟨ihinner, ihrest⟩⟩
  | leftElement _ _ _ ih => exact ih

/-- If all elements that should be left out have their names in small letters, none is left. -/
theorem Sheds.isForbidden_eq_false {level : Nat} {events kept : List Event}
    (h : Sheds level events kept)
    (hsmall : ∀ t ∈ startedTags level events, t.isForbidden = true → isActingName t.name = true) :
    ∀ t ∈ startedTags level kept, t.isForbidden = false := by
  intro t ht
  have hleaves := h.leaves_eq_false t ht
  rw [StartedTag.leaves_eq] at hleaves
  by_contra hforbidden
  rw [Bool.not_eq_false] at hforbidden
  rw [hforbidden, hsmall t (h.startedTags_sublist.subset ht) hforbidden] at hleaves
  cases hleaves

namespace Growth

/-! ### Growing without reports -/

/-- The state without its reports. -/
def silent (g : Growth) : Growth := g.withReports [] false

/-- What an event does besides reporting does not depend on the reports. -/
theorem silent_step (template : String) (o : Options) [o.Additive] (e : Event) (g : Growth) :
    (step template o g e).silent = (step template o g.silent e).silent := by
  by_cases hroom : g.skipped = 0 ∧ (e.isStart = true → g.frames.length < nestingLimit)
  · obtain ⟨made, hstep, -, -⟩ := (ignoresReports_step template (o := o) hroom.1 hroom.2).eq
    have hsilent : step template o g.silent e =
        (step template o g e).withReports (made ++ []) false := hstep [] false
    rw [hsilent]
    rfl
  · have hskipped : e.isStart = false → 0 < g.skipped := fun hstart =>
      Nat.pos_of_ne_zero fun h => hroom ⟨h, fun h => by rw [hstart] at h; cases h⟩
    cases e with
    | startTag name attributes unary span =>
      have hdeep : 0 < g.skipped ∨ nestingLimit ≤ g.frames.length := by
        by_contra hno
        push Not at hno
        exact hroom ⟨Nat.eq_zero_of_le_zero hno.1, fun _ => hno.2⟩
      rw [step, step, start_of_tooDeep hdeep, start_of_tooDeep (g := g.silent) hdeep, skip_eq,
        skip_eq]
      rfl
    | endTag name span =>
      rw [step, step, finish_of_skipped o span (hskipped rfl),
        finish_of_skipped (g := g.silent) o span (hskipped rfl)]
      rfl
    | text content span =>
      rw [step_of_skipped (hskipped rfl) rfl, step_of_skipped (g := g.silent) (hskipped rfl) rfl]
      rfl
    | comment content span =>
      rw [step_of_skipped (hskipped rfl) rfl, step_of_skipped (g := g.silent) (hskipped rfl) rfl]
      rfl
    | warning message range => rfl

theorem silent_step_congr (template : String) (o : Options) [o.Additive] (e : Event) {g k : Growth}
    (h : g.silent = k.silent) : (step template o g e).silent = (step template o k e).silent := by
  rw [silent_step, h, ← silent_step]

/-! ### In an open element nothing happens to the root -/

/-- Nothing is newly known of the root. -/
structure SameSeen (g' g : Growth) : Prop where
  rootSeen : g'.rootSeen = g.rootSeen
  complained : g'.complained = g.complained

theorem SameSeen.trans {first second third : Growth} (h : first.SameSeen second)
    (h' : second.SameSeen third) : first.SameSeen third :=
  ⟨h.rootSeen.trans h'.rootSeen, h.complained.trans h'.complained⟩

theorem sameSeen_close (o : Options) (frame : Frame) (g : Growth) :
    (g.close o frame).SameSeen g := by
  rw [close_eq]
  exact ⟨rfl, rfl⟩

theorem sameSeen_enter (o : Options) (name : String) (unary : Bool) (frame : Frame) (g : Growth) :
    (g.enter o name unary frame).SameSeen g := by
  obtain ⟨n, hn⟩ := recount_eq (o.isPreformatted name) (g.preformatted + 1) g
  unfold enter
  rw [hn]
  cases unary with
  | true => exact (sameSeen_close o frame { g with preformatted := n }).trans ⟨rfl, rfl⟩
  | false => exact ⟨rfl, rfl⟩

theorem sameSeen_place (head : Head) {g : Growth} (hframes : g.frames ≠ []) :
    (g.place head).2.SameSeen g := by
  have hplace : (g.place head).2 =
      if hasSideEffects head then g.report (sideEffects head) else g := by
    unfold place
    cases hasSideEffects head <;> simp [report, List.isEmpty_eq_false_iff.2 hframes]
  rw [hplace]
  split <;> exact ⟨rfl, rfl⟩

theorem sameSeen_step (template : String) (o : Options) (e : Event) {g : Growth}
    (hframes : g.frames ≠ []) : (step template o g e).SameSeen g := by
  cases e with
  | startTag name attributes unary span =>
    rw [step, start_eq_enter]
    split
    · rw [skip_eq]
      exact ⟨rfl, rfl⟩
    · generalize elementAfter o name attributes unary span g.reports = made
      have hplace := sameSeen_place (g := { g with reports := made.2 }) made.1.head hframes
      exact (sameSeen_enter ..).trans (hplace.trans ⟨rfl, rfl⟩)
  | endTag name span =>
    rw [step, finish]
    split
    · exact ⟨rfl, rfl⟩
    split
    · exact ⟨rfl, rfl⟩
    · next frame outer _ => exact (sameSeen_close o _ { g with frames := outer }).trans ⟨rfl, rfl⟩
  | text content span =>
    rw [step, text]
    split
    · exact ⟨rfl, rfl⟩
    split
    · next hnone => exact absurd hnone hframes
    · split <;> exact ⟨rfl, rfl⟩
  | comment content span =>
    rw [step, comment]
    split
    · exact ⟨rfl, rfl⟩
    · split <;> exact ⟨rfl, rfl⟩
  | warning message range => exact ⟨rfl, rfl⟩

theorem AtLevel.frames_ne_nil {level : Nat} {g : Growth} (h : g.AtLevel level) (hpos : 0 < level) :
    g.frames ≠ [] := by
  have hlength := h.length
  have hlimit : 0 < nestingLimit := Nat.succ_pos 127
  exact List.ne_nil_of_length_pos (by omega)

theorem sameSeen_foldl (template : String) (o : Options) {events : List Event}
    {outlines : List Outline} (h : Brackets events outlines) {level : Nat} {g : Growth}
    (hlevel : g.AtLevel level) (hpos : 0 < level) :
    (events.foldl (step template o) g).SameSeen g := by
  induction h generalizing level g with
  | nil => exact ⟨rfl, rfl⟩
  | @content e events _ he _ ih =>
    have hfirst := sameSeen_step template o e (hlevel.frames_ne_nil hpos)
    exact (ih (hlevel.content template he) hpos).trans hfirst
  | @unary events _ name attributes span _ ih =>
    have hfirst := sameSeen_step template o (.startTag name attributes true span)
      (hlevel.frames_ne_nil hpos)
    exact (ih (hlevel.start name attributes true span) hpos).trans hfirst
  | @element inner rest _ _ name attributes span span' hinner _ ihinner ihrest =>
    have hfirst := sameSeen_step template o (.startTag name attributes false span)
      (hlevel.frames_ne_nil hpos)
    have hopened := hlevel.start (o := o) name attributes false span
    have hfilled := hlevel.inside (o := o) template hinner name attributes span
    have hlast := sameSeen_step template o (.endTag name span')
      (hfilled.frames_ne_nil (Nat.succ_pos level))
    rw [foldl_element]
    exact (((ihrest (hfilled.finish span') hpos).trans hlast).trans
      (ihinner hopened (Nat.succ_pos level))).trans hfirst

/-! ### The tree without the elements that leave -/

theorem leaves_cases {o : Options} (hdeeds : ∀ m ∈ o.modules, m.Keeps Head.deed) {t : StartedTag}
    (h : t.leaves = true) : 0 < t.level ∧ t.level < nestingLimit ∧
      hasSideEffects (headOfTag o t.name t.attributes t.unary t.span).1 = true := by
  obtain ⟨hpos, hnoticed⟩ := Bool.and_eq_true_iff.1 h
  have hroom : t.level < nestingLimit := of_decide_eq_true (Bool.and_eq_true_iff.1 hnoticed).1
  exact ⟨of_decide_eq_true hpos, hroom, isNoticed_eq hdeeds t hroom ▸ hnoticed⟩

/-- A state that is settled as another one is the same but for reports, if they count alike and
have seen the same root. -/
theorem silent_eq {o : Options} {g g' : Growth} (hsettled : g'.Settled g.frames g.root)
    (hskipped : g.skipped = 0) (hcounted : g.Counted o) (hcounted' : g'.Counted o)
    (hseen : g'.SameSeen g) : g'.silent = g.silent := by
  obtain ⟨hframes, hroot, hskipped'⟩ := hsettled
  have hpreformatted : g'.preformatted = g.preformatted := by
    rw [hcounted', hframes, hcounted]
  have hsame := hskipped'.trans hskipped.symm
  obtain ⟨hrootSeen, hcomplained⟩ := hseen
  obtain ⟨_, _, _, _, _, _, _, _⟩ := g
  obtain ⟨_, _, _, _, _, _, _, _⟩ := g'
  simp only at hframes hroot hpreformatted hsame hrootSeen hcomplained
  simp only [silent, withReports, hframes, hroot, hpreformatted, hsame, hrootSeen, hcomplained]

theorem AtLevel.settled {level : Nat} {g : Growth} (h : g.AtLevel level) (hpos : 0 < level)
    (hroom : level < nestingLimit) :
    ∃ frame outer, g.frames = frame :: outer ∧ outer.length + 1 < nestingLimit ∧
      g.Settled (frame :: outer) g.root := by
  have hopen := h.hasOpen hroom.le
  obtain ⟨frame, outer, hframes⟩ := List.exists_cons_of_ne_nil (h.frames_ne_nil hpos)
  have hlength := hopen.length
  rw [hframes, List.length_cons] at hlength
  exact ⟨frame, outer, hframes, hlength ▸ hroom, hframes, rfl, hopen.skipped⟩

section

variable {o : Options} (hdeeds : ∀ m ∈ o.modules, m.Keeps Head.deed) (hnames : o.KeepsNames)
  {level : Nat} {g : Growth} (hlevel : g.AtLevel level) (hcounted : g.Counted o) {name : String}
  {attributes : List Attribute} {span : Span}
include hdeeds hnames hlevel hcounted

/-- An element without an end tag that leaves was there only for its reports. -/
theorem silent_leftUnary
    (hleaves : StartedTag.leaves ⟨level, name, attributes, true, span⟩ = true) :
    (g.start o name attributes true span).silent = g.silent := by
  have hmodest := hnames.modest
  obtain ⟨hpos, hroom, hforbidden⟩ := leaves_cases hdeeds hleaves
  obtain ⟨frame, outer, hframes, hplace, hg⟩ := hlevel.settled hpos hroom
  have hstart := hg.start_unary (o := o) hplace name attributes span
  dsimp only at hforbidden hstart
  rw [hforbidden, if_pos rfl, ← hframes] at hstart
  exact silent_eq hstart hg.skipped hcounted
    (counted_start hnames hcounted name attributes true span)
    (sameSeen_step "" o (.startTag name attributes true span) (hlevel.frames_ne_nil hpos))

/-- When an element that leaves ends, all is as it was before it but for reports. -/
theorem silent_leftElement (template : String) {inner : List Event} {outlines : List Outline}
    (hinner : Brackets inner outlines)
    (hleaves : StartedTag.leaves ⟨level, name, attributes, false, span⟩ = true) (span' : Span) :
    ((inner.foldl (step template o) (g.start o name attributes false span)).finish o span').silent =
      g.silent := by
  have hmodest := hnames.modest
  obtain ⟨hpos, hroom, hforbidden⟩ := leaves_cases hdeeds hleaves
  obtain ⟨frame, outer, hframes, hplace, hg⟩ := hlevel.settled hpos hroom
  have hopened := hg.start_element (o := o) hplace name attributes span
  dsimp only at hforbidden hopened
  rw [hforbidden, if_pos rfl] at hopened
  have hcounted₁ := counted_start hnames hcounted name attributes false span
  obtain ⟨inside, hfills, hfilled⟩ := fills_foldl template hinner hopened fun _ => hcounted₁
  have hended := hfilled.finish_detached (o := o) rfl hfills.same.2 span'
  rw [← hframes] at hended
  -- what is known of the root and the count of preformatted elements are as before, too
  have hseen := sameSeen_foldl template o
    (.element name attributes span span' hinner .nil) hlevel hpos
  rw [foldl_element, List.foldl_nil] at hseen
  have hcounted₂ := counted_finish (counted_foldl hnames hcounted₁ template inner) span'
  exact silent_eq hended hg.skipped hcounted hcounted₂ hseen

end

/-- What is left grows into the same tree. -/
theorem silent_sheds {o : Options} (hdeeds : ∀ m ∈ o.modules, m.Keeps Head.deed)
    (hnames : o.KeepsNames) (template : String) {level : Nat} {events kept : List Event}
    (h : Sheds level events kept) {g k : Growth} (hsame : g.silent = k.silent)
    (hlevel : g.AtLevel level) (hcounted : g.Counted o) :
    (events.foldl (step template o) g).silent = (kept.foldl (step template o) k).silent := by
  have hmodest := hnames.modest
  induction h generalizing g k with
  | nil => exact hsame
  | @content level e events kept he _ ih =>
    exact ih (silent_step_congr template o e hsame) (hlevel.content template he)
      (counted_step hnames hcounted template e)
  | @unary level events kept name attributes span _ _ ih =>
    exact ih (silent_step_congr template o (.startTag name attributes true span) hsame)
      (hlevel.start name attributes true span)
      (counted_start hnames hcounted name attributes true span)
  | @leftUnary level events kept name attributes span hleaves _ ih =>
    have hleft := silent_leftUnary hdeeds hnames hlevel hcounted hleaves
    exact ih (hleft.trans hsame) (hlevel.start name attributes true span)
      (counted_start hnames hcounted name attributes true span)
  | @element level inner rest kept kept' name attributes span span' _ hinner _ ihinner ihrest =>
    obtain ⟨⟨outlines, hbrackets⟩, -⟩ := hinner.brackets
    have hopened := silent_step_congr template o (.startTag name attributes false span) hsame
    have hcounted₁ := counted_start hnames hcounted name attributes false span
    have hcounted₂ := counted_foldl hnames hcounted₁ template inner
    have hfilled := ihinner hopened (hlevel.start name attributes false span) hcounted₁
    rw [foldl_element, foldl_element]
    exact ihrest (silent_step_congr template o (.endTag name span') hfilled)
      ((hlevel.inside template hbrackets name attributes span).finish span')
      (counted_finish hcounted₂ span')
  | @leftElement level inner rest kept outlines name attributes span span' hleaves hinner _ ih =>
    have hleft := silent_leftElement hdeeds hnames hlevel hcounted template hinner hleaves span'
    have hcounted₁ := counted_start hnames hcounted name attributes false span
    have hcounted₂ := counted_foldl hnames hcounted₁ template inner
    rw [foldl_element]
    exact ih (hleft.trans hsame)
      ((hlevel.inside template hinner name attributes span).finish span')
      (counted_finish hcounted₂ span')

end Growth

end HtmlTemplate.Template
