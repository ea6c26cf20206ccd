import HtmlTemplate.Proofs.Compiles
import HtmlTemplate.Proofs.Complaints
import HtmlTemplate.Proofs.Preformatted
import HtmlTemplate.Proofs.Shedding

/-!
# Elements that act are left out

A template may not hold elements that act. Below the root of a compiled tree there is no element
whose tag is found to act (`Fills.shown`), each such tag is reported once, and the tree and its code
are those of the events without these elements. A tag whose name is not in small letters is not
found, so that elements that act are left out exactly if none of their tags in other elements has
such a name (`acting_elements_left_out`).
-/

namespace HtmlTemplate.Template

open Text Markup

/-! ### The tags of shown elements -/

/-- The element comes from one of the tags, which stands in another element and is not found to
act. -/
def ShownFrom (tags : List StartedTag) (e : Element) : Prop :=
  ∃ t ∈ tags, 0 < t.level ∧ t.level < nestingLimit ∧ t.isNoticed = false ∧
    e.head.name = t.name ∧ e.head.plain? "type" = t.type?

theorem ShownFrom.mono {tags more : List StartedTag} {e : Element} (h : ShownFrom tags e)
    (hle : ∀ t ∈ tags, t ∈ more) : ShownFrom more e := by
  obtain ⟨t, ht, hshown⟩ := h
  exact ⟨t, hle t ht, hshown⟩

/-- An element shows that acts only if its name is not in small letters. -/
theorem ShownFrom.isActingName_eq_false {tags : List StartedTag} {e : Element}
    (h : ShownFrom tags e) (hacts : acts e.head.name (e.head.plain? "type") = true) :
    isActingName e.head.name = false := by
  obtain ⟨t, -, -, hroom, hnoticed, hname, htype⟩ := h
  rw [hname, htype] at hacts
  rw [StartedTag.isNoticed, decide_eq_true hroom, Bool.true_and, StartedTag.acts, hacts,
    Bool.true_and] at hnoticed
  rwa [hname]

/-- If all tags that should be left out are in small letters, no element shows that acts. -/
theorem ShownFrom.acts_eq_false {tags : List StartedTag} {e : Element} (h : ShownFrom tags e)
    (hsmall : ∀ t ∈ tags, t.isForbidden = true → isActingName t.name = true) :
    acts e.head.name (e.head.plain? "type") = false := by
  obtain ⟨t, ht, hpos, hroom, hnoticed, hname, htype⟩ := h
  by_contra hacts
  rw [Bool.not_eq_false, hname, htype] at hacts
  have hforbidden : t.isForbidden = true := by
    rw [StartedTag.isForbidden, decide_eq_true hpos, decide_eq_true hroom, StartedTag.acts, hacts]
    rfl
  rw [StartedTag.isNoticed_of_isForbidden hforbidden (hsmall t ht hforbidden)] at hnoticed
  cases hnoticed

section

variable {o : Options} (hdeeds : ∀ m ∈ o.modules, m.Keeps Head.deed)
include hdeeds

theorem shownFrom_tag {tags : List StartedTag} {t : StartedTag} (ht : t ∈ tags)
    (hpos : 0 < t.level) (hroom : t.level < nestingLimit) {head : Head}
    (hhead : head = (Growth.headOfTag o t.name t.attributes t.unary t.span).1)
    (hshows : Growth.hasSideEffects head = false) {e : Element} (hname : e.head.name = head.name)
    (hplain : e.head.plain = head.plain) : ShownFrom tags e := by
  have hdeed := deed_headOfTag hdeeds t
  have hnoticed := isNoticed_eq hdeeds t hroom
  rw [← hhead] at hdeed hnoticed
  obtain ⟨hname', htype, -⟩ := by simpa [Head.deed] using hdeed
  refine ⟨t, ht, hpos, hroom, hnoticed.trans hshows, hname.trans hname', ?_⟩
  rw [← htype, Head.plain?, Head.plain?, hplain]

/-- Every element in a node that was added comes from a tag that is not found to act. -/
theorem Fills.shown {above : List String} {frame final : Frame} {events : List Event}
    (h : Fills o above frame events final) {n : Node} (hn : n ∈ final.children) :
    n ∈ frame.children ∨ ∀ e ∈ n.elements, ShownFrom (startedTags (above.length + 1) events) e := by
  induction h generalizing n with
  | nil => exact .inl hn
  | warning message range _ ih => exact ih hn
  | comment content span _ ih =>
    rcases ih hn with hn | hn
    · rcases List.mem_cons.1 hn with rfl | hn
      · exact .inr fun e he => by cases he
      · exact .inl hn
    · exact .inr hn
  | text content span _ _ ih =>
    rcases ih hn with hn | hn
    · rcases mem_children_addContent hn with hn | ⟨run, rfl⟩
      · exact .inl hn
      · exact .inr fun e he => by cases he
    · exact .inr hn
  | unary hroom hhead hshows _ ih =>
    rcases ih hn with hn | hn
    · rcases List.mem_cons.1 hn with rfl | hn
      · refine .inr fun e he => ?_
        rcases List.mem_cons.1 he with rfl | he
        · exact shownFrom_tag hdeeds List.mem_cons_self (Nat.succ_pos _) hroom hhead hshows rfl rfl
        · cases he
      · exact .inl hn
    · exact .inr fun e he => (hn e he).mono fun t => List.mem_cons_of_mem _
  | @element above frame inside final inner rest kept name attributes span span' head hroom hhead
      hshows hinner _ _ ihinner ihrest =>
    obtain ⟨outlines, hbrackets⟩ := hinner.brackets
    rw [startedTags_element hbrackets]
    rcases ihrest hn with hn | hn
    · rcases List.mem_cons.1 hn with rfl | hn
      · refine .inr fun e he => ?_
        rcases List.mem_cons.1 he with rfl | he
        · exact shownFrom_tag hdeeds List.mem_cons_self (Nat.succ_pos _) hroom hhead hshows rfl rfl
        · obtain ⟨m, hm, he⟩ := mem_elementsAll.1 he
          rcases ihinner (Growth.mem_of_mem_closedChildren hm) with hm | hm
          · cases hm
          · refine (hm e he).mono fun t ht => List.mem_cons_of_mem _ ?_
            exact List.mem_append_left _ ht
      · exact .inl hn
    · refine .inr fun e he => (hn e he).mono fun t ht => List.mem_cons_of_mem _ ?_
      exact List.mem_append_right _ ht
  | leftUnary _ _ ih =>
    refine (ih hn).imp_right fun hn e he => (hn e he).mono fun t => List.mem_cons_of_mem _
  | leftElement _ hinner _ ih =>
    rw [startedTags_element hinner]
    refine (ih hn).imp_right fun hn e he => (hn e he).mono fun t ht => List.mem_cons_of_mem _ ?_
    exact List.mem_append_right _ ht

end

/-! ### The tags below the root -/

namespace Growth

/-- Every element below the root comes from a tag that is not found to act. -/
def RootShown (tags : List StartedTag) (root : Option Element) : Prop :=
  ∀ e ∈ root, ∀ e' ∈ elementsAll e.children, ShownFrom tags e'

theorem rootShown_unary {o : Options} [o.Modest] {g : Growth} {root : Option Element}
    (hg : g.Settled [] root) {tags : List StartedTag} (hroot : RootShown tags root) (name : String)
    (attributes : List Attribute) (span : Span) :
    ∃ root', (g.start o name attributes true span).Settled [] root' ∧ RootShown tags root' := by
  obtain ⟨root', hstart, rfl | ⟨e, rfl, harises⟩⟩ :=
    rootFrom_unary (o := o) hg name attributes span
  · exact ⟨root', hstart, hroot⟩
  · refine ⟨_, hstart, ?_⟩
    rintro e' he' e'' he''
    cases he'
    cases harises with
    | unary => cases he''
    | element hpart =>
      have hlength := hpart.length_le
      simp at hlength

section

variable {o : Options} (hdeeds : ∀ m ∈ o.modules, m.Keeps Head.deed)
include hdeeds

theorem rootShown_element [o.Modest] (template : String) {inner : List Event}
    {outlines : List Outline} (hinner : Brackets inner outlines) {g : Growth}
    {root : Option Element} (hg : g.Settled [] root) (hcounted : o.KeepsNames → g.Counted o)
    {tags : List StartedTag} (hroot : RootShown tags root)
    (htags : ∀ t ∈ startedTags 1 inner, t ∈ tags) (name : String) (attributes : List Attribute)
    (span span' : Span) :
    ∃ root', ((inner.foldl (step template o)
        (g.start o name attributes false span)).finish o span').Settled [] root' ∧
      RootShown tags root' := by
  obtain ⟨placed, placement, hplaced, hplacement, hstart⟩ :=
    hg.start_outside (o := o) name attributes false span
  obtain ⟨n, hn⟩ := recount_eq (o.isPreformatted name) (placed.preformatted + 1) placed
  have hopened : (g.start o name attributes false span).Settled
      [⟨(headOfTag o name attributes false span).1, [], placement⟩] root := by
    rw [hstart, enter, hn]
    exact ⟨congrArg _ hplaced.frames, hplaced.root, hplaced.skipped⟩
  obtain ⟨inside, hinside, hlast⟩ := fills_foldl template hinner hopened fun hnames =>
    counted_start hnames (hcounted hnames) name attributes false span
  obtain ⟨popped, hpopped, -, hfinish⟩ := hlast.finish_eq (o := o) span'
  obtain ⟨root', hclosed, hroot'⟩ := hpopped.close_outside (o := o)
    { inside with head := inside.head.endingAt span' } (by rwa [hinside.same.2])
  rw [hfinish]
  refine ⟨root', hclosed, ?_⟩
  obtain rfl | rfl := hroot'
  · exact hroot
  · rintro e he e' he'
    cases he
    obtain ⟨m, hm, he'⟩ := mem_elementsAll.1 he'
    rcases hinside.shown hdeeds (mem_of_mem_closedChildren hm) with hm | hm
    · cases hm
    · exact (hm e' he').mono htags

/-- Bracketed events outside elements leave nothing open, and what they show does not act. -/
theorem rootShown_foldl [o.Modest] (template : String) {events : List Event}
    {outlines : List Outline} (h : Brackets events outlines) {g : Growth} {root : Option Element}
    (hg : g.Settled [] root) (hcounted : o.KeepsNames → g.Counted o) {tags : List StartedTag}
    (hroot : RootShown tags root) (htags : ∀ t ∈ startedTags 0 events, t ∈ tags) :
    RootShown tags (events.foldl (step template o) g).root := by
  induction h generalizing g root with
  | nil =>
    rw [List.foldl_nil, hg.root]
    exact hroot
  | @content e events _ he _ ih =>
    rw [startedTags_content he] at htags
    exact ih (hg.content_outside template he)
      (fun hnames => counted_step hnames (hcounted hnames) template e) hroot htags
  | @unary events _ name attributes span _ ih =>
    obtain ⟨root', hstart, hroot'⟩ := rootShown_unary (o := o) hg hroot name attributes span
    exact ih hstart (fun hnames => counted_start hnames (hcounted hnames) name attributes true span)
      hroot' fun t ht => htags t (List.mem_cons_of_mem _ ht)
  | @element inner rest _ _ name attributes span span' hinner _ _ ihrest =>
    rw [startedTags_element hinner] at htags
    have hbelow : ∀ t ∈ startedTags 1 inner ++ startedTags 0 rest, t ∈ tags :=
      fun t ht => htags t (List.mem_cons_of_mem _ ht)
    obtain ⟨root', hfirst, hroot'⟩ := rootShown_element hdeeds template hinner hg hcounted hroot
      (fun t ht => hbelow t (List.mem_append_left _ ht)) name attributes span span'
    rw [foldl_element]
    exact ihrest hfirst (fun hnames => counted_finish (counted_foldl hnames
      (counted_start hnames (hcounted hnames) name attributes false span) template inner) span')
      hroot' fun t ht => hbelow t (List.mem_append_right _ ht)

end

end Growth

/-- Every element below the root of a tree comes from a tag that is not found to act. -/
theorem shownFrom_tree {o : Options} [o.Modest] (hdeeds : ∀ m ∈ o.modules, m.Keeps Head.deed)
    {template : String} {root : Element} (hroot : (tree o template).1 = some root) {e : Element}
    (he : e ∈ elementsAll root.children) :
    ShownFrom (startedTags 0 (parse o.markup template)) e := by
  obtain ⟨outlines, hevents⟩ := exists_brackets_parse o.markup template
  have hshown := Growth.rootShown_foldl hdeeds template hevents (g := {}) ⟨rfl, rfl, rfl⟩
    (fun _ => rfl) (fun e he => by cases he) fun t ht => ht
  exact hshown root hroot e he

/-- The last step before the code keeps names and plain attributes. -/
theorem Options.exists_of_mem_finish {o : Options} {root e : Element}
    (he : e ∈ elementsAll (o.finish root).children) :
    ∃ e' ∈ elementsAll root.children, e.head.name = e'.head.name ∧
      e.head.plain = e'.head.plain := by
  have hunmark := o.unmark_finish root
  injection hunmark with _ hchildren
  obtain ⟨n, hn, he⟩ := mem_elementsAll.1 he
  have hmem : n.unmark ∈ unmarkAll root.children := by
    rw [← hchildren, unmarkAll_eq_map]
    exact List.mem_map_of_mem hn
  rw [unmarkAll_eq_map] at hmem
  obtain ⟨m, hm, hsame⟩ := List.mem_map.1 hmem
  have he' : (⟨e.head.unmark, unmarkAll e.children⟩ : Element) ∈ n.unmark.elements := by
    rw [Node.elements_unmark]
    exact List.mem_map.2 ⟨e, he, rfl⟩
  rw [← hsame, Node.elements_unmark] at he'
  obtain ⟨e', hmem', hhead⟩ := List.mem_map.1 he'
  have hname := congrArg (fun e : Element => e.head.name) hhead
  have hplain := congrArg (fun e : Element => e.head.plain) hhead
  exact ⟨e', mem_elementsAll.2 ⟨m, hm, hmem'⟩, hname.symm, hplain.symm⟩

/-! ### What a compile leaves out -/

section

variable {o : Options} (hdeeds : ∀ m ∈ o.modules, m.Keeps Head.deed) (template : String)
include hdeeds

/-- The reports on a tree tell of the tags that are found to act, in their order. -/
theorem told_tree [o.Modest] (hquiet : ∀ m ∈ o.modules, m.IsQuiet) :
    (tree o template).2.filter tellsSideEffects =
      complaints (startedTags 0 (parse o.markup template)) := by
  have hstart : Growth.AtLevel 0 {} := ⟨rfl, rfl⟩
  have htold := Growth.told_foldl hdeeds hquiet hstart template (quietWarnings_parse o template)
  rw [tree, List.filter_reverse]
  refine (congrArg List.reverse htold).trans ?_
  rw [List.reverse_append, List.reverse_reverse]
  rfl

/-- The tree is that of the events without the elements that are found to act. -/
theorem tree_sheds (hnames : o.KeepsNames) {kept : List Event}
    (h : Sheds 0 (parse o.markup template) kept) :
    (tree o template).1 = (Growth.ofEvents template o kept).root := by
  have hroot := congrArg Growth.root
    (Growth.silent_sheds (g := {}) hdeeds hnames template h rfl ⟨rfl, rfl⟩ rfl)
  exact hroot

end

theorem filter_tells_errors (leading : Option Nat) (reports : List Report) :
    (Diagnostics.of leading reports).errors.filter tellsSideEffects =
      (reports.filter tellsSideEffects).map (Report.relocate leading) := by
  have hboth : ∀ r : Report, (tellsSideEffects r && r.isError) = tellsSideEffects r := by
    intro r
    unfold tellsSideEffects
    cases r.isError <;> simp
  have hmoved : tellsSideEffects ∘ Report.relocate leading = tellsSideEffects :=
    funext (tells_relocate leading)
  calc (Diagnostics.of leading reports).errors.filter tellsSideEffects
      = (reports.map (Report.relocate leading)).filter tellsSideEffects := by
        simp only [Diagnostics.of, List.filter_filter, hboth]
    _ = (reports.filter tellsSideEffects).map (Report.relocate leading) := by
        rw [List.filter_map, hmoved]

/-- The tags that are found to act are all that should be told of, exactly if those that should be
left out are in small letters. -/
theorem forall_isActingName_iff {α : Type} (tags : List StartedTag) (say : StartedTag → α) :
    (∀ t ∈ tags, t.isForbidden = true → isActingName t.name = true) ↔
      (tags.filter StartedTag.isNoticed).map say =
        (tags.filter fun t => t.isNoticed || t.isForbidden).map say := by
  constructor
  · intro hsmall
    congr 1
    refine List.filter_congr fun t ht => ?_
    cases hforbidden : t.isForbidden with
    | false => rw [Bool.or_false]
    | true =>
      have hnoticed := StartedTag.isNoticed_of_isForbidden hforbidden (hsmall t ht hforbidden)
      rw [Bool.or_true, hnoticed]
  · intro hsame t ht hforbidden
    -- the first list is a sublist of the second one, and as long
    have hlength := congrArg List.length hsame
    rw [List.length_map, List.length_map] at hlength
    have hsublist := List.monotone_filter_right tags (p := StartedTag.isNoticed)
      (q := fun t => t.isNoticed || t.isForbidden) fun t h => by simp [h]
    have hmem : t ∈ tags.filter StartedTag.isNoticed := by
      rw [hsublist.eq_of_length hlength]
      exact List.mem_filter.2 ⟨ht, by rw [hforbidden, Bool.or_true]⟩
    exact StartedTag.isActingName_of_isNoticed (List.mem_filter.1 hmem).2

namespace Compiler

section

variable {c : Compiler} (hc : c = .web ∨ c = .webUnchecked) {v : Overrides} (template : String)
include hc

theorem optionsFor_web : c.optionsFor v = Options.web.override v :=
  congrArg (Options.override · v) (of_web hc).1

theorem compile_tree_web : (c.compile v template).tree =
    (Template.tree (c.optionsFor v) (trim template)).1.map (c.optionsFor v).finish := by
  rw [← webBackend_tree, ← (of_web hc).2]
  rfl

theorem compile_code_web : (c.compile v template).code =
    ((c.compile v template).tree.map (Element.code (c.optionsFor v))).getD emptyCode := by
  have hcode := webBackend_code (c.optionsFor v) (trim template)
  rw [← (of_web hc).2] at hcode
  exact hcode

variable (hmodules : v.modules = [])
include hmodules

theorem keepsDeed_web : ∀ m ∈ (c.optionsFor v).modules, m.Keeps Head.deed :=
  optionsFor_web hc ▸ keepsDeed_override_web hmodules

/-- Every element below the root of a compiled tree comes from a tag that is not found to act. -/
theorem shownFrom_compile {root : Element} (hroot : (c.compile v template).tree = some root)
    {e : Element} (he : e ∈ elementsAll root.children) :
    ShownFrom (startedTags 0 (parse (c.optionsFor v).markup (trim template))) e := by
  have hdeeds := keepsDeed_web hc hmodules
  have hmodest : (c.optionsFor v).Modest := optionsFor_web hc ▸ modest_override_web hmodules
  rw [compile_tree_web hc] at hroot
  obtain ⟨grown, hgrown, rfl⟩ := Option.map_eq_some_iff.1 hroot
  obtain ⟨e', he', hname, hplain⟩ := Options.exists_of_mem_finish he
  have hshown := shownFrom_tree hdeeds hgrown he'
  rwa [ShownFrom, ← hname, Head.plain?, ← hplain] at hshown

/-- The errors that say of a tag that it acts: one for each tag that is found to, in order. -/
theorem told_errors : (c.compile v template).errors.filter tellsSideEffects =
    (complaints (startedTags 0 (parse (c.optionsFor v).markup (trim template)))).map
      (Report.relocate (c.leading v template)) := by
  have hdeeds := keepsDeed_web hc hmodules
  have hmodest : (c.optionsFor v).Modest := optionsFor_web hc ▸ modest_override_web hmodules
  have hquiet : ∀ m ∈ (c.optionsFor v).modules, m.IsQuiet :=
    optionsFor_web hc ▸ isQuiet_override_web hmodules
  have hreports : c.reports v template =
      (Template.tree (c.optionsFor v) (trim template)).2 ++
        c.checked (c.compile v template).tree := by
    rw [← webBackend_reports, ← (of_web hc).2]
    rfl
  rw [(compile_diagnostics c v template).1, filter_tells_errors, hreports, List.filter_append,
    told_tree hdeeds (trim template) hquiet, (quiet_checked hc _).filter, List.append_nil]

/-- The compiled tree and its code are those of the events without the elements that are found to
act. -/
theorem compile_sheds {kept : List Event}
    (h : Sheds 0 (parse (c.optionsFor v).markup (trim template)) kept) :
    let o := c.optionsFor v
    let grown := (Growth.ofEvents (trim template) o kept).root.map o.finish
    (c.compile v template).tree = grown ∧
      (c.compile v template).code = (grown.map (Element.code o)).getD emptyCode := by
  intro o grown
  have hdeeds := keepsDeed_web hc hmodules
  have hnames : (c.optionsFor v).KeepsNames :=
    optionsFor_web hc ▸ keepsNames_override_web hmodules
  have htree : (c.compile v template).tree = grown := by
    rw [compile_tree_web hc, tree_sheds hdeeds (trim template) hnames h]
  exact ⟨htree, by rw [compile_code_web hc, htree]⟩

end

end Compiler

/-- Elements that act and stand in others are left out of the tree, with a report each, where their
names are in small letters, and only there. The first four parts hold for every template: below the
root nothing is shown that acts under a name in small letters; one error for each tag that is found
to act says so, in order, and no other error does; there are events without the elements that are
found to act in others, and from all such the tree and the code come. The last part says when this
is so for all elements that act, in whatever letters: if and only if all tags of such elements in
others are in small letters, there is no such element in the tree, an error for each of them, and
nothing of them in the events that the code comes from. -/
theorem acting_elements_left_out {c : Compiler} (hc : c = .web ∨ c = .webUnchecked) {v : Overrides}
    (hmodules : v.modules = []) (template : String) :
    let o := c.optionsFor v
    let events := parse o.markup (trim template)
    let tags := startedTags 0 events
    let say := fun t : StartedTag => t.complaint.relocate (c.leading v template)
    let out := c.compile v template
    (∀ root ∈ out.tree, ∀ e ∈ elementsAll root.children,
      acts e.head.name (e.head.plain? "type") = true → isActingName e.head.name = false) ∧
    out.errors.filter tellsSideEffects = (tags.filter StartedTag.isNoticed).map say ∧
    (∃ kept, Sheds 0 events kept) ∧
    (∀ kept, Sheds 0 events kept →
      (startedTags 0 kept).Sublist tags ∧ (∀ t ∈ startedTags 0 kept, t.leaves = false) ∧
      let grown := (Growth.ofEvents (trim template) o kept).root.map o.finish
      out.tree = grown ∧ out.code = (grown.map (Element.code o)).getD emptyCode) ∧
    ((∀ t ∈ tags, t.isForbidden = true → isActingName t.name = true) ↔
      (∀ root ∈ out.tree, ∀ e ∈ elementsAll root.children,
        acts e.head.name (e.head.plain? "type") = false) ∧
      out.errors.filter tellsSideEffects =
        (tags.filter fun t => t.isNoticed || t.isForbidden).map say ∧
      ∀ kept, Sheds 0 events kept → ∀ t ∈ startedTags 0 kept, t.isForbidden = false) := by
  intro o events tags say out
  have hshown : ∀ root ∈ out.tree, ∀ e ∈ elementsAll root.children, ShownFrom tags e :=
    fun root hroot e he => Compiler.shownFrom_compile hc template hmodules hroot he
  have htold : out.errors.filter tellsSideEffects = (tags.filter StartedTag.isNoticed).map say := by
    rw [Compiler.told_errors hc template hmodules, complaints, List.map_map]
    rfl
  obtain ⟨outlines, hevents⟩ := exists_brackets_parse o.markup (trim template)
  have htold_iff := forall_isActingName_iff tags say
  rw [← htold] at htold_iff
  refine ⟨fun root hroot e he => (hshown root hroot e he).isActingName_eq_false, htold,
    exists_sheds hevents 0, fun kept hkept => ⟨hkept.startedTags_sublist, hkept.leaves_eq_false,
      Compiler.compile_sheds hc template hmodules hkept⟩, fun hsmall => ?_,
    fun hleft => htold_iff.2 hleft.2.1⟩
  exact ⟨fun root hroot e he => (hshown root hroot e he).acts_eq_false hsmall,
    htold_iff.1 hsmall, fun kept hkept => hkept.isForbidden_eq_false hsmall⟩

theorem acting_elements_left_out_sample :
    let out := Compiler.web.compile { givePositions := some true }
      "<div>a<style>b</style><script type=\"x\">c</script></div>"
    (∀ root ∈ out.tree, ∀ e ∈ elementsAll root.children,
      acts e.head.name (e.head.plain? "type") = false) ∧
    out.errors.filter tellsSideEffects =
      [Growth.sideEffects (.ofTag "style" [] false ⟨6, 7⟩)] := by
  intro out
  obtain ⟨-, htold, -, -, hiff⟩ := acting_elements_left_out (c := .web) (.inl rfl)
    (v := { givePositions := some true }) rfl
    "<div>a<style>b</style><script type=\"x\">c</script></div>"
  refine ⟨(hiff.1 ?_).1, htold.trans ?_⟩ <;> decide +kernel

/-- A style whose name is in capital letters stands in the tree and in the code, and no error says
so. -/
theorem style_shown :
    let out := Compiler.web.compile {} "<div><STYLE>a</STYLE></div>"
    out.tree.map (fun root => (elementsAll root.children).map fun e =>
        (e.head.name, acts e.head.name (e.head.plain? "type"))) = some [("STYLE", true)] ∧
      out.errors = [] ∧ out.code.statics = ["_c(\"div\",[],[_c(\"STYLE\",[],[_v(\"a\")])])"] := by
  decide +kernel

end HtmlTemplate.Template
