import HtmlTemplate.Template.Tree

/-!
# What modules do

A module may do with an element, and with what was reported so far, as it likes. Most only add to
the reports, and then what they do is told from the element and the settings (`Module.Additive`);
so it is for all modules together (`Growth.transform_additive`). If they give no element children
either (`Module.Childless`), they come down to a change of its head (`Growth.transform_eq`).
-/

namespace HtmlTemplate.Template

/-- The module only adds to the reports, and does the same whatever was reported before. -/
def Module.Additive (m : Module) : Prop :=
  ∀ s e reports, m.transform s e reports =
    ((m.transform s e []).1, (m.transform s e []).2 ++ reports)

/-- The module gives no children to an element. -/
def Module.Childless (m : Module) : Prop :=
  ∀ s head, (m.transform s ⟨head, []⟩ []).1.children = []

/-- What the module makes of the head of an element, and what it says. -/
def Module.onHead (m : Module) (s : Settings) (head : Head) : Head × List Report :=
  ((m.transform s ⟨head, []⟩ []).1.head, (m.transform s ⟨head, []⟩ []).2.reverse)

section

variable (staticKeys : List String) (rework : Settings → Head → Head × List Report)

@[simp] theorem Module.onHead_ofHead : (Module.ofHead staticKeys rework).onHead = rework := by
  funext s head
  simp [onHead, ofHead]

theorem Module.additive_ofHead : (Module.ofHead staticKeys rework).Additive := by
  intro s e reports
  simp [ofHead]

theorem Module.childless_ofHead : (Module.ofHead staticKeys rework).Childless :=
  fun _ _ => rfl

end

section

variable (staticKeys : List String) (name : String) (keep : Head → String → Head)

@[simp] theorem onHead_takingModule (s : Settings) :
    (takingModule staticKeys name keep).onHead s = takePlain name keep s.delimiters := by
  rw [takingModule, Module.onHead_ofHead]

theorem additive_takingModule : (takingModule staticKeys name keep).Additive :=
  Module.additive_ofHead _ _

theorem childless_takingModule : (takingModule staticKeys name keep).Childless :=
  Module.childless_ofHead _ _

end

/-- The module leaves alone what is read off a head. -/
def Module.Keeps {α : Type} (read : Head → α) (m : Module) : Prop :=
  ∀ s head, read (m.onHead s head).1 = read head

/-- A head stays as it is, or one plain attribute of it is taken and kept. -/
theorem takePlain_cases (name : String) (keep : Head → String → Head) (d : Delimiters)
    (head : Head) :
    (takePlain name keep d head).1 = head ∨
      ∃ value, (takePlain name keep d head).1 = keep (head.dropPlain name) value := by
  unfold takePlain
  split
  · exact .inl rfl
  · next value _ => exact .inr ⟨value, rfl⟩

theorem keeps_takingModule {α : Type} {read : Head → α} (staticKeys : List String) {name : String}
    {keep : Head → String → Head} (hdrop : ∀ head, read (head.dropPlain name) = read head)
    (hkeep : ∀ head value, read (keep head value) = read head) :
    (takingModule staticKeys name keep).Keeps read := by
  intro s head
  rw [onHead_takingModule]
  obtain h | ⟨value, h⟩ := takePlain_cases name keep s.delimiters head <;> rw [h]
  exact (hkeep (head.dropPlain name) value).trans (hdrop head)

theorem Module.transform_eq_onHead {m : Module} (hadditive : m.Additive) (hchildless : m.Childless)
    (s : Settings) (head : Head) (reports : List Report) :
    m.transform s ⟨head, []⟩ reports =
      (⟨(m.onHead s head).1, []⟩, (m.onHead s head).2.reverse ++ reports) := by
  have hchildren := hchildless s head
  rw [hadditive, onHead, List.reverse_reverse]
  generalize m.transform s ⟨head, []⟩ [] = made at hchildren ⊢
  obtain ⟨⟨made, children⟩, said⟩ := made
  subst hchildren
  rfl

/-- The module does the same when the settings are changed. -/
def Module.Ignores (change : Settings → Settings) (m : Module) : Prop :=
  ∀ s, m.transform (change s) = m.transform s

theorem ignores_takingModule {change : Settings → Settings}
    (hchange : ∀ s, (change s).delimiters = s.delimiters) (staticKeys : List String)
    (name : String) (keep : Head → String → Head) :
    (takingModule staticKeys name keep).Ignores change := by
  intro s
  simp only [takingModule, Module.ofHead, hchange]

/-- All modules only add to the reports. -/
class Options.Additive (o : Options) : Prop where
  additive : ∀ m ∈ o.modules, m.Additive

/-- All modules only change heads and add to the reports. -/
class Options.Modest (o : Options) : Prop extends o.Additive where
  childless : ∀ m ∈ o.modules, m.Childless

/-- What holds of both modules of the web holds of all modules, if the override adds none. -/
theorem forall_mem_modules_web {v : Overrides} (hmodules : v.modules = []) {P : Module → Prop}
    (hclass : P classModule) (hstyle : P styleModule) :
    ∀ m ∈ (Options.web.override v).modules, P m := by
  rw [Options.override, hmodules, List.append_nil]
  simp only [Options.web, List.forall_mem_cons]
  exact ⟨hclass, hstyle, by simp⟩

theorem modest_override_web {v : Overrides} (hmodules : v.modules = []) :
    (Options.web.override v).Modest where
  additive := forall_mem_modules_web hmodules (additive_takingModule _ _ _)
    (additive_takingModule _ _ _)
  childless := forall_mem_modules_web hmodules (childless_takingModule _ _ _)
    (childless_takingModule _ _ _)

namespace Growth

theorem transform_additive {modules : List Module} (h : ∀ m ∈ modules, m.Additive) (s : Settings)
    (e : Element) (reports : List Report) :
    transform s modules e reports =
      ((transform s modules e []).1, (transform s modules e []).2 ++ reports) := by
  induction modules generalizing e reports with
  | nil => rfl
  | cons m modules ih =>
    obtain ⟨hm, hmore⟩ := List.forall_mem_cons.1 h
    have hrest := ih hmore
    rw [transform, transform, hm]
    dsimp only
    rw [hrest, hrest _ (m.transform s e []).2, List.append_assoc]

/-- What modules make of a head, one after the other, and what they say. -/
def transformHead (s : Settings) : List Module → Head → Head × List Report
  | [], head => (head, [])
  | m :: more, head =>
    let (head, first) := m.onHead s head
    let (head, rest) := transformHead s more head
    (head, first ++ rest)

theorem transform_ignores {change : Settings → Settings} {modules : List Module}
    (h : ∀ m ∈ modules, m.Ignores change) (s : Settings) (e : Element) (reports : List Report) :
    transform (change s) modules e reports = transform s modules e reports := by
  induction modules generalizing e reports with
  | nil => rfl
  | cons m modules ih =>
    obtain ⟨hm, hmore⟩ := List.forall_mem_cons.1 h
    rw [transform, transform, hm]
    exact ih hmore _ _

theorem keeps_transformHead {α : Type} {read : Head → α} {modules : List Module}
    (h : ∀ m ∈ modules, m.Keeps read) (s : Settings) (head : Head) :
    read (transformHead s modules head).1 = read head := by
  induction modules generalizing head with
  | nil => rfl
  | cons m modules ih =>
    obtain ⟨hm, hmore⟩ := List.forall_mem_cons.1 h
    exact (ih hmore _).trans (hm s head)

theorem transform_eq {modules : List Module} (hadditive : ∀ m ∈ modules, m.Additive)
    (hchildless : ∀ m ∈ modules, m.Childless) (s : Settings) (head : Head)
    (reports : List Report) :
    transform s modules ⟨head, []⟩ reports =
      (⟨(transformHead s modules head).1, []⟩,
        (transformHead s modules head).2.reverse ++ reports) := by
  induction modules generalizing head reports with
  | nil => rfl
  | cons m modules ih =>
    obtain ⟨hm, hmore⟩ := List.forall_mem_cons.1 hadditive
    obtain ⟨hchildren, hrest⟩ := List.forall_mem_cons.1 hchildless
    rw [transform, m.transform_eq_onHead hm hchildren]
    dsimp only
    rw [ih hmore hrest, transformHead, List.reverse_append, List.append_assoc]

/-- The element of a start tag when its attributes are sorted and the modules are done with it, and
the reports then, newest first, after those before. -/
def elementAfter (o : Options) (name : String) (attributes : List Markup.Attribute) (unary : Bool)
    (span : Span) (reports : List Report) : Element × List Report :=
  let sorted := (Head.ofTag name attributes unary span).sorted
    fun d => (o.directives.find? d).isSome
  let made := transform o.toSettings o.modules ⟨sorted.1, []⟩ (sorted.2.reverse ++ reports)
  (made.1, (plainReports o.delimiters made.1.head).reverse ++ made.2)

/-- That element, and what is reported on the way. -/
def elementOfTag (o : Options) (name : String) (attributes : List Markup.Attribute) (unary : Bool)
    (span : Span) : Element × List Report :=
  let made := elementAfter o name attributes unary span []
  (made.1, made.2.reverse)

/-- The head of that element, for modules that only change heads. -/
def headOfTag (o : Options) (name : String) (attributes : List Markup.Attribute) (unary : Bool)
    (span : Span) : Head × List Report :=
  let sorted := (Head.ofTag name attributes unary span).sorted
    fun d => (o.directives.find? d).isSome
  let transformed := transformHead o.toSettings o.modules sorted.1
  (transformed.1, sorted.2 ++ transformed.2 ++ plainReports o.delimiters transformed.1)

theorem elementAfter_eq (o : Options) [o.Additive] (name : String)
    (attributes : List Markup.Attribute) (unary : Bool) (span : Span) (reports : List Report) :
    elementAfter o name attributes unary span reports =
      ((elementOfTag o name attributes unary span).1,
        (elementOfTag o name attributes unary span).2.reverse ++ reports) := by
  have htransform := transform_additive (Options.Additive.additive (o := o)) o.toSettings
  simp only [elementOfTag, elementAfter, List.append_nil, List.reverse_reverse]
  rw [htransform, htransform _ (List.reverse _)]
  simp only [List.append_assoc]

theorem elementOfTag_eq (o : Options) [o.Modest] (name : String)
    (attributes : List Markup.Attribute) (unary : Bool) (span : Span) :
    elementOfTag o name attributes unary span =
      (⟨(headOfTag o name attributes unary span).1, []⟩,
        (headOfTag o name attributes unary span).2) := by
  have htransform := transform_eq (Options.Additive.additive (o := o)) Options.Modest.childless
  simp only [elementOfTag, elementAfter, headOfTag, htransform, List.append_nil,
    List.reverse_append, List.reverse_reverse, List.append_assoc]

/-- What happens to the frame of an element that has got its place. -/
def enter (o : Options) (name : String) (unary : Bool) (frame : Frame) (g : Growth) : Growth :=
  let g := if o.isPreformatted name then { g with preformatted := g.preformatted + 1 } else g
  if unary then g.close o frame else { g with frames := frame :: g.frames }

/-- An element for which there is room is opened in three steps: it is made, it is given its place,
and it is opened there. -/
theorem start_eq_enter (o : Options) (name : String) (attributes : List Markup.Attribute)
    (unary : Bool) (span : Span) (g : Growth) :
    g.start o name attributes unary span =
      if g.skipped > 0 || g.frames.length ≥ nestingLimit then g.skip unary span
      else
        let made := elementAfter o name attributes unary span g.reports
        let placed := { g with reports := made.2 }.place made.1.head
        placed.2.enter o name unary ⟨made.1.head, made.1.children.reverse, placed.1⟩ :=
  rfl

theorem start_eq_element (o : Options) [o.Additive] (name : String)
    (attributes : List Markup.Attribute) (unary : Bool) (span : Span) (g : Growth) :
    g.start o name attributes unary span =
      if g.skipped > 0 || g.frames.length ≥ nestingLimit then g.skip unary span
      else
        let tag := elementOfTag o name attributes unary span
        let placed := { g with reports := tag.2.reverse ++ g.reports }.place tag.1.head
        placed.2.enter o name unary ⟨tag.1.head, tag.1.children.reverse, placed.1⟩ := by
  rw [start_eq_enter, elementAfter_eq]

theorem start_eq_ite (o : Options) [o.Modest] (name : String) (attributes : List Markup.Attribute)
    (unary : Bool) (span : Span) (g : Growth) :
    g.start o name attributes unary span =
      if g.skipped > 0 || g.frames.length ≥ nestingLimit then g.skip unary span
      else
        let tag := headOfTag o name attributes unary span
        let placed := { g with reports := tag.2.reverse ++ g.reports }.place tag.1
        placed.2.enter o name unary ⟨tag.1, [], placed.1⟩ := by
  rw [start_eq_element, elementOfTag_eq]
  rfl

end Growth

end HtmlTemplate.Template
