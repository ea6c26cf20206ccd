import HtmlTemplate.Proofs.NestingLimit
import HtmlTemplate.Proofs.TreeTokens

/-!
# Start tags that act

A style acts rather than shows, and so does a script that a browser would run; like the reading of
markup, `acts` takes their names in any case of letters. The growing tree looks for names in small
letters (`hasSideEffects_eq`). `startedTags` lists the start tags of events with the number of
elements open around each, which a growing tree has open there (`Growth.AtLevel.foldl`), and what
tells whether the element of a tag acts stands in the tag (`deed_headOfTag`).
-/

namespace HtmlTemplate.Template

open Text Markup

/-- Whether an element acts rather than shows, by its name in any case of letters and its type. -/
def acts (name : String) (type? : Option String) : Bool :=
  isOneOfIgnoringCase ["style"] name ||
    isOneOfIgnoringCase ["script"] name &&
      type?.all fun type => type.isEmpty || type == "text/javascript"

/-- The names in small letters of elements that may act. -/
def isActingName (name : String) : Bool := name == "style" || name == "script"

theorem hasSideEffects_eq (head : Head) :
    Growth.hasSideEffects head =
      (acts head.name (head.plain? "type") && isActingName head.name) := by
  unfold Growth.hasSideEffects acts isActingName
  have hstyle : isOneOfIgnoringCase ["style"] "style" = true := by decide
  have hscript : isOneOfIgnoringCase ["script"] "script" = true := by decide
  have hother : isOneOfIgnoringCase ["style"] "script" = false := by decide
  by_cases hname : head.name = "style"
  · simp [hname, hstyle]
  by_cases hname' : head.name = "script"
  · cases head.plain? "type" <;> simp [hname', hscript, hother]
  · simp [beq_eq_false_iff_ne.2 hname, beq_eq_false_iff_ne.2 hname']

/-! ### Start tags and their levels -/

/-- A start tag, with the number of elements that are open where it stands. -/
structure StartedTag where
  level : Nat
  name : String
  attributes : List Attribute
  unary : Bool
  span : Span

namespace StartedTag

/-- The value of the first attribute that is called `type`. -/
def type? (t : StartedTag) : Option String :=
  (t.attributes.find? (·.name == "type")).map Attribute.value

def acts (t : StartedTag) : Bool := Template.acts t.name t.type?

/-- The tag is found to act: there is room for its element, and its name is in small letters. -/
def isNoticed (t : StartedTag) : Bool :=
  decide (t.level < nestingLimit) && (t.acts && isActingName t.name)

/-- What is said of a tag that is found to act. -/
def complaint (t : StartedTag) : Report :=
  Growth.sideEffects (.ofTag t.name t.attributes t.unary t.span)

end StartedTag

/-- The number of open elements after an event. -/
def levelAfter (level : Nat) : Event → Nat
  | .startTag _ _ unary _ => if unary then level else level + 1
  | .endTag .. => level - 1
  | _ => level

/-- The start tag of a start event. -/
def startedTag? (level : Nat) : Event → Option StartedTag
  | .startTag name attributes unary span => some ⟨level, name, attributes, unary, span⟩
  | _ => none

/-- The start tags of events before which some elements are open. -/
def startedTags : Nat → List Event → List StartedTag
  | _, [] => []
  | level, e :: events => (startedTag? level e).toList ++ startedTags (levelAfter level e) events

theorem startedTags_append (level : Nat) (events more : List Event) :
    startedTags level (events ++ more) =
      startedTags level events ++ startedTags (events.foldl levelAfter level) more := by
  induction events generalizing level with
  | nil => rfl
  | cons e events ih =>
    rw [List.cons_append, startedTags, ih, startedTags, List.append_assoc, List.foldl_cons]

theorem startedTags_content {e : Event} (he : e.isTag = false) (level : Nat) (events : List Event) :
    startedTags level (e :: events) = startedTags level events := by
  cases e with
  | startTag name attributes unary span => cases he
  | endTag name span => cases he
  | text content span => rfl
  | comment content span => rfl
  | warning message range => rfl

theorem levelAfter_content {e : Event} (he : e.isTag = false) (level : Nat) :
    levelAfter level e = level := by
  cases e with
  | startTag name attributes unary span => cases he
  | endTag name span => cases he
  | text content span => rfl
  | comment content span => rfl
  | warning message range => rfl

/-- Bracketed events leave as many elements open as before. -/
theorem foldl_levelAfter {events : List Event} {outlines : List Outline}
    (h : Brackets events outlines) (level : Nat) : events.foldl levelAfter level = level := by
  induction h generalizing level with
  | nil => rfl
  | content he _ ih => rw [List.foldl_cons, levelAfter_content he, ih]
  | unary _ _ _ _ ih => exact ih level
  | @element inner rest _ _ name attributes span span' _ _ ihinner ihrest =>
    have hinner : inner.foldl levelAfter
        (levelAfter level (.startTag name attributes false span)) = level + 1 := ihinner (level + 1)
    rw [List.cons_append, List.foldl_cons, List.foldl_append, hinner]
    exact ihrest level

/-- The start tags of an element with its end tag are its own, those in it, and those behind it. -/
theorem startedTags_element {inner : List Event} {outlines : List Outline}
    (h : Brackets inner outlines) (level : Nat) (name : String) (attributes : List Attribute)
    (span span' : Span) (rest : List Event) :
    startedTags level
        (.startTag name attributes false span :: inner ++ .endTag name span' :: rest) =
      ⟨level, name, attributes, false, span⟩ ::
        (startedTags (level + 1) inner ++ startedTags level rest) := by
  have hinner : inner.foldl levelAfter (level + 1) = level + 1 := foldl_levelAfter h (level + 1)
  rw [List.cons_append, startedTags]
  change _ :: startedTags (level + 1) (inner ++ .endTag name span' :: rest) = _
  rw [startedTags_append, hinner]
  rfl

/-! ### What is read of a start tag -/

/-- What tells whether an element acts, and where it is. -/
def Head.deed (head : Head) : String × Option String × Span :=
  (head.name, head.plain? "type", head.span)

theorem Head.plain?_dropPlain {name other : String} (h : other ≠ name) (head : Head) :
    (head.dropPlain other).plain? name = head.plain? name := by
  have hfind : ∀ pairs : List (String × String),
      (pairs.eraseP (·.1 == other)).find? (·.1 == name) = pairs.find? (·.1 == name) := by
    intro pairs
    induction pairs with
    | nil => rfl
    | cons p pairs ih =>
      by_cases hp : p.1 = other
      · have hskip : (p.1 == name) = false := by simpa [hp] using h
        simp [hp ▸ hskip, hp]
      · simp only [List.eraseP_cons, beq_eq_false_iff_ne.2 hp, Bool.cond_false, List.find?_cons, ih]
  exact congrArg (Option.map Prod.snd) (hfind head.plain)

theorem Head.deed_dropPlain {name : String} (hname : name ≠ "type") (head : Head) :
    (head.dropPlain name).deed = head.deed := by
  rw [deed, head.plain?_dropPlain hname]
  rfl

theorem keepsDeed_override_web {v : Overrides} (hmodules : v.modules = []) :
    ∀ m ∈ (Options.web.override v).modules, m.Keeps Head.deed :=
  forall_mem_modules_web hmodules
    (keeps_takingModule _ (Head.deed_dropPlain (by decide)) fun _ _ => rfl)
    (keeps_takingModule _ (Head.deed_dropPlain (by decide)) fun _ _ => rfl)

theorem Purpose.of_type {a : Attribute} (h : a.name = "type") :
    Purpose.of a = .plain "type" a.value := by
  rw [Purpose.of, h]
  rfl

/-- The type of a sorted head is that of the first attribute of this name. -/
theorem find?_plain_sortAfter (registered : String → Bool) (seen : List String)
    (attributes : List Attribute) :
    ((sortAfter registered seen attributes).plain.find? (·.1 == "type")).map Prod.snd =
      if "type" ∈ seen then none
      else (attributes.find? (·.name == "type")).map Attribute.value := by
  induction attributes generalizing seen with
  | nil => simp [sortAfter]
  | cons a attributes ih =>
    by_cases htype : a.name = "type"
    · by_cases hseen : "type" ∈ seen
      · simp [sortAfter, htype, hseen, ih]
      · simp [sortAfter, htype, hseen, Purpose.of_type htype, Sorted.cons]
    · have hother : (a.name == "type") = false := beq_eq_false_iff_ne.2 htype
      rw [List.find?_cons, hother]
      by_cases hseen : a.name ∈ seen
      · simp [sortAfter, hseen, ih]
      · have hcons : "type" ∈ a.name :: seen ↔ "type" ∈ seen := by simp [Ne.symm htype]
        rw [sortAfter, if_neg (by simpa using hseen), ← if_congr hcons rfl rfl, ← ih]
        cases hpurpose : Purpose.of a with
        | plain name value =>
          obtain rfl := Purpose.of_eq_plain hpurpose
          simp [Sorted.cons, hother]
        | binding b => rfl
        | condition expression => rfl
        | directive d => rfl

/-- What tells whether the element of a start tag acts stands in the tag. -/
theorem deed_headOfTag {o : Options} (hmodules : ∀ m ∈ o.modules, m.Keeps Head.deed)
    (t : StartedTag) :
    (Growth.headOfTag o t.name t.attributes t.unary t.span).1.deed = (t.name, t.type?, t.span) := by
  have hsorted := find?_plain_sortAfter (fun d => (o.directives.find? d).isSome) [] t.attributes
  rw [if_neg List.not_mem_nil] at hsorted
  refine (Growth.keeps_transformHead hmodules o.toSettings _).trans ?_
  exact congrArg (fun type? => (t.name, type?, t.span)) hsorted

/-- Whether the element of a tag is found to act stands in the tag, where there is room for it. -/
theorem isNoticed_eq {o : Options} (hmodules : ∀ m ∈ o.modules, m.Keeps Head.deed) (t : StartedTag)
    (hroom : t.level < nestingLimit) :
    t.isNoticed =
      Growth.hasSideEffects (Growth.headOfTag o t.name t.attributes t.unary t.span).1 := by
  have hdeed := deed_headOfTag hmodules t
  generalize (Growth.headOfTag o t.name t.attributes t.unary t.span).1 = head at hdeed
  obtain ⟨hname, htype, -⟩ := by simpa [Head.deed] using hdeed
  rw [StartedTag.isNoticed, hasSideEffects_eq, hname, htype, decide_eq_true hroom, Bool.true_and]
  rfl

/-! ### Levels of a growing tree -/

namespace Growth

/-- So many elements are open, those among them that are left out included. -/
structure AtLevel (level : Nat) (g : Growth) : Prop where
  length : g.frames.length = min level nestingLimit
  skipped : g.skipped = level - nestingLimit

section

variable {o : Options} {level : Nat} {g : Growth}

theorem HasOpen.atLevel (h : g.HasOpen level) (hroom : level ≤ nestingLimit) : g.AtLevel level :=
  ⟨h.length.trans (min_eq_left hroom).symm, h.skipped.trans (Nat.sub_eq_zero_of_le hroom).symm⟩

theorem AtLevel.hasOpen (h : g.AtLevel level) (hroom : level ≤ nestingLimit) : g.HasOpen level :=
  ⟨h.skipped.trans (Nat.sub_eq_zero_of_le hroom), h.length.trans (min_eq_left hroom)⟩

theorem AtLevel.skipped_pos (h : g.AtLevel level) (hdeep : nestingLimit < level) :
    0 < g.skipped := by
  rw [h.skipped]
  exact Nat.sub_pos_of_lt hdeep

theorem AtLevel.tooDeep (h : g.AtLevel level) (hdeep : nestingLimit ≤ level) :
    0 < g.skipped ∨ nestingLimit ≤ g.frames.length :=
  .inr (h.length.trans (min_eq_right hdeep)).ge

theorem AtLevel.start (h : g.AtLevel level) (name : String) (attributes : List Attribute)
    (unary : Bool) (span : Span) :
    (g.start o name attributes unary span).AtLevel (if unary then level else level + 1) := by
  by_cases hroom : level < nestingLimit
  · refine ((h.hasOpen hroom.le).start hroom name attributes unary span).atLevel ?_
    split <;> omega
  · have hdeep : nestingLimit ≤ level := Nat.le_of_not_lt hroom
    have hlength := h.length
    have hskipped := h.skipped
    rw [start_of_tooDeep (h.tooDeep hdeep), skip_eq]
    cases unary with
    | true => exact ⟨hlength, hskipped⟩
    | false =>
      constructor
      · change g.frames.length = min (level + 1) nestingLimit
        omega
      · change g.skipped + 1 = level + 1 - nestingLimit
        omega

theorem AtLevel.finish (h : g.AtLevel level) (span : Span) :
    (g.finish o span).AtLevel (level - 1) := by
  by_cases hroom : level ≤ nestingLimit
  · have hopen := h.hasOpen hroom
    cases level with
    | zero =>
      have hframes : g.frames = [] := List.eq_nil_of_length_eq_zero hopen.length
      have hfinish : g.finish o span = g := by simp [Growth.finish, hopen.skipped, hframes]
      rwa [hfinish]
    | succ level => exact (hopen.finish span).atLevel (Nat.le_of_succ_le hroom)
  · have hdeep : nestingLimit < level := Nat.lt_of_not_le hroom
    have hlength := h.length
    have hskipped := h.skipped
    rw [finish_of_skipped o span (h.skipped_pos hdeep)]
    constructor
    · change g.frames.length = min (level - 1) nestingLimit
      omega
    · change g.skipped - 1 = level - 1 - nestingLimit
      omega

theorem AtLevel.content (h : g.AtLevel level) (template : String) {e : Event}
    (he : e.isTag = false) : (step template o g e).AtLevel level := by
  by_cases hroom : level ≤ nestingLimit
  · exact ((h.hasOpen hroom).content template he).atLevel hroom
  · rw [step_of_skipped (h.skipped_pos (Nat.lt_of_not_le hroom)) he]
    exact ⟨h.length, h.skipped⟩

/-- Every event leaves as many elements open as its tag says. -/
theorem AtLevel.step (h : g.AtLevel level) (template : String) (e : Event) :
    (step template o g e).AtLevel (levelAfter level e) := by
  cases e with
  | startTag name attributes unary span => exact h.start name attributes unary span
  | endTag name span => exact h.finish span
  | text content span => exact h.content template rfl
  | comment content span => exact h.content template rfl
  | warning message range => exact h.content template rfl

theorem AtLevel.foldl (h : g.AtLevel level) (template : String) (events : List Event) :
    (events.foldl (Growth.step template o) g).AtLevel (events.foldl levelAfter level) := by
  induction events generalizing g level with
  | nil => exact h
  | cons e events ih => exact ih (h.step template e)

/-- Behind the start tag of an element and the events in it, one more element is open. -/
theorem AtLevel.inside (h : g.AtLevel level) (template : String) {inner : List Event}
    {outlines : List Outline} (hinner : Brackets inner outlines) (name : String)
    (attributes : List Attribute) (span : Span) :
    (inner.foldl (Growth.step template o) (g.start o name attributes false span)).AtLevel
      (level + 1) := by
  have hopened : (g.start o name attributes false span).AtLevel (level + 1) :=
    h.start name attributes false span
  have hfilled := hopened.foldl (o := o) template inner
  rwa [foldl_levelAfter hinner] at hfilled

end

end Growth

end HtmlTemplate.Template
