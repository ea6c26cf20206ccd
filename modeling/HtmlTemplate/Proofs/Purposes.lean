import HtmlTemplate.Proofs.Modules
import Mathlib.Data.List.Nodup
import Mathlib.Data.List.Perm.Basic

/-!
# What the attributes of a start tag are for

Of several attributes of one name only the first counts, and it has one purpose: it is plain, a
binding, the condition or a directive. Sorting the attributes of a start tag puts each one that
counts into the list of its purpose and makes an error of each other one; the modules of the web
then take nothing but a plain class and a plain style away (`attributes_partition`).
-/

namespace HtmlTemplate.Template

open Text Markup

/-! ### Attributes that count -/

/-- Whether one of the attributes has the name. -/
def isNameOf (attributes : List Attribute) (name : String) : Bool :=
  attributes.any fun a => a.name == name

/-- Each attribute with those before it, to which the given ones belong. -/
def withEarlier (earlier : List Attribute) : List Attribute → List (List Attribute × Attribute)
  | [] => []
  | a :: more => (earlier, a) :: withEarlier (earlier ++ [a]) more

/-- The attributes whose name none before them has. -/
def firstOfNames (earlier attributes : List Attribute) : List Attribute :=
  ((withEarlier earlier attributes).filter fun p => !isNameOf p.1 p.2.name).map Prod.snd

/-- The attributes whose name one before them has. -/
def repeatedNames (earlier attributes : List Attribute) : List Attribute :=
  ((withEarlier earlier attributes).filter fun p => isNameOf p.1 p.2.name).map Prod.snd

theorem firstOfNames_cons (earlier : List Attribute) (a : Attribute) (more : List Attribute) :
    firstOfNames earlier (a :: more) =
      if isNameOf earlier a.name then firstOfNames (earlier ++ [a]) more
      else a :: firstOfNames (earlier ++ [a]) more := by
  unfold firstOfNames
  rw [withEarlier, List.filter_cons]
  cases isNameOf earlier a.name <;> rfl

theorem isNameOf_append_singleton (earlier : List Attribute) (a : Attribute) (name : String) :
    isNameOf (earlier ++ [a]) name = (isNameOf earlier name || a.name == name) := by
  simp [isNameOf]

theorem isNameOf_eq_false_of_mem_firstOfNames {earlier attributes : List Attribute} {a : Attribute}
    (h : a ∈ firstOfNames earlier attributes) : isNameOf earlier a.name = false := by
  induction attributes generalizing earlier with
  | nil => cases h
  | cons b more ih =>
    have hmore : a ∈ firstOfNames (earlier ++ [b]) more → isNameOf earlier a.name = false := by
      intro h
      have hlater := ih h
      rw [isNameOf_append_singleton, Bool.or_eq_false_iff] at hlater
      exact hlater.1
    rw [firstOfNames_cons] at h
    split at h
    · exact hmore h
    · next hb =>
      rcases List.mem_cons.1 h with rfl | h
      · exact Bool.eq_false_iff.2 hb
      · exact hmore h

theorem nodup_names_firstOfNames (earlier attributes : List Attribute) :
    ((firstOfNames earlier attributes).map Attribute.name).Nodup := by
  induction attributes generalizing earlier with
  | nil => exact List.nodup_nil
  | cons a more ih =>
    rw [firstOfNames_cons]
    split
    · exact ih _
    · rw [List.map_cons, List.nodup_cons]
      refine ⟨?_, ih _⟩
      intro hmem
      obtain ⟨b, hb, hname⟩ := List.mem_map.1 hmem
      have hlater := isNameOf_eq_false_of_mem_firstOfNames hb
      simp [isNameOf_append_singleton, hname] at hlater

/-! ### Purposes -/

/-- What is picked from a list keeps its order. -/
theorem map_filterMap_sublist {α β γ : Type} {f : α → Option β} {g : β → γ} {h : α → γ}
    (hf : ∀ a b, f a = some b → g b = h a) (items : List α) :
    ((items.filterMap f).map g).Sublist (items.map h) := by
  induction items with
  | nil => exact .slnil
  | cons a items ih =>
    rw [List.filterMap_cons, List.map_cons]
    cases hfound : f a with
    | none => exact ih.cons _
    | some b =>
      rw [List.map_cons, hf a b hfound]
      exact ih.cons_cons _

namespace Purpose

def plain? : Purpose → Option (String × String)
  | plain name value => some (name, value)
  | _ => none

def binding? : Purpose → Option Binding
  | binding b => some b
  | _ => none

def condition? : Purpose → Option String
  | condition expression => some expression
  | _ => none

def directive? : Purpose → Option Directive
  | directive d => some d
  | _ => none

/-- Purposes by kind are the purposes in another order. -/
theorem perm_kinds (purposes : List Purpose) :
    purposes.Perm ((purposes.filterMap plain?).map (fun p => plain p.1 p.2) ++
      (purposes.filterMap binding?).map binding ++
      (purposes.filterMap condition?).map condition ++
      (purposes.filterMap directive?).map directive) := by
  induction purposes with
  | nil => exact .nil
  | cons p purposes ih =>
    refine (ih.cons p).trans ?_
    cases p with
    | plain name value => exact .refl _
    | binding b =>
      simp only [List.filterMap_cons, plain?, binding?, condition?, directive?, List.map_cons,
        List.append_assoc, List.cons_append]
      exact List.perm_middle.symm
    | condition expression =>
      simp only [List.filterMap_cons, plain?, binding?, condition?, directive?, List.map_cons,
        List.append_assoc, List.cons_append]
      rw [← List.append_assoc, ← List.append_assoc _ _ (_ :: _)]
      exact List.perm_middle.symm
    | directive d =>
      simp only [List.filterMap_cons, plain?, binding?, condition?, directive?, List.map_cons]
      exact List.perm_middle.symm

/-- The purposes of each kind come in the order of all. -/
theorem kinds_sublist (purposes : List Purpose) :
    ((purposes.filterMap plain?).map fun p => plain p.1 p.2).Sublist purposes ∧
      ((purposes.filterMap binding?).map binding).Sublist purposes ∧
      ((purposes.filterMap directive?).map directive).Sublist purposes := by
  have hkeeps : ∀ {α : Type} {kind? : Purpose → Option α} {make : α → Purpose},
      (∀ p a, kind? p = some a → make a = p) →
        ((purposes.filterMap kind?).map make).Sublist purposes := by
    intro α kind? make hmake
    have hpicked := map_filterMap_sublist (h := id) hmake purposes
    rwa [List.map_id] at hpicked
  refine ⟨hkeeps ?_, hkeeps ?_, hkeeps ?_⟩
  all_goals
    intro p a ha
    cases p <;> cases ha
    rfl

end Purpose

/-! ### What an attribute is for -/

/-- Names of bindings. -/
def IsBindingName (name : List Char) : Prop :=
  ['v', '-', 'b', 'i', 'n', 'd', ':'] <+: name ∨ [':'] <+: name

/-- Names that begin like those of directives. -/
def BeginsDirective (name : List Char) : Prop :=
  ['v', '-'] <+: name ∨ ['@'] <+: name ∨ ['#'] <+: name

/-- The purpose that an attribute has by its name, with what it takes from the attribute. -/
def Purpose.Suits (a : Attribute) : Purpose → Prop
  | .binding b =>
    IsBindingName a.name.toList ∧
      b.written = a.name ∧ b.expression = trim a.value ∧ b.span = a.span
  | .condition expression => a.name = "v-if" ∧ expression = trim a.value
  | .directive d =>
    (¬ IsBindingName a.name.toList ∧ a.name ≠ "v-if" ∧ BeginsDirective a.name.toList) ∧
      d.written = a.name ∧ d.value = trim a.value ∧ d.span = a.span
  | .plain name value =>
    (¬ IsBindingName a.name.toList ∧ ¬ BeginsDirective a.name.toList) ∧
      name = a.name ∧ value = a.value

theorem isSome_bindingArgument?_iff (name : List Char) :
    (bindingArgument? name).isSome = true ↔ IsBindingName name := by
  unfold bindingArgument? IsBindingName
  split
  · simp
  · simp
  · next hlong hshort =>
    simp only [Option.isSome_none, Bool.false_eq_true, false_iff, not_or]
    constructor
    · rintro ⟨rest, rfl⟩
      exact hlong rest rfl
    · rintro ⟨rest, rfl⟩
      exact hshort rest rfl

theorem isDirectiveName_iff (name : List Char) :
    isDirectiveName name = true ↔ BeginsDirective name := by
  unfold isDirectiveName BeginsDirective
  split
  · simp
  · simp
  · simp
  · next hdash hat hhash =>
    simp only [Bool.false_eq_true, false_iff, not_or]
    refine ⟨?_, ?_, ?_⟩
    · rintro ⟨rest, rfl⟩
      exact hdash rest rfl
    · rintro ⟨rest, rfl⟩
      exact hat rest rfl
    · rintro ⟨rest, rfl⟩
      exact hhash rest rfl

theorem Purpose.suits_of (a : Attribute) : (Purpose.of a).Suits a := by
  have hbinding := isSome_bindingArgument?_iff a.name.toList
  have hdirective := isDirectiveName_iff a.name.toList
  unfold Purpose.of
  split
  · next argument hargument => exact ⟨hbinding.1 (by simp [hargument]), rfl, rfl, rfl⟩
  · next hargument =>
    have hnot : ¬ IsBindingName a.name.toList := by simp [← hbinding, hargument]
    split
    · next hname => exact ⟨beq_iff_eq.1 hname, rfl⟩
    · next hname =>
      split
      · next hbegins =>
        exact ⟨⟨hnot, by simpa using hname, hdirective.1 hbegins⟩, rfl, rfl, rfl⟩
      · next hbegins => exact ⟨⟨hnot, by simpa [← hdirective] using hbegins⟩, rfl, rfl⟩

/-! ### Sorting -/

/-- What was sorted out is what the attributes are for, each kind in their order. -/
structure Sorted.Collects (purposes : List Purpose) (s : Sorted) : Prop where
  plain : s.plain = purposes.filterMap Purpose.plain?
  bindings : s.bindings = purposes.filterMap Purpose.binding?
  condition : s.condition = (purposes.filterMap Purpose.condition?).head?
  directives : s.directives = purposes.filterMap Purpose.directive?

theorem Sorted.Collects.cons {purposes : List Purpose} {s : Sorted} (h : s.Collects purposes)
    (p : Purpose) (reports : List Report) : (s.cons p reports).Collects (p :: purposes) := by
  obtain ⟨hplain, hbindings, hcondition, hdirectives⟩ := h
  cases p <;> constructor <;>
    simp [Sorted.cons, List.filterMap_cons, Purpose.plain?, Purpose.binding?, Purpose.condition?,
      Purpose.directive?, hplain, hbindings, hcondition, hdirectives]

/-- The names seen are those of the attributes before. -/
def Remembers (seen : List String) (earlier : List Attribute) : Prop :=
  ∀ name, seen.contains name = isNameOf earlier name

section

variable {seen : List String} {earlier : List Attribute} (h : Remembers seen earlier)
include h

theorem Remembers.cons (a : Attribute) : Remembers (a.name :: seen) (earlier ++ [a]) := by
  intro name
  rw [isNameOf_append_singleton, List.contains_cons, h name, Bool.or_comm, BEq.comm]

theorem Remembers.skip {a : Attribute} (ha : isNameOf earlier a.name = true) :
    Remembers seen (earlier ++ [a]) := by
  intro name
  rw [isNameOf_append_singleton, h name]
  cases hname : a.name == name with
  | false => rw [Bool.or_false]
  | true => rw [← beq_iff_eq.1 hname, ha, Bool.or_true]

theorem collects_sortAfter (registered : String → Bool) (attributes : List Attribute) :
    (sortAfter registered seen attributes).Collects
      ((firstOfNames earlier attributes).map Purpose.of) := by
  induction attributes generalizing seen earlier with
  | nil => exact ⟨rfl, rfl, rfl, rfl⟩
  | cons a more ih =>
    rw [sortAfter, firstOfNames_cons, h]
    split
    · next ha =>
      have hmore := ih (h.skip ha)
      exact ⟨hmore.plain, hmore.bindings, hmore.condition, hmore.directives⟩
    · exact (ih (h.cons a)).cons _ _

/-- What is reported on each attribute, in their order. -/
theorem reports_sortAfter (registered : String → Bool) (attributes : List Attribute) :
    (sortAfter registered seen attributes).reports =
      (withEarlier earlier attributes).flatMap fun p =>
        if isNameOf p.1 p.2.name then [duplicateAttribute p.2.name (.ofSpan? p.2.span)]
        else (Purpose.of p.2).reports registered p.2 := by
  induction attributes generalizing seen earlier with
  | nil => rfl
  | cons a more ih =>
    rw [sortAfter, withEarlier, List.flatMap_cons, h]
    split
    · next ha => rw [← ih (h.skip ha), List.singleton_append]
    · rw [← ih (h.cons a)]
      unfold Sorted.cons
      cases Purpose.of a <;> rfl

end

/-- Whether a report says that the name of an attribute stood before. -/
def tellsDuplicate (r : Report) : Bool :=
  r.isError && "duplicate attribute: ".toList.isPrefixOf r.message.toList

theorem tellsDuplicate_duplicateAttribute (name : String) (range : Locus) :
    tellsDuplicate (duplicateAttribute name range) = true := by
  simp [tellsDuplicate, duplicateAttribute, Report.error, Report.isError]

theorem not_tellsDuplicate_of_mem_reports {registered : String → Bool} {a : Attribute} {p : Purpose}
    {r : Report} (h : r ∈ p.reports registered a) : tellsDuplicate r = false := by
  unfold Purpose.reports at h
  split at h
  · split at h
    · obtain rfl := List.mem_singleton.1 h
      simp [tellsDuplicate, emptyBinding, Report.error, Report.isError, List.isPrefixOf]
    · cases h
  · split at h
    · cases h
    · obtain rfl := List.mem_singleton.1 h
      rfl
  · cases h

/-- Of the reports on attributes, those on names that stood before, and the others. -/
theorem filter_tellsDuplicate (registered : String → Bool)
    (items : List (List Attribute × Attribute)) :
    let reports := items.flatMap fun p =>
      if isNameOf p.1 p.2.name then [duplicateAttribute p.2.name (.ofSpan? p.2.span)]
      else (Purpose.of p.2).reports registered p.2
    reports.filter tellsDuplicate =
        ((items.filter fun p => isNameOf p.1 p.2.name).map Prod.snd).map
          (fun a => duplicateAttribute a.name (.ofSpan? a.span)) ∧
      reports.filter (fun r => !tellsDuplicate r) =
        ((items.filter fun p => !isNameOf p.1 p.2.name).map Prod.snd).flatMap
          fun a => (Purpose.of a).reports registered a := by
  induction items with
  | nil => exact ⟨rfl, rfl⟩
  | cons p items ih =>
    obtain ⟨hduplicates, hothers⟩ := ih
    have hreports : ∀ r ∈ (Purpose.of p.2).reports registered p.2, tellsDuplicate r = false :=
      fun r hr => not_tellsDuplicate_of_mem_reports hr
    simp only [List.flatMap_cons, List.filter_append, List.filter_cons, hduplicates, hothers]
    cases isNameOf p.1 p.2.name with
    | true => simp [tellsDuplicate_duplicateAttribute]
    | false => simpa [List.filter_eq_nil_iff] using hreports

/-- At most one attribute that counts is the condition. -/
theorem length_conditions_le (attributes : List Attribute) :
    (((firstOfNames [] attributes).map Purpose.of).filterMap Purpose.condition?).length ≤ 1 := by
  have hnames := nodup_names_firstOfNames [] attributes
  have hcondition : ∀ a : Attribute, (Purpose.of a).condition?.isSome = true → a.name = "v-if" := by
    intro a ha
    have hsuits := Purpose.suits_of a
    cases hpurpose : Purpose.of a <;> rw [hpurpose] at ha hsuits
    · cases ha
    · exact hsuits.1
    · cases ha
    · cases ha
  rw [List.filterMap_map, List.length_filterMap_eq_countP]
  calc (firstOfNames [] attributes).countP (fun a => (Purpose.of a).condition?.isSome)
      ≤ (firstOfNames [] attributes).countP (fun a => a.name == "v-if") :=
        List.countP_mono_left fun a _ ha => beq_iff_eq.2 (hcondition a ha)
    _ = ((firstOfNames [] attributes).map Attribute.name).count "v-if" := by
        rw [List.count, List.countP_map]
        rfl
    _ ≤ 1 := List.nodup_iff_count_le_one.1 hnames _

/-- The plain attributes have the names of attributes that count. -/
theorem nodup_plain_names (attributes : List Attribute) :
    ((((firstOfNames [] attributes).map Purpose.of).filterMap Purpose.plain?).map
      Prod.fst).Nodup := by
  have hname : ∀ (a : Attribute) (p : String × String), (Purpose.of a).plain? = some p →
      p.1 = a.name := by
    intro a p hp
    have hsuits := Purpose.suits_of a
    cases hpurpose : Purpose.of a <;> rw [hpurpose] at hp hsuits
    · cases hp
    · cases hp
    · cases hp
    · obtain rfl := Option.some.inj hp
      exact hsuits.2.1
  rw [List.filterMap_map]
  exact (nodup_names_firstOfNames [] attributes).sublist (map_filterMap_sublist hname _)

/-! ### The modules of the web -/

theorem eraseP_name_eq_filter {plain : List (String × String)}
    (h : (plain.map Prod.fst).Nodup) (name : String) :
    plain.eraseP (fun p => p.1 == name) = plain.filter fun p => p.1 != name := by
  induction plain with
  | nil => rfl
  | cons p plain ih =>
    rw [List.map_cons, List.nodup_cons] at h
    rw [List.eraseP_cons, List.filter_cons]
    by_cases hp : p.1 = name
    · have hrest : ∀ q ∈ plain, (q.1 != name) = true := by
        intro q hq
        rw [bne_iff_ne, ← hp]
        exact fun heq => h.1 (heq ▸ List.mem_map_of_mem hq)
      simp [hp, List.filter_eq_self.2 hrest]
    · have hne : (p.1 == name) = false := beq_eq_false_iff_ne.2 hp
      simp [hne, hp, ih h.2]

theorem plain?_eq_none_iff {head : Head} {name : String} :
    head.plain? name = none ↔ ∀ p ∈ head.plain, (p.1 != name) = true := by
  simp [Head.plain?]

/-- Taking an attribute whose name no other one has. -/
theorem takePlain_eq {head : Head} (h : (head.plain.map Prod.fst).Nodup) (name : String)
    (keep : Head → String → Head) (d : Delimiters) :
    (takePlain name keep d head).1 =
      let rest := { head with plain := head.plain.filter fun p => p.1 != name }
      ((head.plain? name).map (keep rest)).getD rest := by
  unfold takePlain
  cases hplain : head.plain? name with
  | none =>
    have hsame := List.filter_eq_self.2 (plain?_eq_none_iff.1 hplain)
    simp [hsame]
  | some value => simp [Head.dropPlain, eraseP_name_eq_filter h name]

theorem plain?_filter (head : Head) {name other : String} (h : name ≠ other) :
    Head.plain? { head with plain := head.plain.filter fun p => p.1 != other } name =
      head.plain? name := by
  unfold Head.plain?
  rw [List.find?_filter]
  congr 2
  funext p
  by_cases hp : p.1 = name <;> simp [hp, h]

/-- The modules of the web take a plain class and a plain style, and do nothing else. -/
theorem onHead_web {head : Head} (h : (head.plain.map Prod.fst).Nodup)
    (hclass : head.fixedClass = none) (hstyle : head.fixedStyle = none) (s : Settings) :
    (styleModule.onHead s (classModule.onHead s head).1).1 =
      { head with
          plain := head.plain.filter fun p => p.1 != "style" && p.1 != "class"
          fixedClass := (head.plain? "class").map normalClass
          fixedStyle := (head.plain? "style").map normalStyle } := by
  have hrest : ((head.plain.filter fun p => p.1 != "class").map Prod.fst).Nodup :=
    h.sublist (List.filter_sublist.map _)
  have hfirst : (classModule.onHead s head).1 =
      { head with
          plain := head.plain.filter fun p => p.1 != "class"
          fixedClass := (head.plain? "class").map normalClass } := by
    rw [classModule, onHead_takingModule, takePlain_eq h]
    cases head.plain? "class" <;> simp [hclass]
  have hnames : ((classModule.onHead s head).1.plain.map Prod.fst).Nodup := by
    rw [hfirst]
    exact hrest
  have hstyle? : (classModule.onHead s head).1.plain? "style" = head.plain? "style" := by
    rw [hfirst]
    exact plain?_filter head (by decide)
  rw [styleModule, onHead_takingModule, takePlain_eq hnames, hstyle?, hfirst]
  cases head.plain? "style" <;> simp [hstyle, List.filter_filter]

/-- Of several attributes of one name in a start tag the first counts, and by its name it is plain,
a binding, the condition or a directive. The head has each of these in the list of its kind, in the
order of the start tag, and nothing else. Each other attribute is one error, and what else is
reported does not depend on it. The modules of the web then take a plain class and a plain style
away and change nothing else. -/
theorem attributes_partition (registered : String → Bool) (s : Settings) (name : String)
    (attributes : List Attribute) (unary : Bool) (span : Span) :
    let sorted := (Head.ofTag name attributes unary span).sorted registered
    let head := sorted.1
    let counted := firstOfNames [] attributes
    let purposes := counted.map Purpose.of
    (∀ a ∈ counted, (Purpose.of a).Suits a) ∧
      purposes.Perm (head.plain.map (fun p => .plain p.1 p.2) ++ head.bindings.map .binding ++
        head.condition.toList.map .condition ++ head.directives.map .directive) ∧
      (head.plain.map fun p => Purpose.plain p.1 p.2).Sublist purposes ∧
      (head.bindings.map Purpose.binding).Sublist purposes ∧
      (head.directives.map Purpose.directive).Sublist purposes ∧
      sorted.2.filter tellsDuplicate = (repeatedNames [] attributes).map
        (fun a => duplicateAttribute a.name (.ofSpan? a.span)) ∧
      sorted.2.filter (fun r => !tellsDuplicate r) =
        counted.flatMap (fun a => (Purpose.of a).reports registered a) ∧
      ∀ children reports,
        (Growth.transform s Options.web.modules ⟨head, children⟩ reports).1 =
          ⟨{ head with
              plain := head.plain.filter fun p => p.1 != "style" && p.1 != "class"
              fixedClass := (head.plain? "class").map normalClass
              fixedStyle := (head.plain? "style").map normalStyle }, children⟩ := by
  intro sorted head counted purposes
  have hseen : Remembers [] [] := fun _ => rfl
  have hcollects : (sortAttributes registered attributes).Collects purposes :=
    collects_sortAfter hseen registered attributes
  have hplain : head.plain = purposes.filterMap Purpose.plain? := hcollects.plain
  have hbindings : head.bindings = purposes.filterMap Purpose.binding? := hcollects.bindings
  have hdirectives : head.directives = purposes.filterMap Purpose.directive? :=
    hcollects.directives
  have hcondition : head.condition.toList = purposes.filterMap Purpose.condition? := by
    have hlength := length_conditions_le attributes
    rw [show head.condition = _ from hcollects.condition]
    match hall : purposes.filterMap Purpose.condition? with
    | [] => rfl
    | [_] => rfl
    | _ :: _ :: _ =>
      rw [hall] at hlength
      simp at hlength
  have hreports : sorted.2 = _ := reports_sortAfter hseen registered attributes
  obtain ⟨hduplicates, hothers⟩ := filter_tellsDuplicate registered (withEarlier [] attributes)
  obtain ⟨hplains, hbounds, hdirecteds⟩ := Purpose.kinds_sublist purposes
  refine ⟨fun a _ => Purpose.suits_of a, ?_, ?_, ?_, ?_, ?_, ?_, ?_⟩
  · rw [hplain, hbindings, hcondition, hdirectives]
    exact Purpose.perm_kinds purposes
  · rwa [hplain]
  · rwa [hbindings]
  · rwa [hdirectives]
  · rw [hreports]
    exact hduplicates
  · rw [hreports]
    exact hothers
  · intro children reports
    have hnames : (head.plain.map Prod.fst).Nodup := by
      rw [hplain]
      exact nodup_plain_names attributes
    exact congrArg (Element.mk · children) (onHead_web hnames rfl rfl s)

end HtmlTemplate.Template
