import HtmlTemplate.Proofs.EmittedNames
import HtmlTemplate.Proofs.Structure

/-!
# Which names of attributes are rendered

Values of attributes are escaped, names are written as they are. What a template renders has the
names of its elements' own attributes, of which none can be taken for anything else in a start tag,
and the names of bindings. A name in brackets is whatever the data make of it, so all names are safe
exactly if those of the bindings are, and for all data if no name is in brackets or left out
(`safe_attributeNames_iff`).
-/

namespace HtmlTemplate.Template

open Markup
open HtmlTemplate.Code (Expr)
open HtmlTemplate.Text (isBlank)

/-- A name that ends neither itself nor its start tag: it is there, and has no blanks, quotes, angle
brackets, slashes or equals signs. -/
def IsSafeName (name : String) : Prop :=
  name ≠ "" ∧ ∀ c ∈ name.toList, isBlank c = false ∧ c ∉ ['"', '\'', '<', '>', '/', '=']

instance (name : String) : Decidable (IsSafeName name) :=
  haveI : Decidable (∀ c ∈ name.toList,
      isBlank c = false ∧ c ∉ ['"', '\'', '<', '>', '/', '=']) :=
    List.decidableBAll _ _
  inferInstanceAs (Decidable (_ ∧ _))

theorem isSafeName_iff {name : String} :
    IsSafeName name ↔ name ≠ "" ∧ ∀ c ∈ name.toList, isAttributeNamePart c = true := by
  have hpart : ∀ c, (isBlank c = false ∧ c ∉ ['"', '\'', '<', '>', '/', '=']) ↔
      isAttributeNamePart c = true := by
    intro c
    simp [isAttributeNamePart, isQuote, and_assoc]
  simp only [IsSafeName, hpart]

theorem isSafeName_of_isPlainName {name : String} (h : IsPlainName name) : IsSafeName name :=
  isSafeName_iff.2 ⟨by simpa using h.ne_nil, h.parts⟩

/-! ### Attributes other than bindings -/

/-- A name in brackets is that of a binding or a directive. -/
theorem Purpose.unbracketed_of_eq_plain {a : Attribute} {name value : String}
    (h : Purpose.of a = .plain name value) : readBracketOpening? a.name.toList = none := by
  unfold Purpose.of at h
  split at h
  · cases h
  · next hbinding =>
    split at h
    · cases h
    · split at h
      · cases h
      · next hdirective =>
        unfold readBracketOpening?
        split
        · next heq => simp [heq, isDirectiveName] at hdirective
        · next c after _ heq =>
          rw [heq] at hbinding hdirective
          split
          · next hc =>
            simp only [Bool.or_eq_true, beq_iff_eq] at hc
            rcases hc with (rfl | rfl) | rfl
            · simp [isDirectiveName] at hdirective
            · simp [bindingArgument?] at hbinding
            · simp [isDirectiveName] at hdirective
          · rfl
        · rfl

/-- Only the names of bindings may be unsafe. -/
theorem Head.Read.isSafeName {head : Head} (hread : head.Read) {data : Json.Value}
    {a : String × Option String} (ha : a ∈ head.attributes data) :
    IsSafeName a.1 ∨ ∃ b ∈ head.bindings, a ∈ b.attributes data := by
  simp only [attributes, List.mem_append, List.mem_map, List.mem_flatMap] at ha
  rcases ha with ((ha | ha) | ⟨p, hp, rfl⟩) | hb
  · rw [eq_of_mem_mergedAttributes data ha]
    exact .inl (by decide)
  · rw [eq_of_mem_mergedAttributes data ha]
    exact .inl (by decide)
  · obtain ⟨w, hw, hpurpose⟩ := hread.plain p hp
    have hunbracketed := Purpose.unbracketed_of_eq_plain hpurpose
    rw [Purpose.of_eq_plain hpurpose]
    exact .inl (isSafeName_of_isPlainName (isPlainName_of_read (hread.names w hw) hunbracketed))
  · exact .inr hb

/-- No name of an attribute is in brackets, and no binding is without a name. -/
@[mk_iff]
structure Head.NamesItself (head : Head) : Prop where
  unbracketed : ∀ a ∈ head.written, readBracketOpening? a.name.toList = none
  named : ∀ b ∈ head.bindings, b.name ≠ ""

instance (head : Head) : Decidable head.NamesItself :=
  decidable_of_iff' _ (Head.namesItself_iff head)

/-- A binding whose name is not in brackets has its name from the template. -/
theorem Head.NamesItself.isSafeName {head : Head} (h : head.NamesItself) (hread : head.Read)
    {data : Json.Value} {a : String × Option String} (ha : a ∈ head.attributes data) :
    IsSafeName a.1 := by
  rcases hread.isSafeName ha with hsafe | ⟨b, hb, ha⟩
  · exact hsafe
  · obtain ⟨w, hw, hpurpose⟩ := hread.bindings b hb
    have hplain := isPlainName_of_read (hread.names w hw) (h.unbracketed w hw)
    obtain ⟨hcomputed, hmem⟩ := Purpose.of_eq_binding_of_unbracketed hpurpose (h.unbracketed w hw)
    unfold Binding.attributes at ha
    rw [hcomputed] at ha
    simp only [Bool.false_eq_true, if_false] at ha
    split at ha
    · cases ha
    · rw [eq_of_mem_shownAttribute ha]
      exact isSafeName_iff.2 ⟨h.named b hb, fun c hc => hplain.parts c (hmem c hc)⟩

/-! ### What a template renders -/

theorem Node.mem_standing {data : Json.Value} {n : Node} {head : Head}
    (h : head ∈ n.standing data) : ∃ e ∈ n.elements, e.head = head := by
  have hall : ∀ nodes : List Node, (∀ n ∈ nodes, head ∈ n.standing data →
      ∃ e ∈ n.elements, e.head = head) → head ∈ standingAll data nodes →
      ∃ e ∈ elementsAll nodes, e.head = head := by
    intro nodes hnodes hmem
    induction nodes with
    | nil => cases hmem
    | cons n nodes ih =>
      obtain ⟨hn, hrest⟩ := List.forall_mem_cons.1 hnodes
      rcases List.mem_append.1 hmem with hmem | hmem
      · obtain ⟨e, he, rfl⟩ := hn hmem
        exact ⟨e, List.mem_append_left _ he, rfl⟩
      · obtain ⟨e, he, rfl⟩ := ih hrest hmem
        exact ⟨e, List.mem_append_right _ he, rfl⟩
  induction n using Node.induction with
  | text run => cases h
  | comment content span => cases h
  | element own children ih =>
    rw [standing] at h
    split at h
    · rcases List.mem_cons.1 h with rfl | h
      · exact ⟨_, List.mem_cons_self, rfl⟩
      · split at h
        · obtain ⟨e, he, rfl⟩ := hall children ih h
          exact ⟨e, List.mem_cons_of_mem _ he, rfl⟩
        · cases h
    · cases h

/-- The procedures of a clean tree write the attributes of the elements that stand. -/
theorem Node.Clean.attributeNames_eq {n : Node} (h : n.Clean) (hconstant : n.Constant) {code : Code}
    (hmeans : code.Means (n.intent 0)) (hok : (n.intent 0).main.Acceptable) (data : Json.Value) :
    (Code.buildFunctions Code.interpret code.main code.statics).attributeNames data =
      attributeNames data (n.standing data) := by
  have hstatics : NamesStatics data
      (Code.staticAttributeNames (Code.buildFunctions Code.interpret code.main code.statics).statics
        data Code.staticNestingLimit) 0 (n.intent 0).statics := by
    intro i e hi
    rw [Nat.zero_add]
    have hacceptable := acceptable_of_mem_statics h hconstant (List.mem_of_getElem? hi)
    exact Code.staticAttributeNames_of_acceptable hmeans.statics hi hacceptable data 63
  have hvalues := (h.wellCalled_main_iff hconstant).1 hok.2
  rw [Code.Functions.attributeNames, Code.buildFunctions,
    Code.attributeNames_of_acceptable hmeans.main hok]
  apply Node.attributeNames_intent h.spliced _ _ hstatics
  · intro u hu
    exact (h.supplied u hu).resolve_left (by simp [hvalues u hu])
  · exact fun r hr hroot => ⟨hconstant.condition hr hroot, h.hoisted r hr hroot⟩

/-- The elements of a compiled template that stand under the data. -/
def Compiled.standing (c : Compiled) (data : Json.Value) : List Head :=
  (c.tree.map fun root => root.toNode.standing data).getD []

section

variable {template : String} (herrors : (Compiler.web.compile {} template).errors = [])
include herrors

/-- What is rendered has the names of the elements that stand, unless the code gave no procedure and
nothing is rendered at all. -/
theorem attributeNames_functions (hsize : Text.extent template.toList ≤ Json.maxSignificand)
    (data : Json.Value) :
    (Compiler.web.compile {} template).functions.attributeNames data =
      if (Compiler.web.compile {} template).failed = [] then
        attributeNames data ((Compiler.web.compile {} template).standing data)
      else [] := by
  have hcode := compile_code (v := {}) rfl template
  rw [Compiled.functions, Compiled.failed, Compiled.standing, compile_tree]
  cases hroot : Overrides.root? {} template with
  | none =>
    have hempty : (Compiler.web.compile {} template).code = emptyCode := by rw [hcode, hroot]
    have hsilent : Silent (.call "_e" [] 0) :=
      silent_call "_e" .empty rfl (by decide) (by decide) (by decide) (by simp)
    rw [hempty, Code.Functions.attributeNames, Code.buildFunctions,
      Code.attributeNames_of_acceptable writes_emptyCode acceptable_empty, hsilent]
    exact (ite_self _).symm
  | some root =>
    rw [hroot] at hcode
    rw [hcode]
    have hclean := (clean_of_errors_eq_nil rfl hsize herrors hroot).2
    have hrootless := rootless_of_grown (root_grown rfl hroot).1
    have hconstant := constant_optimize (inert_override_web (v := {}) rfl rfl) hrootless
    have hfailed := Code.forall_interpret_iff hclean.means.main hclean.means.statics
    rw [← Code.failedPieces_eq_nil_iff] at hfailed
    by_cases hok : ((Overrides.finish {} root).toNode.intent 0).main.Acceptable
    · have hbuilt := hfailed.2 ⟨hok, fun s hs => acceptable_of_mem_statics hclean hconstant hs⟩
      rw [if_pos hbuilt]
      exact hclean.attributeNames_eq hconstant hclean.means hok data
    · rw [if_neg fun hbuilt => hok (hfailed.1 hbuilt).1, Code.Functions.attributeNames,
        Code.buildFunctions]
      obtain ⟨failed, hblank⟩ := Code.buildOrBlank_of_not_acceptable hclean.means.main hok
      rw [hblank]
      rfl

theorem read_of_mem_standing {data : Json.Value} {head : Head}
    (h : head ∈ (Compiler.web.compile {} template).standing data) :
    head.Read ∧ ∃ root ∈ (Compiler.web.compile {} template).tree, ∃ e ∈ root.toNode.elements,
      e.head = head := by
  rw [Compiled.standing] at h
  cases hroot : (Compiler.web.compile {} template).tree with
  | none =>
    rw [hroot] at h
    cases h
  | some root =>
    rw [hroot] at h
    obtain ⟨e, he, rfl⟩ := Node.mem_standing h
    exact ⟨(read_compiled_tree herrors hroot e he).head, root, rfl, e, he, rfl⟩

end

/-- The names of attributes that a template without errors renders, whatever the data, are those of
the elements that stand. They are all safe exactly if the names of the bindings among them are; so
they are under all data if no name of an attribute is in brackets and every binding has a name. The
number of bytes in the template fits 64 bits. -/
theorem safe_attributeNames_iff {template : String}
    (hsize : Text.extent template.toList ≤ Json.maxSignificand)
    (herrors : (Compiler.web.compile {} template).errors = []) :
    let compiled := Compiler.web.compile {} template
    (∀ data, compiled.functions.attributeNames data =
      if compiled.failed = [] then attributeNames data (compiled.standing data) else []) ∧
    (∀ data, (∀ name ∈ compiled.functions.attributeNames data, IsSafeName name) ↔
      (compiled.failed = [] → ∀ head ∈ compiled.standing data, ∀ b ∈ head.bindings,
        ∀ a ∈ b.attributes data, IsSafeName a.1)) ∧
    ((∀ root ∈ compiled.tree, ∀ e ∈ root.toNode.elements, e.head.NamesItself) →
      ∀ data, ∀ name ∈ compiled.functions.attributeNames data, IsSafeName name) := by
  intro compiled
  have hnames := attributeNames_functions herrors hsize
  refine ⟨hnames, ?_, ?_⟩
  · intro data
    rw [hnames data]
    constructor
    · intro hsafe hbuilt head hhead b hb a ha
      rw [if_pos hbuilt] at hsafe
      refine hsafe a.1 (List.mem_flatMap.2 ⟨head, hhead, List.mem_map_of_mem ?_⟩)
      exact List.mem_append_right _ (List.mem_flatMap.2 ⟨b, hb, ha⟩)
    · intro hsafe name hname
      split at hname
      · next hbuilt =>
        obtain ⟨head, hhead, hname⟩ := List.mem_flatMap.1 hname
        obtain ⟨a, ha, rfl⟩ := List.mem_map.1 hname
        rcases (read_of_mem_standing herrors hhead).1.isSafeName ha with hown | ⟨b, hb, ha⟩
        · exact hown
        · exact hsafe hbuilt head hhead b hb a ha
      · cases hname
  · intro hown data name hname
    rw [hnames data] at hname
    split at hname
    · obtain ⟨head, hhead, hname⟩ := List.mem_flatMap.1 hname
      obtain ⟨a, ha, rfl⟩ := List.mem_map.1 hname
      obtain ⟨hread, root, hroot, e, he, rfl⟩ := read_of_mem_standing herrors hhead
      exact (hown root hroot e he).isSafeName hread ha
    · cases hname

/-- Names of the template's own, one of them bound, and a part that a procedure of its own
renders. -/
def sampleNames : String :=
  "<div :title=\"t\"><ul><li data-x=\"1\">a</li><li class=\"b\">c</li></ul><p v-if=\"no\" id=\"q\"></p></div>"

theorem safe_attributeNames_sample :
    let compiled := Compiler.web.compile {} sampleNames
    let data : Json.Value := .object [("t", .string "\"><b>")]
    compiled.errors = [] ∧ compiled.failed = [] ∧ compiled.code.statics.length = 1 ∧
      compiled.functions.attributeNames data = ["title", "data-x", "class"] ∧
      (∀ name ∈ compiled.functions.attributeNames data, IsSafeName name) ∧
      ∀ data, ∀ name ∈ compiled.functions.attributeNames data, IsSafeName name := by
  intro compiled data
  have hsize : Text.extent sampleNames.toList ≤ Json.maxSignificand := by decide +kernel
  obtain ⟨herrors, hbuilt, hstatics, hown, hstanding⟩ : compiled.errors = [] ∧
      compiled.failed = [] ∧ compiled.code.statics.length = 1 ∧
      (∀ root ∈ compiled.tree, ∀ e ∈ root.toNode.elements, e.head.NamesItself) ∧
      attributeNames data (compiled.standing data) = ["title", "data-x", "class"] := by
    decide +kernel
  obtain ⟨hnames, -, hsafe⟩ := safe_attributeNames_iff hsize herrors
  have hdata := hnames data
  rw [if_pos hbuilt] at hdata
  exact ⟨herrors, hbuilt, hstatics, hdata.trans hstanding, hsafe hown data, hsafe hown⟩

/-- A name in brackets is written as the data have it, and may end the start tag. -/
theorem unsafe_attributeName_from_data :
    let compiled := Compiler.web.compile {} "<div :[n]=\"m\"></div>"
    let data : Json.Value := .object [("m", .string "v"), ("n", .string "x><script>")]
    compiled.errors = [] ∧ compiled.failed = [] ∧
      compiled.functions.render data = .ok "<div x><script>=\"v\"></div>" ∧
      compiled.functions.attributeNames data = ["x><script>"] ∧
      ∃ name ∈ compiled.functions.attributeNames data, ¬ IsSafeName name := by
  decide +kernel

end HtmlTemplate.Template
