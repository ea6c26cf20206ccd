import HtmlTemplate.Proofs.Intent
import HtmlTemplate.Proofs.Writing
import HtmlTemplate.Template.Module

/-!
# The code of a tree is read as it is meant

Every text that the code of a tree is put together from stands for the expression that it was
written for: attributes, text, the children that a directive of the web supplies, elements and
whole trees with their static bodies (`Node.means_intent`). All that this asks of the template is
that its expressions can be read on their own.
-/

namespace HtmlTemplate.Template

open Json (literal)
open HtmlTemplate.Code (Expr Writes)

section

variable (opening name : String) (hopening : opening = name ++ "(")
  (hname : Code.isWord name = true)
include hopening hname

theorem writes_nullary : Writes (opening ++ ")") (.call name [] 0) := by
  simpa [hopening] using Code.writes_call hname .nil

theorem writes_unary {code : String} {e : Expr} (h : Writes code e) :
    Writes (opening ++ code ++ ")") (.call name [e] 0) := by
  simpa [hopening] using Code.writes_call hname (.cons h .nil)

theorem writes_binary {code₁ code₂ : String} {e₁ e₂ : Expr} (h₁ : Writes code₁ e₁)
    (h₂ : Writes code₂ e₂) :
    Writes (opening ++ code₁ ++ "," ++ code₂ ++ ")") (.call name [e₁, e₂] 0) := by
  simpa [hopening, String.append_assoc] using
    Code.writes_call hname (.cons h₁ (.cons h₂ .nil))

theorem writes_list {codes : List String} {exprs : List Expr}
    (h : List.Forall₂ Writes codes exprs) :
    Writes (opening ++ commaSeparated codes ++ ")") (.call name exprs 0) := by
  rw [hopening]
  exact Code.writes_call hname h

end

theorem writes_bracketedList {codes : List String} {exprs : List Expr}
    (h : List.Forall₂ Writes codes exprs) : Writes (bracketedList codes) (.array exprs) :=
  Code.writes_array h

/-- What can be read on its own stands for itself. -/
theorem writes_userExpr {code : String} {e : Expr} (h : Code.parse code = .ok e) :
    Writes code (userExpr code) := by
  rw [userExpr, h]
  exact Code.writes_of_parse h

theorem writes_textExpr (s : String) : Writes (literal s) (textExpr s) := Code.writes_literal s

theorem Part.written_code {p : Part} (h : ∀ u ∈ p.spliced, Writes u (userExpr u)) :
    Writes p.code p.expr := by
  cases p with
  | fixed text => exact writes_textExpr text
  | expression code =>
    exact writes_unary "_s(" "_s" rfl (by decide) (h code (by simp [Part.spliced]))

theorem written_parts {parts : List Part}
    (h : ∀ u ∈ parts.flatMap Part.spliced, Writes u (userExpr u)) :
    List.Forall₂ Writes (parts.map Part.code) (parts.map Part.expr) := by
  rw [List.forall₂_map_left_iff, List.forall₂_map_right_iff, List.forall₂_same]
  intro p hp
  apply p.written_code
  intro u hu
  exact h u (List.mem_flatMap.2 ⟨p, hp, hu⟩)

theorem written_textCode {parts : List Part}
    (h : ∀ u ∈ parts.flatMap Part.spliced, Writes u (userExpr u)) :
    Writes (textCode parts) (runExpr parts) := by
  have hparts := written_parts h
  unfold textCode runExpr
  match parts with
  | [] =>
    have hcode : "_v(\"\")" = "_v(" ++ literal "" ++ ")" := by decide
    simp only [List.map_nil, hcode]
    exact writes_unary "_v(" "_v" rfl (by decide) (writes_textExpr "")
  | [p] =>
    cases hparts with
    | cons hp _ => exact writes_unary "_v(" "_v" rfl (by decide) hp
  | p :: q :: rest =>
    have hjoin := writes_list "_j(" "_j" rfl (by decide) hparts
    have hwhole := writes_unary "_v(" "_v" rfl (by decide) hjoin
    simp only [List.map_cons]
    rw [show "_v(_j(" = "_v(" ++ "_j(" from rfl, show "))" = ")" ++ ")" from rfl]
    simpa only [List.map_cons, String.append_assoc] using hwhole

theorem written_attributeCode {nameCode valueCode : String} {name value : Expr}
    (hname : Writes nameCode name) (hvalue : Writes valueCode value) :
    Writes (attributeCode nameCode valueCode) (attributeExpr name value) :=
  writes_binary "_a(" "_a" rfl (by decide) hname hvalue

theorem written_mergedCode {name : String} {fixed : Option String} {bound : Option Binding}
    {separator : String} (h : ∀ b ∈ bound, Writes b.expression (userExpr b.expression)) :
    List.Forall₂ Writes (mergedCode name fixed bound separator)
      (mergedExprs name fixed bound separator) := by
  cases fixed with
  | none =>
    cases bound with
    | none => exact .nil
    | some b => exact .cons (written_attributeCode (writes_textExpr name) (h b rfl)) .nil
  | some value =>
    cases bound with
    | none =>
      exact .cons (written_attributeCode (writes_textExpr name) (writes_textExpr value))
        .nil
    | some b =>
      have hshown := writes_unary "_s(" "_s" rfl (by decide) (h b rfl)
      have hjoin := writes_binary "_j(" "_j" rfl (by decide)
        (writes_textExpr (value ++ separator)) hshown
      refine .cons (written_attributeCode (writes_textExpr name) ?_) .nil
      rw [show ",_s(" = "," ++ "_s(" from rfl, show "))" = ")" ++ ")" from rfl]
      simpa only [String.append_assoc] using hjoin

theorem Binding.written_codes {b : Binding} (h : ∀ u ∈ b.spliced, Writes u (userExpr u)) :
    List.Forall₂ Writes b.codes b.exprs := by
  unfold Binding.spliced at h
  unfold Binding.codes Binding.exprs
  split at h
  · next hcomputed =>
    rw [if_pos hcomputed, if_pos hcomputed]
    exact .cons (written_attributeCode (h b.name (by simp)) (h b.expression (by simp))) .nil
  · next hcomputed =>
    rw [if_neg hcomputed, if_neg hcomputed]
    split at h
    · next hmerged =>
      rw [if_pos hmerged, if_pos hmerged]
      exact .nil
    · next hmerged =>
      rw [if_neg hmerged, if_neg hmerged]
      exact .cons (written_attributeCode (writes_textExpr b.name) (h b.expression (by simp))) .nil

theorem written_bindings {bindings : List Binding}
    (h : ∀ u ∈ bindings.flatMap Binding.spliced, Writes u (userExpr u)) :
    List.Forall₂ Writes (bindings.flatMap Binding.codes) (bindings.flatMap Binding.exprs) := by
  induction bindings with
  | nil => exact .nil
  | cons b bindings ih =>
    rw [List.flatMap_cons] at h
    rw [List.flatMap_cons, List.flatMap_cons]
    refine List.rel_append (b.written_codes ?_) (ih ?_)
    · intro u hu
      exact h u (List.mem_append_left _ hu)
    · intro u hu
      exact h u (List.mem_append_right _ hu)

theorem written_plain (plain : List (String × String)) :
    List.Forall₂ Writes
      (plain.map fun (name, value) => attributeCode (literal name) (literal value))
      (plain.map fun (name, value) => attributeExpr (textExpr name) (textExpr value)) := by
  rw [List.forall₂_map_left_iff, List.forall₂_map_right_iff, List.forall₂_same]
  intro a _
  exact written_attributeCode (writes_textExpr a.1) (writes_textExpr a.2)

namespace Head

theorem written_attributeCodes {head : Head} (h : ∀ u ∈ head.spliced, Writes u (userExpr u)) :
    List.Forall₂ Writes head.attributeCodes head.attributeExprs := by
  refine List.rel_append (List.rel_append (List.rel_append ?_ ?_) ?_) ?_
  · exact written_mergedCode fun b hb => h _ (mem_spliced_class hb)
  · exact written_mergedCode fun b hb => h _ (mem_spliced_style hb)
  · exact written_plain head.plain
  · apply written_bindings
    intro u hu
    exact h u (List.mem_append_left _ (List.mem_append_right _ hu))

section

variable {head : Head} (h : ∀ u ∈ head.spliced, Writes u (userExpr u))
include h

theorem written_code_none : Writes (head.code none) (head.expr none) := by
  have hattributes := writes_bracketedList (written_attributeCodes h)
  have hcall := writes_binary "_c(" "_c" rfl (by decide) (writes_textExpr head.name) hattributes
  simpa only [code, expr, String.append_empty, Option.toList_none] using hcall

theorem written_code_some {children : String} {e : Expr} (hchildren : Writes children e) :
    Writes (head.code (some children)) (head.expr (some e)) := by
  have hattributes := writes_bracketedList (written_attributeCodes h)
  have hcall := writes_list "_c(" "_c" rfl (by decide)
    (.cons (writes_textExpr head.name) (.cons hattributes (.cons hchildren .nil)))
  simpa [code, expr, commaSeparated, String.append_assoc] using hcall

end

end Head

/-! ### Directives of the web -/

def Directive.childrenCode (d : Directive) : String :=
  if d.name == "html" then "[_h(" ++ d.value ++ ")]" else "[_v(_s(" ++ d.value ++ "))]"

theorem find?_web_directives (name : String) : Options.web.directives.find? name =
    if name = "html" then some markupDirective
    else if name = "text" then some textDirective else none := by
  change ((OrderedMap.insert "text" textDirective []).insert "html" markupDirective).find? name = _
  rw [OrderedMap.find?_insert, OrderedMap.find?_insert]
  rfl

theorem Head.directiveChildren?_web (head : Head) :
    head.directiveChildren? Options.web.directives = head.supplier?.map Directive.childrenCode := by
  unfold directiveChildren? supplier?
  induction head.directives with
  | nil => rfl
  | cons d rest ih =>
    rw [List.findSome?_cons, List.find?_cons, find?_web_directives]
    by_cases hhtml : d.name = "html"
    · simp [hhtml, markupDirective, Directive.childrenCode]
    · by_cases htext : d.name = "text"
      · simp [htext, textDirective, Directive.childrenCode]
      · simpa [hhtml, htext, beq_eq_false_iff_ne.2 hhtml, beq_eq_false_iff_ne.2 htext] using ih

theorem writes_userArguments {opening name : String} (hopening : opening = name ++ "(")
    (hname : Code.isWord name = true) {code : String}
    (h : code.isEmpty = true ∨ Writes code (userExpr code)) :
    Writes (opening ++ code ++ ")") (.call name (userArguments code) 0) := by
  by_cases hempty : code.isEmpty = true
  · rw [userArguments, if_pos hempty, String.isEmpty_iff.1 hempty, String.append_empty]
    exact writes_nullary opening name hopening hname
  · rw [userArguments, if_neg hempty]
    exact writes_unary opening name hopening hname (h.resolve_left hempty)

theorem Directive.written_children {d : Directive}
    (h : d.value.isEmpty = true ∨ Writes d.value (userExpr d.value)) :
    Writes d.childrenCode d.childrenExpr := by
  unfold childrenCode childrenExpr
  split
  · have hcall := writes_userArguments (show "_h(" = "_h" ++ "(" from rfl) (by decide) h
    have hlist := writes_bracketedList (.cons hcall .nil)
    rw [show "[_h(" = "[" ++ "_h(" from rfl, show ")]" = ")" ++ "]" from rfl]
    simpa only [bracketedList, commaSeparated, String.intercalate_singleton, String.append_assoc]
      using hlist
  · have hcall := writes_userArguments (show "_s(" = "_s" ++ "(" from rfl) (by decide) h
    have hlist := writes_bracketedList (.cons (writes_unary "_v(" "_v" rfl (by decide) hcall) .nil)
    rw [show "[_v(_s(" = "[" ++ ("_v(" ++ "_s(") from rfl,
      show "))]" = ")" ++ (")" ++ "]") from rfl]
    simpa only [bracketedList, commaSeparated, String.intercalate_singleton, String.append_assoc]
      using hlist

/-! ### Whole trees -/

/-- Each piece of code stands for the expression that it is meant to be. -/
structure Code.Means (code : Code) (intent : Intent) : Prop where
  main : Writes code.main intent.main
  statics : List.Forall₂ Writes code.statics intent.statics

theorem Head.length_le_wrapIntent (head : Head) (first : Nat) (body : Intent) :
    body.statics.length ≤ (head.wrapIntent first body).statics.length := by
  unfold wrapIntent
  split
  · simp
  · split <;> exact Nat.le_refl _

theorem Head.means_wrap {head : Head} {first : Nat} {body : Code} {intent : Intent}
    (h : body.Means intent) (hcondition : ∀ c ∈ head.condition, Writes c (userExpr c))
    (hindex : first + (head.wrapIntent first intent).statics.length ≤ Json.maxSignificand) :
    (head.wrap first body).Means (head.wrapIntent first intent) := by
  unfold wrapIntent at hindex ⊢
  unfold wrap
  split
  · next hroot =>
    rw [if_pos hroot] at hindex
    rw [h.statics.length_eq]
    constructor
    · refine writes_unary "_m(" "_m" rfl (by decide) (Code.writes_repr ?_)
      simp only [List.length_append, List.length_singleton] at hindex
      omega
    · exact List.rel_append h.statics (.cons h.main .nil)
  · cases hc : head.condition with
    | none => exact h
    | some c =>
      constructor
      · exact writes_binary "_i(" "_i" rfl (by decide) (hcondition c hc) h.main
      · exact h.statics

theorem means_codeAll {nodes : List Node}
    (h : ∀ n ∈ nodes, ∀ first, first + (n.intent first).statics.length ≤ Json.maxSignificand →
      (n.code Options.web.directives first).Means (n.intent first)) (first : Nat)
    (hindex : first + (intentAll first nodes).2.length ≤ Json.maxSignificand) :
    List.Forall₂ Writes (codeAll Options.web.directives first nodes).1
        (intentAll first nodes).1 ∧
      List.Forall₂ Writes (codeAll Options.web.directives first nodes).2
        (intentAll first nodes).2 := by
  induction nodes generalizing first with
  | nil => exact ⟨.nil, .nil⟩
  | cons n nodes ih =>
    simp only [intentAll, List.length_append] at hindex
    have hn := h n (by simp) first (by omega)
    obtain ⟨hmains, hstatics⟩ := ih (fun m hm => h m (by simp [hm]))
      (first + (n.intent first).statics.length) (by omega)
    simp only [codeAll, intentAll]
    rw [hn.statics.length_eq]
    constructor
    · exact .cons hn.main hmains
    · exact List.rel_append hn.statics hstatics

/-- The code of a tree for the web is read as what it is meant to be. -/
theorem Node.means_intent (n : Node) (hspliced : ∀ u ∈ n.spliced, Writes u (userExpr u))
    (hsupplied : ∀ u ∈ n.supplied, u.isEmpty = true ∨ Writes u (userExpr u)) {first : Nat}
    (hindex : first + (n.intent first).statics.length ≤ Json.maxSignificand) :
    (n.code Options.web.directives first).Means (n.intent first) := by
  induction n using Node.induction generalizing first with
  | text run =>
    rw [code, intent]
    refine ⟨written_textCode fun u hu => hspliced u ?_, .nil⟩
    simpa [spliced, generated, ownSpliced] using hu
  | comment content span =>
    rw [code, intent]
    exact ⟨writes_unary "_cm(" "_cm" rfl (by decide) (writes_textExpr content), .nil⟩
  | element head children ih =>
    have hhead : ∀ u ∈ head.spliced, Writes u (userExpr u) :=
      fun u hu => hspliced u (mem_spliced_head hu)
    have hcondition : ∀ c ∈ head.condition, Writes c (userExpr c) :=
      fun c hc => hhead c (mem_spliced_condition hc)
    rw [intent] at hindex ⊢
    rw [code, head.directiveChildren?_web]
    cases hsupplier : head.supplier? with
    | some d =>
      have hd := Directive.written_children (hsupplied d.value (mem_supplied_head hsupplier))
      have hcall := Head.written_code_some hhead hd
      rw [Head.bodyIntent, hsupplier] at hindex ⊢
      exact Head.means_wrap ⟨hcall, .nil⟩ hcondition hindex
    | none =>
      simp only [Head.bodyIntent, hsupplier, Option.map_none] at hindex ⊢
      cases hunary : head.unary with
      | true =>
        have hcall := Head.written_code_none hhead
        rw [hunary] at hindex
        exact Head.means_wrap ⟨hcall, .nil⟩ hcondition hindex
      | false =>
        have hkeeps : head.keepsChildren = true := by simp [Head.keepsChildren, hsupplier, hunary]
        rw [hunary] at hindex
        have hlength := head.length_le_wrapIntent first
          ⟨head.expr (some (.array (intentAll first children).1)), (intentAll first children).2⟩
        obtain ⟨hmains, hstatics⟩ := means_codeAll
          (fun n hn first => ih n hn (fun u hu => hspliced u (mem_spliced_children hkeeps hn hu))
            (fun u hu => hsupplied u (mem_supplied_children hkeeps hn hu)))
          first (Nat.le_trans (Nat.add_le_add_left hlength first) hindex)
        have hcall := Head.written_code_some hhead (writes_bracketedList hmains)
        exact Head.means_wrap ⟨hcall, hstatics⟩ hcondition hindex

end HtmlTemplate.Template
