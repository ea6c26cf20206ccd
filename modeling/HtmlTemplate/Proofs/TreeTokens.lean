import HtmlTemplate.Proofs.Marks
import HtmlTemplate.Proofs.Origin
import HtmlTemplate.Proofs.Rendering

/-!
# A rendered tree is read as it was written

The markup of a tree is put together from tokens (`Node.written_tokens`), and for the tree of a
template without errors they are read as what they are (`Node.legible`): the tags stand where those
of the template stood, so they close nothing that they did not close there. This needs that the
heads which stand under the data (`Node.shown`) can be read back at all (`Head.Regular`), for
expressions may render markup and names of their own.
-/

namespace HtmlTemplate.Template

open Markup
open HtmlTemplate.Code (Result)

/-! ### Attributes -/

/-- An attribute with what is written of its value: none if it has only a name. Nothing at all is
written for null and false. -/
def shownAttribute (name : String) : Result → List (String × Option String)
  | .data .null => []
  | .data (.bool false) => []
  | .data (.bool true) => [(name, none)]
  | r => [(name, some r.display)]

theorem attributeHtml_eq (name : String) (r : Result) :
    attributeHtml name r = String.join ((shownAttribute name r).map writtenAttribute) := by
  unfold attributeHtml Code.writeAttribute shownAttribute
  split <;> simp [writtenAttribute, String.append_assoc]

theorem eq_of_mem_shownAttribute {name : String} {r : Result} {a : String × Option String}
    (h : a ∈ shownAttribute name r) : a.1 = name := by
  unfold shownAttribute at h
  split at h <;> simp_all

section

variable (data : Json.Value)

def mergedAttributes (name : String) (fixed : Option String) (bound : Option Binding)
    (separator : String) : List (String × Option String) :=
  match fixed, bound with
  | some value, some b => [(name, some (value ++ separator ++ (evaluate data b.expression).display))]
  | some value, none => [(name, some value)]
  | none, some b => shownAttribute name (evaluate data b.expression)
  | none, none => []

theorem mergedHtml_eq (name : String) (fixed : Option String) (bound : Option Binding)
    (separator : String) : mergedHtml data name fixed bound separator =
      String.join ((mergedAttributes data name fixed bound separator).map writtenAttribute) := by
  unfold mergedHtml mergedAttributes
  split <;> simp [fixedAttributeHtml, attributeHtml_eq, shownAttribute]

theorem eq_of_mem_mergedAttributes {name : String} {fixed : Option String} {bound : Option Binding}
    {separator : String} {a : String × Option String}
    (h : a ∈ mergedAttributes data name fixed bound separator) : a.1 = name := by
  unfold mergedAttributes at h
  split at h
  · simp_all
  · simp_all
  · exact eq_of_mem_shownAttribute h
  · cases h

def Binding.attributes (b : Binding) : List (String × Option String) :=
  if b.isComputed then shownAttribute (evaluate data b.name).display (evaluate data b.expression)
  else if b.name == "class" || b.name == "style" then []
  else shownAttribute b.name (evaluate data b.expression)

theorem Binding.html_eq (b : Binding) :
    b.html data = String.join ((b.attributes data).map writtenAttribute) := by
  unfold html attributes
  split
  · exact attributeHtml_eq _ _
  · split
    · rfl
    · exact attributeHtml_eq _ _

/-- The attributes of a start tag as they are written. -/
def Head.attributes (head : Head) : List (String × Option String) :=
  mergedAttributes data "class" head.fixedClass (head.binding? "class") " " ++
    mergedAttributes data "style" head.fixedStyle (head.binding? "style") "" ++
    head.plain.map (fun p => (p.1, some p.2)) ++
    head.bindings.flatMap (Binding.attributes data)

theorem Head.startTag_eq (head : Head) :
    head.startTag data = Markup.written [.opening head.name (head.attributes data)] := by
  have hplain : String.join (head.plain.map fun p => fixedAttributeHtml p.1 p.2) =
      String.join ((head.plain.map fun p => (p.1, some p.2)).map writtenAttribute) := by
    rw [List.map_map]
    congr 1
    apply List.map_congr_left
    intro p _
    simp [fixedAttributeHtml, attributeHtml_eq, shownAttribute]
  have hbindings : String.join (head.bindings.map (Binding.html data)) =
      String.join ((head.bindings.flatMap (Binding.attributes data)).map writtenAttribute) := by
    induction head.bindings with
    | nil => rfl
    | cons b bindings ih =>
      rw [List.map_cons, String.join_cons, List.flatMap_cons, List.map_append, String.join_append,
        ih, b.html_eq]
  rw [written_opening, startTag, attributes, mergedHtml_eq, mergedHtml_eq, hbindings]
  change "<" ++ head.name ++ (_ ++ _ ++
    String.join (head.plain.map fun p => fixedAttributeHtml p.1 p.2) ++ _) ++ ">" = _
  rw [hplain]
  simp only [List.map_append, String.join_append]

/-! ### Elements that are rendered -/

mutual

/-- The elements that stand under the data, in the order of their start tags. -/
def Node.shown : Node → List Element
  | .element head children =>
    if head.stands data then
      ⟨head, children⟩ :: if head.keepsChildren then shownAll children else []
    else []
  | .text _ => []
  | .comment .. => []

def shownAll : List Node → List Element
  | [] => []
  | node :: rest => node.shown ++ shownAll rest

end

section

variable {data} {head : Head} {children : List Node}

theorem mem_shownAll {nodes : List Node} {n : Node} {e : Element} (hn : n ∈ nodes)
    (he : e ∈ n.shown data) : e ∈ shownAll data nodes := by
  induction nodes with
  | nil => cases hn
  | cons first nodes ih =>
    rw [shownAll, List.mem_append]
    rcases List.mem_cons.1 hn with rfl | hn
    · exact .inl he
    · exact .inr (ih hn)

theorem mem_shown_self (hstands : head.stands data = true) (children : List Node) :
    ⟨head, children⟩ ∈ (Node.element head children).shown data := by
  rw [Node.shown, if_pos hstands]
  exact List.mem_cons_self

/-- What is shown of the children of an element that stands and keeps them. -/
theorem mem_shown_children (hstands : head.stands data = true) (hkeeps : head.keepsChildren = true)
    {n : Node} (hn : n ∈ children) {e : Element} (he : e ∈ n.shown data) :
    e ∈ (Node.element head children).shown data := by
  rw [Node.shown, if_pos hstands, if_pos hkeeps]
  exact List.mem_cons_of_mem _ (mem_shownAll hn he)

theorem Head.keepsChildren_of (hsupplier : head.supplier? = none) (hunary : head.unary = false) :
    head.keepsChildren = true := by
  simp [keepsChildren, hsupplier, hunary]

end

/-! ### Tokens of a tree -/

def TextRun.shown (run : TextRun) : String := String.join (run.parts.map (Part.shown data))

/-- The element around its own children. -/
def Head.tokens (head : Head) (children : List Token) : List Token :=
  .opening head.name (head.attributes data) ::
    match head.supplier? with
    | some d => [.text (evaluate data d.value).display, .closing head.name]
    | none => if head.unary then [] else children ++ [.closing head.name]

mutual

/-- What a tree is written with: text in place of children that a directive supplies, and an empty
comment where a condition does not hold. -/
def Node.tokens : Node → List Token
  | .element head children =>
    if head.stands data then head.tokens data (tokensAll children) else [.comment ""]
  | .text run => [.text (run.shown data)]
  | .comment content _ => [.comment content]

def tokensAll : List Node → List Token
  | [] => []
  | node :: rest => node.tokens ++ tokensAll rest

end

theorem written_tokensAll {nodes : List Node}
    (h : ∀ n ∈ nodes, written (n.tokens data) = n.render data) :
    written (tokensAll data nodes) = String.join (renderAll data nodes) := by
  induction nodes with
  | nil => rfl
  | cons n nodes ih =>
    obtain ⟨hn, hnodes⟩ := List.forall_mem_cons.1 h
    rw [tokensAll, renderAll, String.join_cons, written_append, hn, ih hnodes]

/-- A tree that shows no markup from the data renders what it is written with. -/
theorem Node.written_tokens {n : Node}
    (h : ∀ e ∈ n.shown data, ∀ d ∈ e.head.directives, d.name ≠ "html") :
    written (n.tokens data) = n.render data := by
  induction n using Node.induction with
  | text run => exact written_text _
  | comment content span => exact written_comment content
  | element head children ih =>
    rw [tokens, render]
    split
    · next hstands =>
      rw [Head.tokens, Head.html, written_cons, head.startTag_eq]
      cases hsupplier : head.supplier? with
      | some d =>
        have hname : d.name ≠ "html" :=
          h _ (mem_shown_self hstands children) d (List.mem_of_find?_eq_some hsupplier)
        simp only
        rw [written_cons (.text _), written_text, written_closing, Directive.html,
          if_neg (by simpa using hname)]
        simp only [Head.endTag, String.append_assoc]
      | none =>
        cases hunary : head.unary with
        | true => exact String.append_empty
        | false =>
          have hkeeps := Head.keepsChildren_of hsupplier hunary
          have hchildren := written_tokensAll data fun n hn =>
            ih n hn fun e he => h e (mem_shown_children hstands hkeeps hn he)
          simp only [Bool.false_eq_true, if_false]
          rw [written_append, written_closing, hchildren]
          simp only [Head.endTag, String.append_assoc]
    · exact written_comment ""

end

/-! ### Names of bindings -/

theorem splitAtBracket_append (name : List Char) :
    (splitAtBracket name).1 ++ (splitAtBracket name).2 = name := by
  have hsuffix : (name.reverse.takeWhile (· != ']')).reverse <:+ name := by
    simpa using List.reverse_suffix.2 <| List.takeWhile_prefix (· != ']') (l := name.reverse)
  simp only [splitAtBracket]
  conv_lhs =>
    arg 2
    rw [List.suffix_iff_eq_drop.1 hsuffix]
  exact List.take_append_drop _ _

/-- Modifiers are taken off the end of a name. -/
theorem isPrefix_withoutModifiers (name : List Char) : withoutModifiers name <+: name := by
  conv_rhs => rw [← splitAtBracket_append name]
  exact (List.prefix_append_right_inj _).2 <| List.takeWhile_prefix _

/-- A bracketed argument of a binding begins a bracketed name. -/
theorem readBracketOpening?_of_bindingArgument? {name argument : List Char}
    (h : bindingArgument? name = some ('[' :: argument)) :
    (readBracketOpening? name).isSome = true := by
  unfold bindingArgument? at h
  split at h
  · obtain rfl := Option.some.inj h
    rfl
  · obtain rfl := Option.some.inj h
    rfl
  · cases h

theorem bindingArgument?_suffix {name argument : List Char}
    (h : bindingArgument? name = some argument) : argument <:+ name := by
  unfold bindingArgument? at h
  split at h
  · obtain rfl := Option.some.inj h
    exact ⟨['v', '-', 'b', 'i', 'n', 'd', ':'], rfl⟩
  · obtain rfl := Option.some.inj h
    exact ⟨[':'], rfl⟩
  · cases h

theorem Purpose.of_eq_binding {a : Attribute} {b : Binding} (h : Purpose.of a = .binding b) :
    ∃ argument, bindingArgument? a.name.toList = some argument ∧
      b = .ofAttribute (withoutModifiers argument) a := by
  unfold Purpose.of at h
  split at h
  · next argument hargument => exact ⟨argument, hargument, (Purpose.binding.inj h).symm⟩
  · split at h
    · cases h
    · split at h <;> cases h

theorem Purpose.of_eq_plain {a : Attribute} {name value : String}
    (h : Purpose.of a = .plain name value) : name = a.name := by
  unfold Purpose.of at h
  split at h
  · cases h
  · split at h
    · cases h
    · split at h
      · cases h
      · exact (Purpose.plain.inj h).1.symm

/-- Without a bracketed name of an attribute, the name of a binding is not computed and stands in
the name of the attribute. -/
theorem Purpose.of_eq_binding_of_unbracketed {a : Attribute} {b : Binding}
    (h : Purpose.of a = .binding b) (hname : readBracketOpening? a.name.toList = none) :
    b.isComputed = false ∧ ∀ c ∈ b.name.toList, c ∈ a.name.toList := by
  obtain ⟨argument, hargument, rfl⟩ := of_eq_binding h
  have hbegins := isPrefix_withoutModifiers argument
  have hnone : bracketed? (withoutModifiers argument) = none := by
    unfold bracketed?
    split
    · next rest heq =>
      obtain ⟨modifiers, hmodifiers⟩ := hbegins
      rw [heq, List.cons_append] at hmodifiers
      subst hmodifiers
      have hsome := readBracketOpening?_of_bindingArgument? hargument
      rw [hname] at hsome
      cases hsome
    · rfl
  simp only [Binding.ofAttribute, hnone, Option.isSome_none, Option.getD_none, String.toList_ofList,
    true_and]
  exact fun c hc => (bindingArgument?_suffix hargument).subset (hbegins.subset hc)

/-! ### Heads that can be read back -/

/-- What an element renders can be read back as an element: markup and names do not come from the
data, bindings have names, and the void elements are those that are rendered without an end tag. -/
@[mk_iff]
structure Head.Regular (head : Head) : Prop where
  noMarkup : ∀ d ∈ head.directives, d.name ≠ "html"
  unbracketed : ∀ a ∈ head.written, readBracketOpening? a.name.toList = none
  bound : ∀ b ∈ head.bindings, b.name ≠ "" ∧ readBracketOpening? b.name.toList = none
  isVoid_iff : isVoidElement head.name = true ↔ head.unary = true ∧ head.supplier? = none

instance (head : Head) : Decidable head.Regular := decidable_of_iff' _ (Head.regular_iff head)

theorem isPlainName_of_read {name : String} (h : IsReadName name.toList)
    (hname : readBracketOpening? name.toList = none) : IsPlainName name :=
  ⟨h.1, h.2 hname, hname⟩

/-- The names that the attributes are written with can be read back. -/
theorem Head.Regular.isPlainName {head : Head} (h : head.Regular) (hread : head.Read)
    (data : Json.Value) : ∀ a ∈ head.attributes data, IsPlainName a.1 := by
  intro a ha
  simp only [attributes, List.mem_append, List.mem_map, List.mem_flatMap] at ha
  rcases ha with ((ha | ha) | ⟨p, hp, rfl⟩) | ⟨b, hb, ha⟩
  · rw [eq_of_mem_mergedAttributes data ha]
    exact ⟨by decide, List.all_eq_true.1 (by decide), rfl⟩
  · rw [eq_of_mem_mergedAttributes data ha]
    exact ⟨by decide, List.all_eq_true.1 (by decide), rfl⟩
  · obtain ⟨w, hw, hpurpose⟩ := hread.plain p hp
    rw [Purpose.of_eq_plain hpurpose]
    exact isPlainName_of_read (hread.names w hw) (h.unbracketed w hw)
  · obtain ⟨w, hw, hpurpose⟩ := hread.bindings b hb
    have hplain := isPlainName_of_read (hread.names w hw) (h.unbracketed w hw)
    obtain ⟨hcomputed, hmem⟩ := Purpose.of_eq_binding_of_unbracketed hpurpose (h.unbracketed w hw)
    obtain ⟨hne, hopening⟩ := h.bound b hb
    have hname : a.1 = b.name := by
      unfold Binding.attributes at ha
      rw [hcomputed] at ha
      simp only [Bool.false_eq_true, if_false] at ha
      split at ha
      · cases ha
      · exact eq_of_mem_shownAttribute ha
    rw [hname]
    exact ⟨by simpa using hne, fun c hc => hplain.parts c (hmem c hc), hopening⟩

/-! ### Names of raw-text elements -/

theorem lowercaseFrom_of_ascii {s : List Char} (h : ∀ c ∈ s, c.toNat < 128)
    (before done : List Char) :
    Text.lowercaseFrom before done s = done.reverse ++ s.map Char.toLower := by
  induction s generalizing before done with
  | nil => simp [Text.lowercaseFrom]
  | cons c s ih =>
    obtain ⟨hc, hs⟩ := List.forall_mem_cons.1 h
    have hsigma : c ≠ 'Σ' := by
      rintro rfl
      exact absurd hc (by decide)
    have hform : Text.smallFormBetween before c s = [c.toLower] := by
      simp [Text.smallFormBetween, Text.smallForm, hsigma, hc]
    simp [Text.lowercaseFrom, hform, ih hs]

theorem ascii_of_toLower {c : Char} (h : c.toLower.toNat < 128) : c.toNat < 128 := by
  unfold Char.toLower at h
  split at h
  · next hc =>
    simp only [ge_iff_le, UInt32.le_iff_toNat_le, Char.reduceVal, UInt32.reduceToNat] at hc
    simp only [Char.toNat]
    omega
  · exact h

/-- The small form of a raw-text element's name differs from the name in ASCII letters only. -/
theorem toLower_lowercase_of_hasRawText {name : String} (h : hasRawText name = true) :
    (Text.lowercase name).toList.map Char.toLower = name.toList.map Char.toLower := by
  obtain ⟨small, hsmall, hfolded⟩ : ∃ small ∈ ["script", "style", "textarea"],
      name.toList.map Char.toLower = small.toList.map Char.toLower := by
    simpa [hasRawText, isOneOfIgnoringCase, Text.eqIgnoringAsciiCase] using h
  obtain ⟨hascii, htwice⟩ : (small.toList.map Char.toLower).all (fun c => c.toNat < 128) = true ∧
      (small.toList.map Char.toLower).map Char.toLower = small.toList.map Char.toLower := by
    clear hfolded
    revert small
    decide
  have hname : ∀ c ∈ name.toList, c.toNat < 128 := by
    intro c hc
    have hmem : c.toLower ∈ small.toList.map Char.toLower := hfolded ▸ List.mem_map_of_mem hc
    exact ascii_of_toLower (by simpa using List.all_eq_true.1 hascii _ hmem)
  rw [Text.lowercase, String.toList_ofList, lowercaseFrom_of_ascii hname, hfolded]
  exact htwice

/-! ### Reading the tokens -/

/-- The node may stand in elements of these names, innermost first. -/
def Node.FitsAmong (o : Markup.Options) (names : List String) : Node → Prop
  | .element head _ => o.ReadsMarkup names ∧ o.StaysOpen names head.name
  | .text _ => o.ReadsMarkup names
  | .comment .. => o.keepComments = true

theorem Node.FitsIn.among {o : Markup.Options} {parent : String} {n : Node}
    (h : n.FitsIn o parent) (hreads : o.isRawText parent = false) (names : List String) :
    n.FitsAmong o (parent :: names) := by
  cases n with
  | element head children => exact h
  | text run => exact fun name hname => Option.mem_some.1 hname ▸ hreads
  | comment content span => exact h

theorem joinText_texts (texts : List String) (name : String) (rest : List Token) :
    joinText (texts.map Token.text ++ .closing name :: rest) =
      textTokens (String.join texts) ++ .closing name :: joinText rest := by
  induction texts with
  | nil => rfl
  | cons s texts ih =>
    rw [List.map_cons, List.cons_append, joinText, ih, String.join_cons]
    by_cases hempty : String.join texts = "" <;> simp [textTokens, prependText, hempty]

theorem exists_texts_of_fitsIn {o : Markup.Options} (hcomments : o.keepComments = false)
    {parent : String} (hraw : o.isRawText parent = true) (data : Json.Value) {children : List Node}
    (h : ∀ n ∈ children, n.FitsIn o parent) :
    ∃ texts : List String, tokensAll data children = texts.map Token.text := by
  induction children with
  | nil => exact ⟨[], rfl⟩
  | cons n children ih =>
    obtain ⟨hn, hchildren⟩ := List.forall_mem_cons.1 h
    obtain ⟨texts, htexts⟩ := ih hchildren
    cases n with
    | text run => exact ⟨run.shown data :: texts, by simp [tokensAll, Node.tokens, htexts]⟩
    | element head grandchildren =>
      have hreads := hn.1 parent rfl
      rw [hraw] at hreads
      cases hreads
    | comment content span =>
      rw [Node.FitsIn, hcomments] at hn
      cases hn

theorem legible_tokensAll {o : Markup.Options} (data : Json.Value) {children : List Node}
    {names : List String}
    (h : ∀ n ∈ children, ∀ {rest}, Legible o names (joinText rest) →
      Legible o names (joinText (n.tokens data ++ rest)))
    {rest : List Token} (hrest : Legible o names (joinText rest)) :
    Legible o names (joinText (tokensAll data children ++ rest)) := by
  induction children with
  | nil => exact hrest
  | cons n children ih =>
    obtain ⟨hn, hchildren⟩ := List.forall_mem_cons.1 h
    rw [tokensAll, List.append_assoc]
    exact hn (ih hchildren)

section

variable {data : Json.Value} {head : Head} {children : List Node} {names : List String}
  {rest : List Token}

/-- An element that is not void and has no text from a directive has its own children. -/
theorem Head.Regular.unary_eq_false (h : head.Regular) (hvoid : isVoidElement head.name = false)
    (hsupplier : head.supplier? = none) : head.unary = false := by
  rw [Bool.eq_false_iff] at hvoid ⊢
  exact fun hunary => hvoid (h.isVoid_iff.2 ⟨hunary, hsupplier⟩)

/-- An element whose content is raw text holds nothing but text. -/
theorem Head.legible_raw
    (hopens : Options.web.markup.Opens names head.name (head.attributes data))
    (hregular : head.Regular) (hraw : hasRawText head.name = true)
    (hvoid : isVoidElement head.name = false)
    (hchildren : ∀ n ∈ children, n.FitsIn Options.web.markup head.name)
    (hrest : Legible Options.web.markup names (joinText rest)) :
    Legible Options.web.markup names
      (joinText (head.tokens data (tokensAll data children) ++ rest)) := by
  obtain ⟨texts, htexts⟩ : ∃ texts : List String, head.tokens data (tokensAll data children) =
      .opening head.name (head.attributes data) ::
        (texts.map Token.text ++ [.closing head.name]) := by
    rw [Head.tokens]
    cases hsupplier : head.supplier? with
    | some d => exact ⟨[(evaluate data d.value).display], rfl⟩
    | none =>
      obtain ⟨texts, htexts⟩ :=
        exists_texts_of_fitsIn (o := Options.web.markup) rfl hraw data hchildren
      exact ⟨texts, by simp [hregular.unary_eq_false hvoid hsupplier, htexts]⟩
  have hopensRaw : Options.web.markup.opensRawText head.name = true := by
    change (!isVoidElement head.name && hasRawText head.name) = true
    rw [hvoid, hraw]
    rfl
  rw [htexts, List.cons_append, List.append_assoc, joinText, List.singleton_append, joinText_texts]
  · exact .raw _ hopens hopensRaw (toLower_lowercase_of_hasRawText hraw) hrest
  · simp

/-- An element that is void or has markup for its content. -/
theorem Head.legible_markup
    (hopens : Options.web.markup.Opens names head.name (head.attributes data))
    (hregular : head.Regular)
    (hmarkup : isVoidElement head.name = true ∨ hasRawText head.name = false)
    (hchildren : isVoidElement head.name = false → head.keepsChildren = true →
      ∀ n ∈ children, ∀ {rest},
      Legible Options.web.markup (head.name :: names) (joinText rest) →
        Legible Options.web.markup (head.name :: names) (joinText (n.tokens data ++ rest)))
    (hrest : Legible Options.web.markup names (joinText rest)) :
    Legible Options.web.markup names
      (joinText (head.tokens data (tokensAll data children) ++ rest)) := by
  have hnotRaw : Options.web.markup.opensRawText head.name = false := by
    change (!isVoidElement head.name && hasRawText head.name) = false
    rcases hmarkup with h | h <;> simp [h]
  rw [Head.tokens, List.cons_append, joinText]
  · refine .opening hopens hnotRaw ?_
    change Legible _ (if isVoidElement head.name then names else head.name :: names) _
    cases hvoid : isVoidElement head.name with
    | true =>
      obtain ⟨hunary, hsupplier⟩ := hregular.isVoid_iff.1 hvoid
      simpa [hunary, hsupplier] using hrest
    | false =>
      have hreads : hasRawText head.name = false := hmarkup.resolve_left (by simp [hvoid])
      have hclosing : Legible Options.web.markup (head.name :: names)
          (joinText (.closing head.name :: rest)) := .closing hreads hopens.qualified hrest
      simp only [Bool.false_eq_true, if_false]
      cases hsupplier : head.supplier? with
      | some d =>
        refine hclosing.prependText ?_ _
        exact fun name hname => Option.mem_some.1 hname ▸ hreads
      | none =>
        have hunary := hregular.unary_eq_false hvoid hsupplier
        simp only [hunary, Bool.false_eq_true, if_false, List.append_assoc]
        exact legible_tokensAll data (hchildren hvoid (keepsChildren_of hsupplier hunary)) hclosing
  · simp

end

/-- The tokens of a tree that is as its markup says are read as what they are if the heads that are
shown can be read back. -/
theorem Node.legible (data : Json.Value) {n : Node} (hread : n.Read Options.web.markup)
    (hregular : ∀ e ∈ n.shown data, e.head.Regular) {names : List String}
    (hfits : n.FitsAmong Options.web.markup names) {rest : List Token}
    (hrest : Legible Options.web.markup names (joinText rest)) :
    Legible Options.web.markup names (joinText (n.tokens data ++ rest)) := by
  induction n using Node.induction generalizing names rest with
  | text run => exact hrest.prependText hfits _
  | comment content span => cases hfits
  | element head children ih =>
    rw [tokens]
    split
    · next hstands =>
      have hself := hread _ List.mem_cons_self
      have hhead : head.Regular := hregular _ (mem_shown_self hstands children)
      have hopens : Options.web.markup.Opens names head.name (head.attributes data) :=
        ⟨hfits.1, hself.head.qualified, hhead.isPlainName hself.head data, hfits.2⟩
      by_cases hraw : isVoidElement head.name = false ∧ hasRawText head.name = true
      · exact Head.legible_raw hopens hhead hraw.2 hraw.1 hself.children hrest
      · have hmarkup : isVoidElement head.name = true ∨ hasRawText head.name = false := by
          cases hvoid : isVoidElement head.name with
          | true => exact .inl rfl
          | false => exact .inr (by simpa [hvoid] using hraw)
        apply Head.legible_markup hopens hhead hmarkup _ hrest
        intro hvoid hkeeps n hn rest hrest
        have hreads : hasRawText head.name = false := hmarkup.resolve_left (by simp [hvoid])
        exact ih n hn (fun e he => hread e (mem_elements_children hn he))
          (fun e he => hregular e (mem_shown_children hstands hkeeps hn he))
          ((hself.children n hn).among hreads names) hrest
    · exact .comment hfits.1 (by unfold IsCommentText; decide) hrest

end HtmlTemplate.Template
