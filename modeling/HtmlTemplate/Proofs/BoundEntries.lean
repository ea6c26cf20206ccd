import HtmlTemplate.Proofs.Compiles

/-!
# Which bindings stand in the attributes of an element

An entry of the attribute list of an element depends on a binding if it changes with the expression
of the binding. Every binding has one entry that depends on it, but for those of a class or a style
that another binding of the same name stands before: of these the list says nothing
(`binding_feeds_one_iff`). The first of them is found and the others are passed over, and no
duplicate is reported as long as they are spelled differently.
-/

namespace HtmlTemplate.Template

open Json (literal)

/-! ### Bindings and entries -/

/-- A binding with another expression. -/
def Binding.withExpression (b : Binding) (expression : String) : Binding :=
  { b with expression := expression }

/-- Whether a binding is for the attribute of a name, whatever the data are. -/
def Binding.isFor (name : String) (b : Binding) : Bool := !b.isComputed && b.name == name

section

variable {b : Binding} {name : String}

theorem Binding.isFor_iff : b.isFor name = true ↔ b.isComputed = false ∧ b.name = name := by
  simp [isFor]

theorem Binding.isFor_of_ne (h : b.isFor name = true) {other : String} (hne : other ≠ name) :
    b.isFor other = false := by
  rw [← Bool.not_eq_true, isFor_iff]
  rintro ⟨-, rfl⟩
  exact hne (isFor_iff.1 h).2

/-- The bindings of a class and of a style are passed over where each binding has its entry. -/
theorem Binding.codes_of_isFor (hname : name ∈ ["class", "style"])
    (h : b.isFor name = true) : b.codes = [] := by
  obtain ⟨hcomputed, rfl⟩ := isFor_iff.1 h
  rw [codes, if_neg (by simp [hcomputed]), if_pos (by simpa using hname)]

end

namespace Head

/-- The head with another expression for binding `i`. -/
def withExpression (head : Head) (i : Nat) (expression : String) : Head :=
  { head with bindings := head.bindings.modify i fun b => b.withExpression expression }

/-- Entry `k` of the attribute list depends on the expression of binding `i`. -/
def Feeds (head : Head) (i k : Nat) : Prop :=
  ∃ expression, (head.withExpression i expression).attributeCodes[k]? ≠ head.attributeCodes[k]?

/-- Binding `i` is for the class or the style, and so is one before it. -/
def Shadowed (head : Head) (i : Nat) : Prop :=
  ∃ name ∈ ["class", "style"], (∃ b ∈ head.bindings[i]?, b.isFor name = true) ∧
    ∃ c ∈ head.bindings.take i, c.isFor name = true

instance (head : Head) (i : Nat) : Decidable (head.Shadowed i) :=
  inferInstanceAs (Decidable (∃ name ∈ ["class", "style"], (∃ b ∈ head.bindings[i]?,
    b.isFor name = true) ∧ ∃ c ∈ head.bindings.take i, c.isFor name = true))

/-- What is fixed in the entry of a binding and stands before its expression. -/
def fixedBefore (head : Head) (b : Binding) : Option String :=
  if b.isFor "class" then head.fixedClass.map (· ++ " ")
  else if b.isFor "style" then head.fixedStyle
  else none

/-- What the value of its entry is: the expression of the binding, behind what is fixed. -/
def valueCode (head : Head) (b : Binding) : String :=
  match head.fixedBefore b with
  | some fixed => "_j(" ++ literal fixed ++ ",_s(" ++ b.expression ++ "))"
  | none => b.expression

/-- The entry of a binding. -/
def boundCode (head : Head) (b : Binding) : String :=
  attributeCode (if b.isComputed then b.name else literal b.name) (head.valueCode b)

theorem valueCode_injective (head : Head) (b : Binding) {x y : String}
    (h : head.valueCode (b.withExpression x) = head.valueCode (b.withExpression y)) : x = y := by
  have hfixed : ∀ z, head.fixedBefore (b.withExpression z) = head.fixedBefore b := fun _ => rfl
  rw [valueCode, valueCode, hfixed, hfixed] at h
  cases hcase : head.fixedBefore b with
  | none =>
    rw [hcase] at h
    exact h
  | some fixed =>
    rw [hcase] at h
    exact (String.append_right_inj _).1 ((String.append_left_inj _).1 h)

theorem boundCode_injective (head : Head) (b : Binding) {x y : String}
    (h : head.boundCode (b.withExpression x) = head.boundCode (b.withExpression y)) : x = y := by
  have hvalue := (String.append_left_inj _).1 h
  exact head.valueCode_injective b ((String.append_right_inj _).1 hvalue)

/-! ### A list of bindings around one of them -/

section

variable {p : Binding → Bool} {before after : List Binding} {b : Binding}

theorem find?_around_of_hidden (h : p b = false ∨ ∃ c ∈ before, p c = true) :
    (before ++ b :: after).find? p = (before ++ after).find? p := by
  rw [List.find?_append, List.find?_append]
  rcases h with hb | ⟨c, hc, hpc⟩
  · rw [List.find?_cons_of_neg (by simp [hb])]
  · obtain ⟨d, hd⟩ := Option.isSome_iff_exists.1 (List.find?_isSome.2 ⟨c, hc, hpc⟩)
    rw [hd]
    rfl

theorem find?_around_of_first (hb : p b = true) (h : ∀ c ∈ before, p c = false) :
    (before ++ b :: after).find? p = some b := by
  rw [List.find?_append, List.find?_eq_none.2 fun c hc => by simp [h c hc],
    List.find?_cons_of_pos hb]
  rfl

end

/-! ### The attribute list around a binding -/

/-- The head with another list of bindings. -/
def withBindings (head : Head) (bindings : List Binding) : Head :=
  { head with bindings := bindings }

section

variable (head : Head)

def classCodes (bindings : List Binding) : List String :=
  mergedCode "class" head.fixedClass (bindings.find? (Binding.isFor "class")) " "

def styleCodes (bindings : List Binding) : List String :=
  mergedCode "style" head.fixedStyle (bindings.find? (Binding.isFor "style")) ""

def plainCodes : List String :=
  head.plain.map fun (name, value) => attributeCode (literal name) (literal value)

theorem attributeCodes_withBindings (bindings : List Binding) :
    (head.withBindings bindings).attributeCodes =
      head.classCodes bindings ++ head.styleCodes bindings ++ head.plainCodes ++
        bindings.flatMap Binding.codes :=
  rfl

theorem mergedCode_class {b : Binding} (h : b.isFor "class" = true) :
    mergedCode "class" head.fixedClass (some b) " " = [head.boundCode b] := by
  obtain ⟨hcomputed, hname⟩ := Binding.isFor_iff.1 h
  rw [boundCode, valueCode, fixedBefore, if_pos h, hcomputed, hname]
  cases head.fixedClass <;> rfl

theorem mergedCode_style {b : Binding} (h : b.isFor "style" = true) :
    mergedCode "style" head.fixedStyle (some b) "" = [head.boundCode b] := by
  obtain ⟨hcomputed, hname⟩ := Binding.isFor_iff.1 h
  have hclass : ¬ b.isFor "class" = true := by simp [Binding.isFor, hname]
  rw [boundCode, valueCode, fixedBefore, if_neg hclass, if_pos h, hcomputed, hname]
  cases head.fixedStyle with
  | none => rfl
  | some fixed => rw [mergedCode, String.append_empty]; rfl

theorem codes_of_own {b : Binding} (hclass : b.isFor "class" = false)
    (hstyle : b.isFor "style" = false) : b.codes = [head.boundCode b] := by
  have hvalue : head.valueCode b = b.expression := by
    rw [valueCode, fixedBefore, hclass, hstyle]
    rfl
  rw [boundCode, hvalue, Binding.codes]
  cases hcomputed : b.isComputed with
  | true => rfl
  | false =>
    have hname : ¬ (b.name == "class" || b.name == "style") = true := by
      simpa [Binding.isFor, hcomputed] using And.intro hclass hstyle
    rw [if_neg hname]
    rfl

variable {before after : List Binding} {b : Binding}

theorem classCodes_of_hidden (h : b.isFor "class" = false ∨ ∃ c ∈ before, c.isFor "class" = true) :
    head.classCodes (before ++ b :: after) = head.classCodes (before ++ after) := by
  rw [classCodes, find?_around_of_hidden h, classCodes]

theorem styleCodes_of_hidden (h : b.isFor "style" = false ∨ ∃ c ∈ before, c.isFor "style" = true) :
    head.styleCodes (before ++ b :: after) = head.styleCodes (before ++ after) := by
  rw [styleCodes, find?_around_of_hidden h, styleCodes]

/-- The first class binding has its entry at the front. -/
theorem attributeCodes_of_class (hb : b.isFor "class" = true)
    (hfirst : ∀ c ∈ before, c.isFor "class" = false) :
    (head.withBindings (before ++ b :: after)).attributeCodes =
      [] ++ head.boundCode b :: (head.styleCodes (before ++ after) ++ head.plainCodes ++
        (before ++ after).flatMap Binding.codes) := by
  have hstyle : b.isFor "style" = false := Binding.isFor_of_ne hb (by decide)
  rw [attributeCodes_withBindings, classCodes, find?_around_of_first hb hfirst,
    head.mergedCode_class hb, head.styleCodes_of_hidden (.inl hstyle), List.flatMap_append,
    List.flatMap_cons, Binding.codes_of_isFor (by simp) hb, List.flatMap_append]
  rfl

/-- The first style binding has its entry behind that of the class. -/
theorem attributeCodes_of_style (hb : b.isFor "style" = true)
    (hfirst : ∀ c ∈ before, c.isFor "style" = false) :
    (head.withBindings (before ++ b :: after)).attributeCodes =
      head.classCodes (before ++ after) ++ head.boundCode b :: (head.plainCodes ++
        (before ++ after).flatMap Binding.codes) := by
  have hclass : b.isFor "class" = false := Binding.isFor_of_ne hb (by decide)
  rw [attributeCodes_withBindings, styleCodes, find?_around_of_first hb hfirst,
    head.mergedCode_style hb, head.classCodes_of_hidden (.inl hclass), List.flatMap_append,
    List.flatMap_cons, Binding.codes_of_isFor (by simp) hb, List.flatMap_append]
  simp only [List.append_assoc, List.cons_append, List.nil_append]

/-- Every other binding has its entry among those of the others. -/
theorem attributeCodes_of_own (hclass : b.isFor "class" = false)
    (hstyle : b.isFor "style" = false) :
    (head.withBindings (before ++ b :: after)).attributeCodes =
      (head.classCodes (before ++ after) ++ head.styleCodes (before ++ after) ++ head.plainCodes ++
        before.flatMap Binding.codes) ++ head.boundCode b :: after.flatMap Binding.codes := by
  rw [attributeCodes_withBindings, head.classCodes_of_hidden (.inl hclass),
    head.styleCodes_of_hidden (.inl hstyle), List.flatMap_append, List.flatMap_cons,
    head.codes_of_own hclass hstyle]
  simp only [List.append_assoc, List.cons_append, List.nil_append]

/-- A binding that is not shadowed has an entry among others that do not depend on it. -/
theorem exists_entry (after : List Binding)
    (h : ∀ name ∈ ["class", "style"], b.isFor name = true → ∀ c ∈ before, c.isFor name = false) :
    ∃ front rest, ∀ x, (head.withBindings (before ++ b.withExpression x :: after)).attributeCodes =
      front ++ head.boundCode (b.withExpression x) :: rest := by
  cases hclass : b.isFor "class" with
  | true =>
    have hfirst := h _ (by simp) hclass
    exact ⟨_, _, fun x => head.attributeCodes_of_class (b := b.withExpression x) hclass hfirst⟩
  | false =>
    cases hstyle : b.isFor "style" with
    | true =>
      have hfirst := h _ (by simp) hstyle
      exact ⟨_, _, fun x => head.attributeCodes_of_style (b := b.withExpression x) hstyle hfirst⟩
    | false =>
      exact ⟨_, _, fun x => head.attributeCodes_of_own (b := b.withExpression x) hclass hstyle⟩

/-- A shadowed binding has none. -/
theorem attributeCodes_of_shadowed {name : String} (hname : name ∈ ["class", "style"])
    (hb : b.isFor name = true) (h : ∃ c ∈ before, c.isFor name = true) (x : String) :
    (head.withBindings (before ++ b.withExpression x :: after)).attributeCodes =
      (head.withBindings (before ++ b :: after)).attributeCodes := by
  have hfound : ∀ other, (before ++ b.withExpression x :: after).find? (Binding.isFor other) =
      (before ++ b :: after).find? (Binding.isFor other) := by
    intro other
    have hhidden : b.isFor other = false ∨ ∃ c ∈ before, c.isFor other = true := by
      by_cases heq : other = name
      · exact .inr (heq ▸ h)
      · exact .inl (Binding.isFor_of_ne hb heq)
    rw [find?_around_of_hidden (b := b.withExpression x) hhidden, find?_around_of_hidden hhidden]
  have hcodes : ∀ y, (b.withExpression y).codes = [] :=
    fun y => Binding.codes_of_isFor (b := b.withExpression y) hname hb
  rw [attributeCodes_withBindings, attributeCodes_withBindings, classCodes, classCodes, styleCodes,
    styleCodes, hfound, hfound, List.flatMap_append, List.flatMap_append, List.flatMap_cons,
    List.flatMap_cons, hcodes x, Binding.codes_of_isFor hname hb]

end

/-! ### What a binding feeds -/

theorem getElem?_middle {α : Type} (front : List α) (a : α) (rest : List α) :
    (front ++ a :: rest)[front.length]? = some a := by
  rw [List.getElem?_append_right (Nat.le_refl _), Nat.sub_self, List.getElem?_cons_zero]

theorem getElem?_around {α : Type} {front rest : List α} {a c : α} {k : Nat}
    (h : k ≠ front.length) : (front ++ a :: rest)[k]? = (front ++ c :: rest)[k]? := by
  rcases Nat.lt_or_gt_of_ne h with hlt | hgt
  · rw [List.getElem?_append_left hlt, List.getElem?_append_left hlt]
  · obtain ⟨m, hm⟩ := Nat.exists_eq_add_of_lt hgt
    rw [List.getElem?_append_right (by omega), List.getElem?_append_right (by omega),
      show k - front.length = m + 1 by omega, List.getElem?_cons_succ, List.getElem?_cons_succ]

section

variable {head : Head} {i : Nat} {b : Binding}

theorem withExpression_eq (hb : head.bindings[i]? = some b) (x : String) :
    head.withExpression i x = head.withBindings
      (head.bindings.take i ++ b.withExpression x :: head.bindings.drop (i + 1)) := by
  obtain ⟨hi, hget⟩ := List.getElem?_eq_some_iff.1 hb
  rw [withExpression, List.modify_eq_take_cons_drop hi, hget, withBindings]

theorem withBindings_self (hb : head.bindings[i]? = some b) :
    head.withBindings (head.bindings.take i ++ b :: head.bindings.drop (i + 1)) = head := by
  obtain ⟨hi, hget⟩ := List.getElem?_eq_some_iff.1 hb
  rw [withBindings, ← hget, List.getElem_cons_drop, List.take_append_drop]

theorem not_feeds_of_shadowed (h : head.Shadowed i) (k : Nat) : ¬ head.Feeds i k := by
  obtain ⟨name, hname, ⟨b, hb, hfor⟩, hbefore⟩ := h
  rintro ⟨x, hx⟩
  rw [withExpression_eq hb, head.attributeCodes_of_shadowed hname hfor hbefore,
    withBindings_self hb] at hx
  exact hx rfl

/-- A binding that is not shadowed feeds one entry, which is its own. -/
theorem exists_feeds_iff (hb : head.bindings[i]? = some b) (h : ¬ head.Shadowed i) :
    ∃ n, head.attributeCodes[n]? = some (head.boundCode b) ∧ ∀ k, head.Feeds i k ↔ k = n := by
  have hfirst : ∀ name ∈ ["class", "style"], b.isFor name = true →
      ∀ c ∈ head.bindings.take i, c.isFor name = false := by
    intro name hname hfor c hc
    by_contra hcfor
    exact h ⟨name, hname, ⟨b, hb, hfor⟩, c, hc, by simpa using hcfor⟩
  obtain ⟨front, rest, hentry⟩ := head.exists_entry (head.bindings.drop (i + 1)) hfirst
  have hcodes : ∀ x, (head.withExpression i x).attributeCodes =
      front ++ head.boundCode (b.withExpression x) :: rest := by
    intro x
    rw [withExpression_eq hb]
    exact hentry x
  have hself : head.attributeCodes = front ++ head.boundCode b :: rest := by
    have hown := hentry b.expression
    rwa [show b.withExpression b.expression = b from rfl, withBindings_self hb] at hown
  refine ⟨front.length, by rw [hself, getElem?_middle], fun k => ⟨?_, ?_⟩⟩
  · rintro ⟨x, hx⟩
    by_contra hk
    rw [hcodes, hself] at hx
    exact hx (getElem?_around hk)
  · -- any other expression makes another entry
    rintro rfl
    refine ⟨b.expression ++ "x", ?_⟩
    rw [hcodes, hself, getElem?_middle, getElem?_middle]
    intro heq
    have hsame := head.boundCode_injective b (y := b.expression) (Option.some.inj heq)
    simp at hsame

/-- Exactly the bindings that are not shadowed feed one entry. -/
theorem existsUnique_feeds_iff (hb : head.bindings[i]? = some b) :
    (∃! k, head.Feeds i k) ↔ ¬ head.Shadowed i := by
  constructor
  · rintro ⟨k, hk, -⟩ h
    exact not_feeds_of_shadowed h k hk
  · intro h
    obtain ⟨n, -, hfeeds⟩ := exists_feeds_iff hb h
    exact ⟨n, (hfeeds n).2 rfl, fun k hk => (hfeeds k).1 hk⟩

theorem getElem?_of_feeds (hb : head.bindings[i]? = some b) {k : Nat} (h : head.Feeds i k) :
    head.attributeCodes[k]? = some (head.boundCode b) := by
  have hshown : ¬ head.Shadowed i := fun hshadowed => not_feeds_of_shadowed hshadowed k h
  obtain ⟨n, hentry, hfeeds⟩ := exists_feeds_iff hb hshown
  rwa [(hfeeds k).1 h]

end

end Head

/-! ### Where the attribute list stands -/

/-- Some piece of the code holds the text. -/
def Code.Holds (code : Code) (text : String) : Prop :=
  ∃ piece ∈ code.main :: code.statics, text.toList <:+: piece.toList

theorem infix_intercalate {separator item : List Char} {items : List (List Char)}
    (h : item ∈ items) : item <:+: separator.intercalate items := by
  induction items with
  | nil => cases h
  | cons first more ih =>
    cases more with
    | nil =>
      simp [List.mem_singleton.1 h]
    | cons second more =>
      rw [List.intercalate_cons_cons]
      rcases List.mem_cons.1 h with rfl | h
      · rw [List.append_assoc]
        exact (List.prefix_append _ _).isInfix
      · exact (ih h).trans (List.suffix_append _ _).isInfix

theorem infix_bracketedList {code : String} {codes : List String} (h : code ∈ codes) :
    code.toList <:+: (bracketedList codes).toList := by
  rw [bracketedList, commaSeparated, String.toList_append, String.toList_append,
    String.toList_intercalate]
  exact (infix_intercalate (List.mem_map_of_mem h)).trans (List.infix_append _ _ _)

theorem Head.infix_code (head : Head) (children : String) :
    children.toList <:+: (head.code (some children)).toList := by
  simp only [code, String.toList_append]
  exact (List.suffix_append _ _).isInfix.trans (List.infix_append _ _ _)

theorem infix_conditionCode (condition code : String) :
    code.toList <:+: (conditionCode condition code).toList := by
  rw [conditionCode, String.toList_append]
  exact (String.toList_append ▸ (List.suffix_append _ _).isInfix).trans
    (List.prefix_append _ _).isInfix

theorem Head.holds_wrap {head : Head} {first : Nat} {body : Code} {text : String}
    (h : body.Holds text) : (head.wrap first body).Holds text := by
  obtain ⟨piece, hpiece, htext⟩ := h
  unfold wrap
  split
  · refine ⟨piece, List.mem_cons_of_mem _ ?_, htext⟩
    rcases List.mem_cons.1 hpiece with rfl | hpiece
    · exact List.mem_append_right _ List.mem_cons_self
    · exact List.mem_append_left _ hpiece
  · split
    · rcases List.mem_cons.1 hpiece with rfl | hpiece
      · exact ⟨_, List.mem_cons_self, htext.trans (infix_conditionCode _ _)⟩
      · exact ⟨piece, List.mem_cons_of_mem _ hpiece, htext⟩
    · exact ⟨piece, hpiece, htext⟩

theorem exists_code_of_mem (directives : OrderedMap ChildrenCode) {nodes : List Node} {n : Node}
    (hn : n ∈ nodes) (first : Nat) :
    ∃ index, (n.code directives index).main ∈ (codeAll directives first nodes).1 ∧
      (n.code directives index).statics ⊆ (codeAll directives first nodes).2 := by
  induction nodes generalizing first with
  | nil => cases hn
  | cons m nodes ih =>
    rw [codeAll]
    rcases List.mem_cons.1 hn with rfl | hn
    · exact ⟨first, List.mem_cons_self, List.subset_append_left _ _⟩
    · obtain ⟨index, hmain, hstatics⟩ := ih hn (first + (m.code directives first).statics.length)
      exact ⟨index, List.mem_cons_of_mem _ hmain, List.subset_append_of_subset_right _ hstatics⟩

/-- What the code of a child holds stands in the call for its parent. -/
theorem Head.holds_children {head : Head} {child : Code} {codes statics : List String}
    (hmain : child.main ∈ codes) (hstatics : child.statics ⊆ statics) {text : String}
    (h : child.Holds text) :
    (Code.mk (head.code (some (bracketedList codes))) statics).Holds text := by
  obtain ⟨piece, hpiece, htext⟩ := h
  rcases List.mem_cons.1 hpiece with rfl | hpiece
  · exact ⟨_, List.mem_cons_self,
      (htext.trans (infix_bracketedList hmain)).trans (head.infix_code _)⟩
  · exact ⟨piece, List.mem_cons_of_mem _ (hstatics hpiece), htext⟩

/-- The call for every element for which there is code stands in the code. -/
theorem Node.holds_call {n : Node} {e : Element} (he : e.toNode ∈ n.generated) (first : Nat) :
    ∃ children, (n.code Options.web.directives first).Holds (e.head.code children) := by
  induction n using Node.induction generalizing first with
  | text run => cases List.mem_singleton.1 he
  | comment content span => cases List.mem_singleton.1 he
  | element head children ih =>
    have hself : ∀ main statics, ∃ given, (head.wrap first ⟨head.code main, statics⟩).Holds
        (head.code given) := fun main statics =>
      ⟨main, Head.holds_wrap ⟨_, List.mem_cons_self, List.infix_rfl⟩⟩
    rw [generated] at he
    rw [code, head.directiveChildren?_web]
    rcases List.mem_cons.1 he with heq | he
    · cases heq
      cases e.head.supplier? with
      | some d => exact hself _ _
      | none =>
        simp only [Option.map_none]
        split <;> exact hself _ _
    · split at he
      · next hkeeps =>
        obtain ⟨hsupplier, hunary⟩ : head.supplier? = none ∧ head.unary = false := by
          simpa [Head.keepsChildren] using hkeeps
        rw [generatedAll_eq] at he
        obtain ⟨m, hm, he⟩ := List.mem_flatMap.1 he
        obtain ⟨index, hmain, hstatics⟩ :=
          exists_code_of_mem Options.web.directives hm first
        obtain ⟨given, hgiven⟩ := ih m hm he index
        rw [hsupplier, hunary]
        exact ⟨given, Head.holds_wrap (Head.holds_children hmain hstatics hgiven)⟩
      · cases he

/-- Every binding of every element feeds exactly one entry of the attribute list, unless it is
shadowed; then it feeds none. The entry holds the name and the expression of the binding, and the
attribute list of every element for which there is code stands in the code. -/
theorem binding_feeds_one_iff (template : String) :
    ∀ root ∈ (Compiler.web.compile {} template).tree, ∀ e ∈ root.toNode.elements,
      (∀ i b, e.head.bindings[i]? = some b →
        ((∃! k, e.head.Feeds i k) ↔ ¬ e.head.Shadowed i) ∧
        (e.head.Shadowed i → ∀ k, ¬ e.head.Feeds i k) ∧
        ∀ k, e.head.Feeds i k → e.head.attributeCodes[k]? = some (e.head.boundCode b)) ∧
      (e.toNode ∈ root.toNode.generated →
        ∃ children, (Compiler.web.compile {} template).code.Holds (e.head.code children)) := by
  intro root hroot e _
  refine ⟨fun i b hb => ⟨Head.existsUnique_feeds_iff hb, Head.not_feeds_of_shadowed,
    fun k hk => Head.getElem?_of_feeds hb hk⟩, fun hgenerated => ?_⟩
  have hcode := compile_code (v := {}) rfl template
  rw [compile_tree] at hroot
  obtain ⟨grown, hgrown, rfl⟩ := Option.map_eq_some_iff.1 hroot
  rw [hgrown] at hcode
  rw [hcode]
  exact Node.holds_call hgenerated 0

/-- Bindings of all kinds, two of them for one attribute. -/
def sampleBindings : String :=
  "<div class=\"box\" :class=\"c\" :style.x=\"t\" :[n]=\"v\" :id=\"i\" v-bind:id=\"j\"></div>"

theorem binding_feeds_one_sample :
    let compiled := Compiler.web.compile {} sampleBindings
    ∃ root ∈ compiled.tree, root.head.bindings.map Binding.expression = ["c", "t", "v", "i", "j"] ∧
      (∀ i < 5, ∃! k, root.head.Feeds i k) ∧
      ∃ children, compiled.code.Holds (root.head.code children) := by
  intro compiled
  obtain ⟨root, hroot, hexpressions, hshown⟩ : ∃ root ∈ compiled.tree,
      root.head.bindings.map Binding.expression = ["c", "t", "v", "i", "j"] ∧
        ∀ i < 5, ¬ root.head.Shadowed i := by
    decide +kernel
  have hlength : root.head.bindings.length = 5 := by
    simpa using congrArg List.length hexpressions
  obtain ⟨hfeeds, hcall⟩ := binding_feeds_one_iff sampleBindings root hroot root List.mem_cons_self
  refine ⟨root, hroot, hexpressions, fun i hi => ?_, hcall List.mem_cons_self⟩
  have hb := List.getElem?_eq_getElem (hlength ▸ hi : i < root.head.bindings.length)
  exact (hfeeds i _ hb).1.2 (hshown i hi)

/-- The second of two class bindings is lost where they are spelled differently, and nothing is
reported. -/
theorem class_binding_lost :
    let compiled := Compiler.web.compile {} "<div :class=\"a\" v-bind:class=\"b\"></div>"
    compiled.errors = [] ∧ compiled.tips = [] ∧
      compiled.code = ⟨"_c(\"div\",[_a(\"class\",a)],[])", []⟩ ∧
      ∃ root ∈ compiled.tree, root.head.bindings.map Binding.expression = ["a", "b"] ∧
        ∀ k, ¬ root.head.Feeds 1 k := by
  intro compiled
  obtain ⟨herrors, htips, hcode, root, hroot, hexpressions, hshadowed⟩ : compiled.errors = [] ∧
      compiled.tips = [] ∧ compiled.code = ⟨"_c(\"div\",[_a(\"class\",a)],[])", []⟩ ∧
      ∃ root ∈ compiled.tree, root.head.bindings.map Binding.expression = ["a", "b"] ∧
        root.head.Shadowed 1 := by
    decide +kernel
  exact ⟨herrors, htips, hcode, root, hroot, hexpressions, Head.not_feeds_of_shadowed hshadowed⟩

end HtmlTemplate.Template
