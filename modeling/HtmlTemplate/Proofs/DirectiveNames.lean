import HtmlTemplate.Template.Sorting
import Mathlib.Data.List.TakeWhile

/-!
# The names of directives

The name of a directive is written out of parts: `v-` and a name with an argument behind `:`, or one
of the two signs `@` and `#` with the argument right behind it, and then the modifiers, each behind
a `.`. Reading such a name gives back its parts (`ofAttribute_written`). An argument in brackets may
hold dots and colons, since modifiers are looked for behind the last `]` only and the name stops at
the first `:`.
-/

namespace HtmlTemplate.Text

variable {separator : Char} {s : List Char}

/-! ### Fields of a text that is put together -/

theorem fieldsFrom_append_cons (h : separator ∉ s) (begun rest : List Char) :
    fieldsFrom separator begun (s ++ separator :: rest) =
      (begun.reverse ++ s) :: fields separator rest := by
  induction s generalizing begun with
  | nil => simp [fieldsFrom, fields]
  | cons c s ih =>
    obtain ⟨hc, hs⟩ := not_or.1 (mt List.mem_cons.2 h)
    simp [fieldsFrom, Ne.symm hc, ih hs]

theorem fieldsFrom_of_not_mem (h : separator ∉ s) (begun : List Char) :
    fieldsFrom separator begun s = [begun.reverse ++ s] := by
  induction s generalizing begun with
  | nil => simp [fieldsFrom]
  | cons c s ih =>
    obtain ⟨hc, hs⟩ := not_or.1 (mt List.mem_cons.2 h)
    simp [fieldsFrom, Ne.symm hc, ih hs]

theorem fields_append_cons (h : separator ∉ s) (rest : List Char) :
    fields separator (s ++ separator :: rest) = s :: fields separator rest :=
  fieldsFrom_append_cons h [] rest

theorem fields_of_not_mem (h : separator ∉ s) : fields separator s = [s] :=
  fieldsFrom_of_not_mem h []

/-- Fields that are each put behind a separator come back, with what stands before them. -/
theorem fields_append_flatMap (h : separator ∉ s) {more : List (List Char)}
    (hmore : ∀ m ∈ more, separator ∉ m) :
    fields separator (s ++ more.flatMap fun m => separator :: m) = s :: more := by
  induction more generalizing s with
  | nil => simpa using fields_of_not_mem h
  | cons m more ih =>
    rw [List.flatMap_cons, List.cons_append, fields_append_cons h,
      ih (hmore m List.mem_cons_self) fun m' hm' => hmore m' (List.mem_cons_of_mem _ hm')]

private theorem forall_bne_of_not_mem (h : separator ∉ s) :
    ∀ c ∈ s, (c != separator) = true :=
  fun _ hc => bne_iff_ne.2 fun he => h (he ▸ hc)

theorem splitOnce?_append_cons (h : separator ∉ s) (rest : List Char) :
    splitOnce? separator (s ++ separator :: rest) = some (s, rest) := by
  have hs := forall_bne_of_not_mem h
  simp [splitOnce?, List.dropWhile_append_of_pos hs, List.takeWhile_append_of_pos hs]

theorem splitOnce?_of_not_mem (h : separator ∉ s) : splitOnce? separator s = none := by
  rw [splitOnce?, List.dropWhile_eq_nil_iff.2 (forall_bne_of_not_mem h)]

end HtmlTemplate.Text

namespace HtmlTemplate.Template

open Text Markup

/-! ### Modifiers -/

/-- Nothing, or a text that stops with the sign after which modifiers are looked for. -/
def IsBracketEnd (front : List Char) : Prop := front = [] ∨ ∃ s, front = s ++ [']']

variable {front back : List Char} {modifiers : List (List Char)}

theorem splitAtBracket_of_isBracketEnd (hfront : IsBracketEnd front) (hback : ']' ∉ back) :
    splitAtBracket (front ++ back) = (front, back) := by
  have htail : ((front ++ back).reverse.takeWhile (· != ']')).reverse = back := by
    have hpos : ∀ c ∈ back.reverse, (c != ']') = true := fun c hc =>
      bne_iff_ne.2 fun he => hback (he ▸ List.mem_reverse.1 hc)
    rw [List.reverse_append, List.takeWhile_append_of_pos hpos]
    obtain rfl | ⟨s, rfl⟩ := hfront <;> simp
  rw [splitAtBracket, htail]
  simp

/-- The part of a name with its modifiers, each behind a `.`. -/
def modifiersSource (modifiers : List (List Char)) : List Char :=
  modifiers.flatMap fun m => '.' :: m

theorem not_mem_modifiersSource (h : ∀ m ∈ modifiers, ']' ∉ m) :
    ']' ∉ modifiersSource modifiers := by
  simpa [modifiersSource] using h

theorem withoutModifiers_append (hfront : IsBracketEnd front) (hback : ']' ∉ back ∧ '.' ∉ back)
    (hmodifiers : ∀ m ∈ modifiers, ']' ∉ m) :
    withoutModifiers (front ++ back ++ modifiersSource modifiers) = front ++ back := by
  have htail : ']' ∉ back ++ modifiersSource modifiers :=
    List.not_mem_append hback.1 (not_mem_modifiersSource hmodifiers)
  have hpos : ∀ c ∈ back, (c != '.') = true := fun c hc => bne_iff_ne.2 fun he => hback.2 (he ▸ hc)
  have hdrop : (back ++ modifiersSource modifiers).takeWhile (· != '.') = back := by
    rw [List.takeWhile_append_of_pos hpos]
    cases modifiers <;> simp [modifiersSource]
  rw [withoutModifiers, List.append_assoc, splitAtBracket_of_isBracketEnd hfront htail]
  exact congrArg (front ++ ·) hdrop

theorem modifierNames_append (hfront : IsBracketEnd front) (hback : ']' ∉ back ∧ '.' ∉ back)
    (hmodifiers : ∀ m ∈ modifiers, m ≠ [] ∧ '.' ∉ m ∧ ']' ∉ m) :
    modifierNames (front ++ back ++ modifiersSource modifiers) = modifiers := by
  have htail : ']' ∉ back ++ modifiersSource modifiers :=
    List.not_mem_append hback.1 (not_mem_modifiersSource fun m hm => (hmodifiers m hm).2.2)
  rw [modifierNames, List.append_assoc, splitAtBracket_of_isBracketEnd hfront htail,
    modifiersSource, fields_append_flatMap hback.2 fun m hm => (hmodifiers m hm).2.1,
    List.drop_one, List.tail_cons]
  exact List.filter_eq_self.2 fun m hm => by simpa using (hmodifiers m hm).1

/-! ### Names that are put together -/

/-- What the argument of a directive is written as: a text on its own, or one in brackets that may
hold any character but the `]` that ends it. -/
inductive WrittenArgument where
  | plain (text : { s : List Char // s ≠ [] ∧ '.' ∉ s ∧ ']' ∉ s })
  | bracketed (inner : { s : List Char // ']' ∉ s })

namespace WrittenArgument

def source : WrittenArgument → List Char
  | plain text => text.val
  | bracketed inner => '[' :: inner.val ++ [']']

theorem source_ne_nil (a : WrittenArgument) : a.source ≠ [] := by
  cases a with
  | plain text => exact text.property.1
  | bracketed inner => exact List.cons_ne_nil _ _

end WrittenArgument

/-- How a directive is named: in full, behind `v-`, or by one of the two signs. -/
inductive DirectiveSign where
  | full (name : { s : List Char // s ≠ [] ∧ '.' ∉ s ∧ ':' ∉ s ∧ ']' ∉ s })
  | on
  | slot

/-- The name of a directive by its parts. -/
structure WrittenDirective where
  sign : DirectiveSign
  argument : Option WrittenArgument
  modifiers : List { s : List Char // s ≠ [] ∧ '.' ∉ s ∧ ']' ∉ s }

namespace WrittenDirective

def name (d : WrittenDirective) : List Char :=
  match d.sign with
  | .full name => name.val
  | .on => ['o', 'n']
  | .slot => ['s', 'l', 'o', 't']

/-- What stands before the argument. Only a name in full is kept apart from it by a `:`. -/
def opening (d : WrittenDirective) : List Char :=
  match d.sign with
  | .full name => 'v' :: '-' :: name.val ++ if d.argument.isSome then [':'] else []
  | .on => ['@']
  | .slot => ['#']

def argumentSource (d : WrittenDirective) : List Char := d.argument.elim [] (·.source)

/-- The name without its modifiers. -/
def base (d : WrittenDirective) : List Char := d.opening ++ d.argumentSource

def modifierTexts (d : WrittenDirective) : List (List Char) := d.modifiers.map (·.val)

def source (d : WrittenDirective) : List Char := d.base ++ modifiersSource d.modifierTexts

variable (d : WrittenDirective)

theorem modifierTexts_of_mem {m : List Char} (h : m ∈ d.modifierTexts) :
    m ≠ [] ∧ '.' ∉ m ∧ ']' ∉ m := by
  obtain ⟨⟨_, hm⟩, _, rfl⟩ := List.mem_map.1 h
  exact hm

theorem not_mem_opening : ']' ∉ d.opening ∧ '.' ∉ d.opening := by
  obtain ⟨sign, argument, modifiers⟩ := d
  cases sign with
  | full name =>
    obtain ⟨name, -, hdot, -, hbracket⟩ := name
    cases argument <;> simp [opening, hdot, hbracket]
  | on => simp [opening]
  | slot => simp [opening]

/-- Behind the last `]` of a name without its modifiers there is no `.`. -/
theorem base_split : ∃ front back, d.base = front ++ back ∧ IsBracketEnd front ∧
    (']' ∉ back ∧ '.' ∉ back) := by
  obtain ⟨hbracket, hdot⟩ := d.not_mem_opening
  match h : d.argument with
  | none => exact ⟨[], d.opening, by simp [base, argumentSource, h], .inl rfl, hbracket, hdot⟩
  | some (.plain ⟨text, _, htext⟩) =>
    refine ⟨[], d.opening ++ text, ?_, .inl rfl, List.not_mem_append hbracket htext.2,
      List.not_mem_append hdot htext.1⟩
    simp [base, argumentSource, h, WrittenArgument.source]
  | some (.bracketed inner) =>
    refine ⟨d.opening ++ '[' :: inner.val ++ [']'], [], ?_, .inr ⟨_, rfl⟩, by simp⟩
    simp [base, argumentSource, h, WrittenArgument.source]

theorem withoutModifiers_source : withoutModifiers d.source = d.base := by
  obtain ⟨front, back, hbase, hfront, hback⟩ := d.base_split
  rw [source, hbase,
    withoutModifiers_append hfront hback fun m hm => (d.modifierTexts_of_mem hm).2.2]

theorem modifierNames_source : modifierNames d.source = d.modifierTexts := by
  obtain ⟨front, back, hbase, hfront, hback⟩ := d.base_split
  rw [source, hbase, modifierNames_append hfront hback fun m hm => d.modifierTexts_of_mem hm]

/-- The parts of a name without modifiers. The argument of a sign is there even if it is empty. -/
theorem directiveParts_base : ∃ argument, directiveParts d.base = (d.name, argument) ∧
    (argument.filter fun s => !s.isEmpty) = d.argument.map (·.source) := by
  obtain ⟨sign, argument, modifiers⟩ := d
  cases sign with
  | full name =>
    obtain ⟨name, -, -, hcolon, -⟩ := name
    cases argument with
    | none =>
      refine ⟨none, ?_, rfl⟩
      simp [base, opening, argumentSource, directiveParts, splitOnce?_of_not_mem hcolon,
        WrittenDirective.name]
    | some a =>
      refine ⟨some a.source, ?_, by simpa using a.source_ne_nil⟩
      simp [base, opening, argumentSource, directiveParts, splitOnce?_append_cons hcolon,
        WrittenDirective.name]
  | on => cases argument with
    | none => exact ⟨some [], rfl, rfl⟩
    | some a => exact ⟨some a.source, rfl, by simpa using a.source_ne_nil⟩
  | slot => cases argument with
    | none => exact ⟨some [], rfl, rfl⟩
    | some a => exact ⟨some a.source, rfl, by simpa using a.source_ne_nil⟩

end WrittenDirective

/-- Reading the name of a directive gives back the parts it was put together from. -/
theorem ofAttribute_written (d : WrittenDirective) (value : String) (span : Option Span) :
    Directive.ofAttribute ⟨String.ofList d.source, value, span⟩ =
      { name := String.ofList d.name
        written := String.ofList d.source
        argument := d.argument.map fun a => String.ofList a.source
        modifiers := d.modifiers.map fun m => String.ofList m.val
        value := trim value
        span := span } := by
  obtain ⟨argument, hparts, hargument⟩ := d.directiveParts_base
  simp only [Directive.ofAttribute, String.toList_ofList, d.withoutModifiers_source, hparts,
    hargument, d.modifierNames_source, WrittenDirective.modifierTexts, List.map_map,
    Option.map_map, Function.comp_def]

end HtmlTemplate.Template
