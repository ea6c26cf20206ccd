import HtmlTemplate.Proofs.Constructs
import HtmlTemplate.Proofs.Scan.Bytes

/-!
# The ways to write a start tag

The grammar of start tags with plain names of attributes. A value stands between two quotes of one
kind or on its own, or there is none; blanks stand where the grammar has them (`WrittenTag`). Every
tag of the grammar is read as it was written, whatever follows (`readStartTag?_written`). What one
attribute is read as depends on what comes next: on its own a value ends before a blank or `>`, but
not before `/`, and behind a name without a value no `=` may come.
-/

namespace HtmlTemplate.Markup

open Text

/-! ### The grammar -/

/-- A blank of ASCII. Among the other blanks there is one that may be part of a name, `\u1680`. -/
def isSpace (c : Char) : Bool := isBlank c && c.toNat < 128

theorem isBlank_of_isSpace {c : Char} (h : isSpace c = true) : isBlank c = true :=
  (Bool.and_eq_true_iff.1 h).1

theorem isNamePart_eq_false_of_isSpace {c : Char} (h : isSpace c = true) : isNamePart c = false := by
  obtain ⟨hblank, hascii⟩ := Bool.and_eq_true_iff.1 h
  exact forall_ascii (P := fun c => isBlank c = true → isNamePart c = false) (by decide) c
    (of_decide_eq_true hascii) hblank

/-- Any number of blanks of ASCII. -/
abbrev Blanks := { s : List Char // ∀ c ∈ s, isSpace c = true }

/-- A value as it may be assigned to an attribute, with the blanks around the sign. -/
inductive WrittenValue where
  | absent
  | quoted (before after : Blanks) (mark : { c : Char // isQuote c = true })
      (text : { s : List Char // mark.val ∉ s })
  | bare (before after : Blanks)
      (text : { s : List Char // s ≠ [] ∧ ∀ c ∈ s, isBareValuePart c = true })

namespace WrittenValue

def source : WrittenValue → List Char
  | absent => []
  | quoted before after mark text =>
    before.val ++ '=' :: after.val ++ (mark.val :: text.val ++ [mark.val])
  | bare before after text => before.val ++ '=' :: after.val ++ text.val

def text? : WrittenValue → Option (List Char)
  | absent => none
  | quoted _ _ _ text => some text.val
  | bare _ _ text => some text.val

def isBare : WrittenValue → Bool
  | absent => false
  | quoted .. => false
  | bare .. => true

end WrittenValue

/-- An attribute behind one blank or more. -/
structure WrittenAttribute where
  gap : { s : List Char // s ≠ [] ∧ ∀ c ∈ s, isSpace c = true }
  name : { s : List Char // s ≠ [] ∧ ∀ c ∈ s, isAttributeNamePart c = true ∧ c ≠ '[' }
  value : WrittenValue

def WrittenAttribute.raw (a : WrittenAttribute) : RawAttribute :=
  ⟨a.gap.val, a.name.val, a.value.source, a.value.text?⟩

/-- Whether the tag ends in a value on its own. -/
def endsBare (attributes : List WrittenAttribute) : Bool :=
  attributes.getLast?.any fun a => a.value.isBare

/-- A start tag. A blank keeps the `/` apart from a value on its own. -/
structure WrittenTag where
  name : { s : List Char // isQualifiedName s = true }
  attributes : List WrittenAttribute
  gap : Blanks
  slash : Bool
  apart : endsBare attributes = true → slash = true → gap.val ≠ []

/-- What is to be read: the name, the attributes with their names and values, and the slash. -/
def WrittenTag.tag (t : WrittenTag) : StartTag :=
  ⟨t.name.val, t.attributes.map WrittenAttribute.raw, ⟨t.gap.val, t.slash⟩⟩

/-! ### Blanks -/

theorem eq_false_of_isSpace {p : Char → Bool} (h : ∀ {c}, p c = true → isBlank c = false) {c : Char}
    (hc : isSpace c = true) : p c = false := by
  rw [Bool.eq_false_iff]
  intro hp
  rw [isSpace, h hp] at hc
  cases hc

section

variable (b : Blanks) {c : Char} (hc : isBlank c = false) (s : List Char)
include hc

theorem Blanks.leadingBlanks_append : leadingBlanks (b.val ++ c :: s) = b.val := by
  rw [leadingBlanks, takeWhile_append_cons hc,
    List.takeWhile_eq_self_iff.2 fun d hd => isBlank_of_isSpace (b.property d hd)]

theorem Blanks.dropBlanks_append : dropBlanks (b.val ++ c :: s) = c :: s := by
  rw [dropBlanks, dropWhile_append_cons hc,
    List.dropWhile_eq_nil_iff.2 fun d hd => isBlank_of_isSpace (b.property d hd), List.nil_append]

end

theorem isBlank_eq_false_of_isQuote {c : Char} (h : isQuote c = true) : isBlank c = false := by
  simp only [isQuote, Bool.or_eq_true, beq_iff_eq] at h
  rcases h with rfl | rfl <;> decide

theorem isBlank_eq_false_of_isBareValuePart {c : Char} (h : isBareValuePart c = true) :
    isBlank c = false := by
  simp only [isBareValuePart, Bool.not_eq_true', Bool.or_eq_false_iff] at h
  exact h.1.1.1.1.1

theorem isQuote_eq_false_of_isBareValuePart {c : Char} (h : isBareValuePart c = true) :
    isQuote c = false := by
  simp only [isBareValuePart, Bool.not_eq_true', Bool.or_eq_false_iff] at h
  exact h.1.1.1.1.2

/-! ### Values -/

/-- A blank, or the end of a tag. A value on its own takes the `/` of the end with it. -/
def endsAttribute (bare : Bool) (c : Char) : Bool := isSpace c || c == '>' || !bare && c == '/'

theorem eq_false_of_endsAttribute {p : Char → Bool} {bare : Bool}
    (hspace : ∀ {c}, isSpace c = true → p c = false) (hgt : p '>' = false)
    (hslash : bare = false → p '/' = false) {c : Char} (h : endsAttribute bare c = true) :
    p c = false := by
  simp only [endsAttribute, Bool.or_eq_true, Bool.and_eq_true, beq_iff_eq, Bool.not_eq_true'] at h
  rcases h with (h | rfl) | ⟨hbare, rfl⟩
  · exact hspace h
  · exact hgt
  · exact hslash hbare

/-- What may follow an attribute: it ends there, and no assignment follows. -/
structure Follows (bare : Bool) (s : List Char) : Prop where
  ends : ∃ c rest, s = c :: rest ∧ endsAttribute bare c = true
  unassigned : (dropBlanks s).head? ≠ some '='

section

variable {s : List Char}

theorem readValue?_quoted {mark : Char} (hmark : isQuote mark = true) {text : List Char}
    (htext : mark ∉ text) (h : Follows false s) :
    readValue? (mark :: text ++ mark :: s) = some ((mark :: text ++ [mark], text), s) := by
  have hinner : ∀ c ∈ text, (c != mark) = true := by
    intro c hc
    rw [bne_iff_ne]
    rintro rfl
    exact htext hc
  have htake : (text ++ mark :: s).takeWhile (· != mark) = text := by
    rw [takeWhile_append_cons (by simp), List.takeWhile_eq_self_iff.2 hinner]
  have hdrop : (text ++ mark :: s).dropWhile (· != mark) = mark :: s := by
    rw [dropWhile_append_cons (by simp), List.dropWhile_eq_nil_iff.2 hinner, List.nil_append]
  -- no second quote follows that would be swallowed
  obtain ⟨c, rest, rfl, hc⟩ := h.ends
  have hother : (c == mark) = false := by
    rw [beq_eq_false_iff_ne]
    rintro rfl
    rw [eq_false_of_endsAttribute (eq_false_of_isSpace isBlank_eq_false_of_isQuote) (by decide)
      (fun _ => by decide) hc] at hmark
    cases hmark
  simp [readValue?, hmark, htake, hdrop, hother]

theorem readValue?_bare {text : List Char} (hne : text ≠ [])
    (htext : ∀ c ∈ text, isBareValuePart c = true) (h : Follows true s) :
    readValue? (text ++ s) = some ((text, text), s) := by
  obtain ⟨c, rest, rfl, hc⟩ := h.ends
  have hend : isBareValuePart c = false :=
    eq_false_of_endsAttribute (eq_false_of_isSpace isBlank_eq_false_of_isBareValuePart) (by decide)
      (fun h => by cases h) hc
  have htake : (text ++ c :: rest).takeWhile isBareValuePart = text := by
    rw [takeWhile_append_cons hend, List.takeWhile_eq_self_iff.2 htext]
  have hdrop : (text ++ c :: rest).dropWhile isBareValuePart = c :: rest := by
    rw [dropWhile_append_cons hend, List.dropWhile_eq_nil_iff.2 htext, List.nil_append]
  obtain ⟨first, more, rfl⟩ := List.exists_cons_of_ne_nil hne
  have hquote := isQuote_eq_false_of_isBareValuePart (htext first (by simp))
  rw [List.cons_append] at htake hdrop ⊢
  simp [readValue?, hquote, htake, hdrop]

/-- An assignment is read through its value, the blanks around the sign included. -/
theorem readAssignment?_of_readValue? (before after : Blanks) {c : Char} {t written text : List Char}
    (hc : isBlank c = false) (h : readValue? (c :: t) = some ((written, text), s)) :
    readAssignment? (before.val ++ '=' :: (after.val ++ c :: t)) =
      some ((before.val ++ '=' :: after.val ++ written, text), s) := by
  have hsign : isBlank '=' = false := by decide
  simp [readAssignment?, Blanks.dropBlanks_append, Blanks.leadingBlanks_append, hsign, hc, h]

/-- A value is read as it was written, and where there is none, none is read. -/
theorem readAssignment?_written {v : WrittenValue} (h : Follows v.isBare s) :
    readAssignment? (v.source ++ s) = v.text?.map fun text => ((v.source, text), s) := by
  cases v with
  | absent =>
    simp only [WrittenValue.source, WrittenValue.text?, List.nil_append, Option.map_none]
    unfold readAssignment?
    split
    · next hd => exact absurd (by rw [hd]; rfl) h.unassigned
    · rfl
  | quoted before after mark text =>
    have hblank := isBlank_eq_false_of_isQuote mark.property
    have hvalue := readValue?_quoted mark.property text.property h
    simpa [WrittenValue.source, WrittenValue.text?] using
      readAssignment?_of_readValue? before after hblank hvalue
  | bare before after text =>
    obtain ⟨hne, hparts⟩ := text.property
    have hvalue := readValue?_bare hne hparts h
    obtain ⟨c, more, htext⟩ := List.exists_cons_of_ne_nil hne
    have hblank := isBlank_eq_false_of_isBareValuePart (hparts c (by simp [htext]))
    rw [htext, List.cons_append] at hvalue
    simpa [WrittenValue.source, WrittenValue.text?, htext] using
      readAssignment?_of_readValue? before after hblank hvalue

end

/-! ### Attributes -/

namespace WrittenAttribute

variable (a : WrittenAttribute)

theorem exists_name : ∃ c rest, a.name.val = c :: rest ∧ isAttributeNamePart c = true := by
  obtain ⟨c, rest, h⟩ := List.exists_cons_of_ne_nil a.name.property.1
  exact ⟨c, rest, h, (a.name.property.2 c (by simp [h])).1⟩

theorem source_raw : a.raw.source = a.gap.val ++ (a.name.val ++ a.value.source) := by
  simp [RawAttribute.source, raw]

/-- The blanks before an attribute end where its name begins. -/
theorem blanks_source (s : List Char) :
    leadingBlanks (a.raw.source ++ s) = a.gap.val ∧
      dropBlanks (a.raw.source ++ s) = a.name.val ++ (a.value.source ++ s) := by
  obtain ⟨c, rest, hname, hc⟩ := a.exists_name
  have hblank := isBlank_eq_false_of_isAttributeNamePart hc
  rw [source_raw, hname]
  simp only [List.append_assoc, List.cons_append]
  exact ⟨Blanks.leadingBlanks_append ⟨a.gap.val, a.gap.property.2⟩ hblank _,
    Blanks.dropBlanks_append ⟨a.gap.val, a.gap.property.2⟩ hblank _⟩

theorem readTagClose?_source (s : List Char) : readTagClose? (a.raw.source ++ s) = none := by
  obtain ⟨c, rest, hname, hc⟩ := a.exists_name
  have hgt : c ≠ '>' := ne_of_isAttributeNamePart hc (by decide)
  have hslash : c ≠ '/' := ne_of_isAttributeNamePart hc (by decide)
  simp [readTagClose?, (a.blanks_source s).2, hname, hgt, hslash]

/-- The text behind a name ends it: its assignment or what follows the attribute. -/
theorem readAttributeName?_source {s : List Char} (h : Follows a.value.isBare s) :
    readAttributeName? (a.name.val ++ (a.value.source ++ s)) =
      some (a.name.val, a.value.source ++ s) := by
  have hplain : IsPlainName (String.ofList a.name.val) :=
    isPlainName_of_not_mem (by simpa using a.name.property.1) (by simpa using a.name.property.2)
  have hspace : ∀ {c}, isSpace c = true → isAttributeNamePart c = false :=
    eq_false_of_isSpace isBlank_eq_false_of_isAttributeNamePart
  have hread : ∀ {c rest}, isAttributeNamePart c = false →
      readAttributeName? (a.name.val ++ c :: rest) = some (a.name.val, c :: rest) := by
    intro c rest hc
    simpa using readAttributeName?_of_isPlainName hplain hc rest
  have hassigned : ∀ (before : Blanks) (rest : List Char),
      readAttributeName? (a.name.val ++ (before.val ++ '=' :: rest)) =
        some (a.name.val, before.val ++ '=' :: rest) := by
    rintro ⟨before, hbefore⟩ rest
    cases before with
    | nil => exact hread (by decide)
    | cons c before => exact hread (hspace (hbefore c (by simp)))
  cases hvalue : a.value with
  | absent =>
    obtain ⟨c, rest, rfl, hc⟩ := h.ends
    exact hread (eq_false_of_endsAttribute hspace (by decide) (fun _ => by decide) hc)
  | quoted before after mark text =>
    simpa [WrittenValue.source] using
      hassigned before (after.val ++ mark.val :: (text.val ++ mark.val :: s))
  | bare before after text =>
    simpa [WrittenValue.source] using hassigned before (after.val ++ (text.val ++ s))

theorem readAttribute?_source {s : List Char} (h : Follows a.value.isBare s) :
    readAttribute? (a.raw.source ++ s) = some (a.raw, s) := by
  have hassignment := readAssignment?_written h
  obtain ⟨hgap, hrest⟩ := a.blanks_source s
  rw [readAttribute?, hgap, hrest, a.readAttributeName?_source h]
  simp only [hassignment]
  cases hvalue : a.value with
  | absent => simp [raw, hvalue, WrittenValue.source, WrittenValue.text?]
  | quoted before after mark text => simp [raw, hvalue, WrittenValue.text?]
  | bare before after text => simp [raw, hvalue, WrittenValue.text?]

/-- An attribute may follow an attribute. -/
theorem follows_source (bare : Bool) (s : List Char) : Follows bare (a.raw.source ++ s) := by
  obtain ⟨c, rest, hname, hc⟩ := a.exists_name
  constructor
  · obtain ⟨b, gap, hgap⟩ := List.exists_cons_of_ne_nil a.gap.property.1
    refine ⟨b, gap ++ (a.name.val ++ (a.value.source ++ s)), by simp [source_raw, hgap], ?_⟩
    simp [endsAttribute, a.gap.property.2 b (by simp [hgap])]
  · rw [(a.blanks_source s).2, hname]
    simpa using ne_of_isAttributeNamePart hc (by decide)

end WrittenAttribute

/-! ### Tags -/

section

variable (gap : Blanks) (slash : Bool) (rest : List Char)

theorem readTagClose?_close :
    readTagClose? ((TagClose.mk gap.val slash).source ++ rest) =
      some (⟨gap.val, slash⟩, rest) := by
  have hgt : isBlank '>' = false := by decide
  have hslash : isBlank '/' = false := by decide
  cases slash <;>
    simp [TagClose.source, readTagClose?, Blanks.dropBlanks_append, Blanks.leadingBlanks_append,
      hgt, hslash]

/-- The end of a tag may follow an attribute. -/
theorem follows_close {bare : Bool} (h : bare = true → slash = true → gap.val ≠ []) :
    Follows bare ((TagClose.mk gap.val slash).source ++ rest) := by
  have hgt : isBlank '>' = false := by decide
  have hslash : isBlank '/' = false := by decide
  constructor
  · obtain ⟨gap, hgap⟩ := gap
    cases gap with
    | cons c gap =>
      refine ⟨c, gap ++ ((if slash then ['/', '>'] else ['>']) ++ rest), ?_, ?_⟩
      · simp [TagClose.source]
      · simp [endsAttribute, hgap c (by simp)]
    | nil =>
      cases slash with
      | false => exact ⟨'>', rest, rfl, by simp [endsAttribute]⟩
      | true =>
        have hbare : bare = false := by simpa using h
        exact ⟨'/', '>' :: rest, rfl, by simp [endsAttribute, hbare]⟩
  · cases slash <;> simp [TagClose.source, Blanks.dropBlanks_append, hgt, hslash]

/-- Attributes are read one after the other up to the end of the tag. What follows each of them is
the next one or the end. -/
theorem readAttributes?_written {attributes : List WrittenAttribute}
    (h : endsBare attributes = true → slash = true → gap.val ≠ []) :
    readAttributes? ((attributes.map WrittenAttribute.raw).flatMap RawAttribute.source ++
      ((TagClose.mk gap.val slash).source ++ rest)) =
        some ((attributes.map WrittenAttribute.raw, ⟨gap.val, slash⟩), rest) := by
  induction attributes with
  | nil =>
    rw [readAttributes?]
    simp [readTagClose?_close]
  | cons a more ih =>
    have hlater : endsBare more = true → slash = true → gap.val ≠ [] := by
      intro hbare
      apply h
      cases more with
      | nil => cases hbare
      | cons b more => simpa [endsBare] using hbare
    have hfollows : Follows a.value.isBare ((more.map WrittenAttribute.raw).flatMap
        RawAttribute.source ++ ((TagClose.mk gap.val slash).source ++ rest)) := by
      cases more with
      | nil => exact follows_close gap slash rest h
      | cons b more =>
        rw [List.map_cons, List.flatMap_cons, List.append_assoc]
        exact b.follows_source _ _
    have hread := a.readAttribute?_source hfollows
    rw [List.map_cons, List.flatMap_cons, List.append_assoc, readAttributes?,
      a.readTagClose?_source]
    simp only
    split
    · next hnone => rw [hread] at hnone; cases hnone
    · next b after hsome =>
      rw [hread] at hsome
      obtain ⟨rfl, rfl⟩ := by simpa using hsome
      rw [ih hlater]

end

/-- A start tag of the grammar is read as it was written, whatever follows: its name, its attributes
in order with their names and values, and whether it has a slash, up to and including the `>`. -/
theorem readStartTag?_written (t : WrittenTag) (rest : List Char) :
    readStartTag? (t.tag.source ++ rest) = some (t.tag, rest) := by
  have hattributes := readAttributes?_written t.gap t.slash rest t.apart
  have hsource : t.tag.source ++ rest = '<' :: (t.name.val ++
      ((t.attributes.map WrittenAttribute.raw).flatMap RawAttribute.source ++
        ((TagClose.mk t.gap.val t.slash).source ++ rest))) := by
    simp [StartTag.source, WrittenTag.tag]
  -- the name ends at a blank, a slash or the end of the tag
  obtain ⟨c, more, hmore, hc⟩ : ∃ c more, (t.attributes.map WrittenAttribute.raw).flatMap
      RawAttribute.source ++ ((TagClose.mk t.gap.val t.slash).source ++ rest) = c :: more ∧
        endsAttribute false c = true := by
    cases t.attributes with
    | nil => exact (follows_close t.gap t.slash rest (by simp)).ends
    | cons a attributes =>
      rw [List.map_cons, List.flatMap_cons, List.append_assoc]
      exact (a.follows_source false _).ends
  have hname : readName? (t.name.val ++ c :: more) = some (t.name.val, c :: more) := by
    apply readName?_of_isQualifiedName t.name.property
    · exact eq_false_of_endsAttribute isNamePart_eq_false_of_isSpace (by decide) (fun _ => by decide) hc
    · rintro rfl
      revert hc
      decide
  rw [hsource, readStartTag?]
  simp only [hmore] at hattributes ⊢
  simp only [hname, hattributes]
  rfl

/-- Blanks around the sign, a slash in a value on its own, and one that belongs to the tag. -/
example :
    (readStartTag? "<a b = \"1>\" c d=/e/ />t".toList).map (fun (t, rest) =>
      (t.attributes.map fun a => (String.ofList a.name, a.value.map String.ofList), t.close.slash,
        String.ofList rest)) =
      some ([("b", some "1>"), ("c", none), ("d", some "/e/")], true, "t") := by
  decide +kernel

end HtmlTemplate.Markup
