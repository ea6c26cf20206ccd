import HtmlTemplate.Markup.RawText
import HtmlTemplate.Proofs.Encoding

/-!
# Reading what is written

Each reader of a construct reads what rendering writes of its kind, with whatever follows: start
tags with their attributes (`readStartTag?_source`), end tags (`readEndTag?_source_cons`), comments
(`readComment?_source`) and the content of raw-text elements (`readRawExtent_source`). A search
stops before the first place that it looks for (`splitBefore_append_of`), which ends comments, text
and raw text.
-/

namespace HtmlTemplate.Markup

open Text

/-! ### Searching -/

section

variable {p : Nat → List Char → Bool}

theorem splitBeforeFrom_append_of {before rest : List Char} (passed : List Char) {position : Nat}
    (hbefore : ∀ a b, before = a ++ b → b ≠ [] → p (position + extent a) (b ++ rest) = false)
    (hrest : rest ≠ [] → p (position + extent before) rest = true) :
    splitBeforeFrom p passed position (before ++ rest) = (passed.reverse ++ before, rest) := by
  induction before generalizing passed position with
  | nil =>
    cases rest with
    | nil => simp [splitBeforeFrom]
    | cons c rest =>
      have hp : p position (c :: rest) = true := hrest (by simp)
      simp [splitBeforeFrom, hp]
  | cons c before ih =>
    have hc : p position (c :: (before ++ rest)) = false := hbefore [] (c :: before) rfl (by simp)
    rw [List.cons_append, splitBeforeFrom, if_neg (by simp [hc]), ih]
    · simp
    · intro a b hab hb
      have := hbefore (c :: a) b (by rw [hab, List.cons_append]) hb
      rwa [extent_cons, ← Nat.add_assoc] at this
    · intro h
      have := hrest h
      rwa [extent_cons, ← Nat.add_assoc] at this

/-- A search stops where what it looks for is, if that is nowhere before. -/
theorem splitBefore_append_of {before rest : List Char} {position : Nat}
    (hbefore : ∀ a b, before = a ++ b → b ≠ [] → p (position + extent a) (b ++ rest) = false)
    (hrest : rest ≠ [] → p (position + extent before) rest = true) :
    splitBefore p position (before ++ rest) = (before, rest) :=
  splitBeforeFrom_append_of [] hbefore hrest

/-- A search for something that begins with a character passes over text without that character. -/
theorem splitBefore_append_of_not_mem {mark : Char}
    (hp : ∀ position c s, c ≠ mark → p position (c :: s) = false) {before rest : List Char}
    (hbefore : mark ∉ before) {position : Nat}
    (hrest : rest ≠ [] → p (position + extent before) rest = true) :
    splitBefore p position (before ++ rest) = (before, rest) := by
  refine splitBefore_append_of (fun a b hab hb => ?_) hrest
  obtain ⟨c, b, rfl⟩ := List.exists_cons_of_ne_nil hb
  rw [List.cons_append]
  apply hp
  rintro rfl
  exact hbefore (by simp [hab])

end

theorem cut?_append_of {mark before rest : List Char} (hmark : mark ≠ [])
    (hbefore : ∀ a b, before = a ++ b → b ≠ [] → ¬ mark <+: b ++ (mark ++ rest)) :
    cut? mark (before ++ (mark ++ rest)) = some (before, rest) := by
  have hsplit : splitBefore (fun _ rest => mark.isPrefixOf rest) 0 (before ++ (mark ++ rest)) =
      (before, mark ++ rest) := by
    refine splitBefore_append_of (fun a b hab hb => ?_) fun _ => ?_
    · rw [Bool.eq_false_iff, ne_eq, List.isPrefixOf_iff_prefix]
      exact hbefore a b hab hb
    · rw [List.isPrefixOf_iff_prefix]
      exact List.prefix_append mark rest
  unfold cut?
  rw [hsplit]
  obtain ⟨c, mark, rfl⟩ := List.exists_cons_of_ne_nil hmark
  simp

/-- A mark whose first character is nowhere is not found. -/
theorem cut?_eq_none_of_not_mem {c : Char} {mark s : List Char} (h : c ∉ s) :
    cut? (c :: mark) s = none := by
  have hp : ∀ (position : Nat) (d : Char) (s : List Char), d ≠ c →
      (c :: mark).isPrefixOf (d :: s) = false := by
    intro _ d s hd
    simp [List.isPrefixOf, hd.symm]
  have hsplit : splitBefore (fun _ rest => (c :: mark).isPrefixOf rest) 0 (s ++ []) = (s, []) :=
    splitBefore_append_of_not_mem hp h (by simp)
  rw [List.append_nil] at hsplit
  unfold cut?
  rw [hsplit]

/-! ### Start tags -/

/-- What is no letter is only the small form of itself. -/
theorem eq_of_toLower_eq {c d : Char} (hd : d.toNat < 97) (h : c.toLower = d) : c = d := by
  unfold Char.toLower at h
  split at h
  · next hc =>
    simp only [ge_iff_le, UInt32.le_iff_toNat_le, ← Char.toNat_inj, Char.toNat, UInt32.toNat_add,
      Char.reduceVal, UInt32.reduceToNat, UInt32.reduceSub] at h hc hd
    omega
  · exact h

theorem isAttributeNamePart_of_isWordPart {c : Char} (h : isWordPart c = true) :
    isAttributeNamePart c = true := by
  have hrange : 45 ≤ c.toNat ∧ c.toNat ≤ 122 ∧ c.toNat ≠ 47 ∧ (c.toNat < 60 ∨ 62 < c.toNat) := by
    simp only [isWordPart, Char.isAlphanum, Char.isDigit] at h
    delta Char.isAlpha Char.isUpper Char.isLower at h
    simp only [Bool.or_eq_true, Bool.and_eq_true, decide_eq_true_eq, ge_iff_le,
      UInt32.le_iff_toNat_le, beq_iff_eq, ← Char.toNat_inj] at h
    simp only [Char.toNat, Char.reduceVal, UInt32.reduceToNat] at h ⊢
    omega
  simp only [isAttributeNamePart, isQuote, isBlank, Bool.not_eq_true', Bool.or_eq_false_iff,
    Bool.and_eq_false_iff, decide_eq_false_iff_not, beq_eq_false_iff_ne, ne_eq, ← Char.toNat_inj]
  simp only [Char.toNat, Char.reduceVal, UInt32.reduceToNat] at hrange ⊢
  omega

theorem isBlank_eq_false_of_isAttributeNamePart {c : Char} (h : isAttributeNamePart c = true) :
    isBlank c = false := by
  simp only [isAttributeNamePart, Bool.not_eq_true', Bool.or_eq_false_iff] at h
  exact h.1.1.1.1.1

theorem ne_of_isAttributeNamePart {c d : Char} (h : isAttributeNamePart c = true)
    (hd : isAttributeNamePart d = false) : c ≠ d := by
  rintro rfl
  rw [h] at hd
  cases hd

/-- What opens a bracketed argument is part of a name, up to the bracket. -/
theorem opening_of_readBracketOpening? {s opening rest : List Char}
    (h : readBracketOpening? s = some (opening, rest)) :
    '[' ∈ opening ∧ ∀ c ∈ opening, isAttributeNamePart c = true := by
  unfold readBracketOpening? at h
  split at h
  · next t =>
    split at h
    · cases h
    · obtain ⟨rfl, rfl⟩ := by simpa using h
      have hword : ∀ c ∈ t.takeWhile isWordPart, isAttributeNamePart c = true :=
        fun c hc => isAttributeNamePart_of_isWordPart (List.mem_takeWhile_imp hc)
      refine ⟨by simp, fun c hc => ?_⟩
      simp only [List.mem_cons, List.mem_append, List.not_mem_nil, or_false] at hc
      rcases hc with rfl | rfl | hc | rfl | rfl
      · decide
      · decide
      · exact hword c hc
      · decide
      · decide
    · cases h
  · split at h
    · next c _ hc =>
      obtain ⟨rfl, rfl⟩ := by simpa using h
      simp only [Bool.or_eq_true, beq_iff_eq] at hc
      rcases hc with (rfl | rfl) | rfl <;> exact ⟨by simp, List.all_eq_true.1 (by decide)⟩
    · cases h
  · cases h

/-- What opens a bracketed argument does so whatever follows. -/
theorem readBracketOpening?_append_right {s opening rest : List Char}
    (h : readBracketOpening? s = some (opening, rest)) (t : List Char) :
    readBracketOpening? (opening ++ t) = some (opening, t) := by
  unfold readBracketOpening? at h
  split at h
  · next s =>
    split at h
    · cases h
    · next hne =>
      obtain ⟨rfl, rfl⟩ := by simpa using h
      have hall : ∀ c ∈ s.takeWhile isWordPart, isWordPart c = true :=
        fun c hc => List.mem_takeWhile_imp hc
      generalize s.takeWhile isWordPart = word at hall hne
      have htake : (word ++ ':' :: '[' :: t).takeWhile isWordPart = word := by
        rw [takeWhile_append_cons (by decide), List.takeWhile_eq_self_iff.2 hall]
      have hdrop : (word ++ ':' :: '[' :: t).dropWhile isWordPart = ':' :: '[' :: t := by
        rw [dropWhile_append_cons (by decide), List.dropWhile_eq_nil_iff.2 hall]
        rfl
      cases word with
      | nil => exact absurd rfl hne
      | cons c word =>
        rw [List.cons_append] at htake hdrop
        simp [readBracketOpening?, htake, hdrop]
    · cases h
  · next c after hother =>
    split at h
    · next hc =>
      obtain ⟨rfl, rfl⟩ := by simpa using h
      simp [readBracketOpening?, hc]
    · cases h
  · cases h

/-- A name of an attribute that is read back as it is: it is made of the characters of names, and no
bracketed argument begins it. -/
structure IsPlainName (name : String) : Prop where
  ne_nil : name.toList ≠ []
  parts : ∀ c ∈ name.toList, isAttributeNamePart c = true
  unbracketed : readBracketOpening? name.toList = none

theorem isPlainName_of_not_mem {name : String} (hne : name.toList ≠ [])
    (h : ∀ c ∈ name.toList, isAttributeNamePart c = true ∧ c ≠ '[') : IsPlainName name := by
  refine ⟨hne, fun c hc => (h c hc).1, ?_⟩
  cases hread : readBracketOpening? name.toList with
  | none => rfl
  | some found =>
    have hmem := (opening_of_readBracketOpening? hread).1
    rw [← readBracketOpening?_append hread] at h
    exact absurd rfl (h '[' (List.mem_append_left _ hmem)).2

/-- An attribute as it is rendered, with its value encoded if it has one. -/
def RawAttribute.rendered (name : String) (value : Option String) : RawAttribute where
  gap := [' ']
  name := name.toList
  assignment := value.elim [] fun v => '=' :: '"' :: encoded v.toList ++ ['"']
  value := value.map fun v => encoded v.toList

/-- What may follow an attribute as it is rendered. -/
def EndsAttribute (s : List Char) : Prop :=
  (∃ rest, s = '>' :: rest) ∨ ∃ c rest, s = ' ' :: c :: rest ∧ isAttributeNamePart c = true

theorem EndsAttribute.ne_quote {s : List Char} (h : EndsAttribute s) :
    s.takeWhile (· == '"') = [] ∧ s.dropWhile (· == '"') = s := by
  obtain ⟨rest, rfl⟩ | ⟨c, rest, rfl, -⟩ := h <;> simp

/-- A rendered value is read up to its closing quote. -/
theorem readAssignment?_encoded (v : String) {rest : List Char} (hrest : EndsAttribute rest) :
    readAssignment? ('=' :: '"' :: (encoded v.toList ++ '"' :: rest)) =
      some (('=' :: '"' :: encoded v.toList ++ ['"'], encoded v.toList), rest) := by
  have hinner : ∀ c ∈ encoded v.toList, (c != '"') = true := by
    intro c hc
    simpa using fun h : c = '"' => not_mem_encoded (.inr (.inr rfl)) v.toList (h ▸ hc)
  have htake : (encoded v.toList ++ '"' :: rest).takeWhile (· != '"') = encoded v.toList := by
    rw [takeWhile_append_cons (by decide), List.takeWhile_eq_self_iff.2 hinner]
  have hdrop : (encoded v.toList ++ '"' :: rest).dropWhile (· != '"') = '"' :: rest := by
    rw [dropWhile_append_cons (by decide), List.dropWhile_eq_nil_iff.2 hinner]
    rfl
  have hvalue : readValue? ('"' :: (encoded v.toList ++ '"' :: rest)) =
      some (('"' :: encoded v.toList ++ ['"'], encoded v.toList), rest) := by
    simp [readValue?, isQuote, htake, hdrop, hrest.ne_quote]
  have hsign : isBlank '=' = false := by decide
  have hquote : isBlank '"' = false := by decide
  simp [readAssignment?, dropBlanks, leadingBlanks, hsign, hquote, hvalue]

theorem readAssignment?_of_endsAttribute {s : List Char} (h : EndsAttribute s) :
    readAssignment? s = none := by
  obtain ⟨rest, rfl⟩ | ⟨c, rest, rfl, hc⟩ := h
  · have hgt : isBlank '>' = false := by decide
    simp [readAssignment?, dropBlanks, hgt]
  · have hspace : isBlank ' ' = true := by decide
    have hsign : c ≠ '=' := ne_of_isAttributeNamePart hc (by decide)
    simp [readAssignment?, dropBlanks, hspace, isBlank_eq_false_of_isAttributeNamePart hc, hsign]

section

variable {name : String} (hname : IsPlainName name)
include hname

theorem readAttributeName?_of_isPlainName {c : Char} (hc : isAttributeNamePart c = false)
    (rest : List Char) :
    readAttributeName? (name.toList ++ c :: rest) = some (name.toList, c :: rest) := by
  obtain ⟨hne, hparts, hplain⟩ := hname
  have htake : (name.toList ++ c :: rest).takeWhile isAttributeNamePart = name.toList := by
    rw [takeWhile_append_cons hc, List.takeWhile_eq_self_iff.2 hparts]
  have hdrop : (name.toList ++ c :: rest).dropWhile isAttributeNamePart = c :: rest := by
    rw [dropWhile_append_cons hc, List.dropWhile_eq_nil_iff.2 hparts]
    rfl
  have hopening : readBracketOpening? (name.toList ++ c :: rest) = none := by
    cases hread : readBracketOpening? (name.toList ++ c :: rest) with
    | none => rfl
    | some found =>
      obtain ⟨opening, after⟩ := found
      have hbegins : opening <+: name.toList := by
        rw [← htake, ← readBracketOpening?_append hread,
          List.takeWhile_append_of_pos (opening_of_readBracketOpening? hread).2]
        exact List.prefix_append _ _
      obtain ⟨t, ht⟩ := hbegins
      rw [← ht, readBracketOpening?_append_right hread] at hplain
      cases hplain
  simp [readAttributeName?, readBracketedName?, hopening, readPlainName?, htake, hdrop, hne]

theorem blanks_before_name (s : List Char) :
    leadingBlanks (' ' :: (name.toList ++ s)) = [' '] ∧
      dropBlanks (' ' :: (name.toList ++ s)) = name.toList ++ s := by
  obtain ⟨c, t, ht⟩ := List.exists_cons_of_ne_nil hname.ne_nil
  have hc := isBlank_eq_false_of_isAttributeNamePart (hname.parts c (by simp [ht]))
  have hspace : isBlank ' ' = true := by decide
  simp [leadingBlanks, dropBlanks, ht, hc, hspace]

theorem readTagClose?_rendered (value : Option String) (rest : List Char) :
    readTagClose? ((RawAttribute.rendered name value).source ++ rest) = none := by
  have hblanks := (blanks_before_name hname ((RawAttribute.rendered name value).assignment ++ rest)).2
  obtain ⟨c, t, ht⟩ := List.exists_cons_of_ne_nil hname.ne_nil
  have hc := hname.parts c (by simp [ht])
  have hgt : c ≠ '>' := ne_of_isAttributeNamePart hc (by decide)
  have hslash : c ≠ '/' := ne_of_isAttributeNamePart hc (by decide)
  have hsource : (RawAttribute.rendered name value).source ++ rest =
      ' ' :: (name.toList ++ ((RawAttribute.rendered name value).assignment ++ rest)) := by
    simp [RawAttribute.source, RawAttribute.rendered]
  rw [hsource, readTagClose?, hblanks, ht]
  simp [hgt, hslash]

theorem readAttribute?_rendered (value : Option String) {rest : List Char}
    (hrest : EndsAttribute rest) :
    readAttribute? ((RawAttribute.rendered name value).source ++ rest) =
      some (RawAttribute.rendered name value, rest) := by
  have hblanks := blanks_before_name hname ((RawAttribute.rendered name value).assignment ++ rest)
  have hsource : (RawAttribute.rendered name value).source ++ rest =
      ' ' :: (name.toList ++ ((RawAttribute.rendered name value).assignment ++ rest)) := by
    simp [RawAttribute.source, RawAttribute.rendered]
  rw [hsource, readAttribute?, hblanks.1, hblanks.2]
  cases value with
  | none =>
    have hread : readAttributeName? (name.toList ++ rest) = some (name.toList, rest) := by
      obtain ⟨rest, rfl⟩ | ⟨c, rest, rfl, -⟩ := hrest <;>
        exact readAttributeName?_of_isPlainName hname (by decide) _
    have hassignment : readAssignment? rest = none := readAssignment?_of_endsAttribute hrest
    simp [RawAttribute.rendered, hread, hassignment]
  | some v =>
    have hread := readAttributeName?_of_isPlainName hname (c := '=') (by decide)
      ('"' :: (encoded v.toList ++ '"' :: rest))
    have hassignment := readAssignment?_encoded v hrest
    simp [RawAttribute.rendered, hread, hassignment]

end

/-- A start tag as it is rendered. -/
def StartTag.rendered (name : String) (attributes : List (String × Option String)) : StartTag where
  name := name.toList
  attributes := attributes.map fun a => .rendered a.1 a.2
  close := ⟨[], false⟩

theorem readAttributes?_rendered {attributes : List (String × Option String)}
    (h : ∀ a ∈ attributes, IsPlainName a.1) (rest : List Char) :
    EndsAttribute ((attributes.map fun a => RawAttribute.rendered a.1 a.2).flatMap
      RawAttribute.source ++ '>' :: rest) ∧
    readAttributes? ((attributes.map fun a => RawAttribute.rendered a.1 a.2).flatMap
      RawAttribute.source ++ '>' :: rest) =
        some ((attributes.map fun a => .rendered a.1 a.2, ⟨[], false⟩), rest) := by
  induction attributes with
  | nil =>
    have hgt : isBlank '>' = false := by decide
    have hclose : readTagClose? ('>' :: rest) = some (⟨[], false⟩, rest) := by
      simp [readTagClose?, dropBlanks, leadingBlanks, hgt]
    refine ⟨.inl ⟨rest, rfl⟩, ?_⟩
    rw [readAttributes?]
    simp [hclose]
  | cons a attributes ih =>
    obtain ⟨ha, hattributes⟩ := List.forall_mem_cons.1 h
    obtain ⟨hends, hread⟩ := ih hattributes
    simp only [List.map_cons, List.flatMap_cons, List.append_assoc]
    constructor
    · obtain ⟨c, t, ht⟩ := List.exists_cons_of_ne_nil ha.ne_nil
      exact .inr ⟨c, _, by simp [RawAttribute.source, RawAttribute.rendered, ht]; rfl,
        ha.parts c (by simp [ht])⟩
    · rw [readAttributes?, readTagClose?_rendered ha]
      simp only
      split
      · next hnone =>
        rw [readAttribute?_rendered ha a.2 hends] at hnone
        cases hnone
      · next b after hsome =>
        rw [readAttribute?_rendered ha a.2 hends] at hsome
        obtain ⟨rfl, rfl⟩ := by simpa using hsome
        rw [hread]

/-- A start tag is read as it was rendered, whatever follows. -/
theorem readStartTag?_rendered {name : String} (hname : isQualifiedName name.toList = true)
    {attributes : List (String × Option String)} (h : ∀ a ∈ attributes, IsPlainName a.1)
    (rest : List Char) :
    readStartTag? ((StartTag.rendered name attributes).source ++ rest) =
      some (StartTag.rendered name attributes, rest) := by
  obtain ⟨hends, hread⟩ := readAttributes?_rendered h rest
  have hsource : (StartTag.rendered name attributes).source ++ rest =
      '<' :: (name.toList ++ ((attributes.map fun a => RawAttribute.rendered a.1 a.2).flatMap
        RawAttribute.source ++ '>' :: rest)) := by
    simp [StartTag.source, StartTag.rendered, TagClose.source]
  rw [hsource, readStartTag?]
  generalize (attributes.map fun a => RawAttribute.rendered a.1 a.2).flatMap
    RawAttribute.source ++ '>' :: rest = after at hends hread
  have hreadName : readName? (name.toList ++ after) = some (name.toList, after) := by
    obtain ⟨more, rfl⟩ | ⟨c, more, rfl, -⟩ := hends <;>
      exact readName?_of_isQualifiedName hname (by decide) (by decide) _
  simp only [hreadName, hread]
  rfl

/-! ### End tags and comments -/

/-- An end tag as it is rendered. -/
def endTagSource (name : String) : List Char := '<' :: '/' :: (name.toList ++ ['>'])

theorem readEndTag?_rendered {name : String} (hname : isQualifiedName name.toList = true)
    (rest : List Char) :
    readEndTag? (endTagSource name ++ rest) = some ⟨name.toList, endTagSource name, rest⟩ := by
  have hread := readName?_of_isQualifiedName hname (c := '>') (by decide) (by decide) rest
  simp [endTagSource, readEndTag?, hread]

/-- A comment as it is rendered. -/
def commentSource (content : String) : List Char :=
  '<' :: '!' :: '-' :: '-' :: (content.toList ++ ['-', '-', '>'])

/-- A text that may stand in a comment: it does not end it. -/
def IsCommentText (s : String) : Prop :=
  ¬ ['-', '-', '>'] <:+: s.toList ∧ ¬ ['>'] <+: s.toList ∧ ¬ ['-', '>'] <+: s.toList

theorem readComment?_rendered {content : String} (h : IsCommentText content) (rest : List Char) :
    readComment? (commentSource content ++ rest) =
      some ⟨content.toList, commentSource content, rest⟩ := by
  obtain ⟨hend, hgt, hdash⟩ := h
  have hcut : cut? ['-', '-', '>'] ('-' :: '-' :: content.toList ++ (['-', '-', '>'] ++ rest)) =
      some ('-' :: '-' :: content.toList, rest) := by
    apply cut?_append_of (by simp)
    intro a b hab hb hbegins
    -- no end mark begins before the one that is written: at the opening dashes or in the text
    -- it would be in the text, and one that reaches into the written one has a dash for its `>`
    match b, hb with
    | [c], _ => simp [List.cons_prefix_cons] at hbegins
    | [c, d], _ => simp [List.cons_prefix_cons] at hbegins
    | c :: d :: e :: b, _ =>
      simp only [List.cons_append, List.cons_prefix_cons, List.nil_prefix, and_true] at hbegins
      obtain ⟨rfl, rfl, rfl⟩ := hbegins
      match a with
      | [] =>
        obtain hcontent := by simpa using hab
        exact hgt (by simp [hcontent])
      | [_] =>
        obtain ⟨-, hcontent⟩ := by simpa using hab
        exact hdash (by simp [hcontent])
      | _ :: _ :: a =>
        obtain ⟨-, -, hcontent⟩ := by simpa using hab
        exact hend ⟨a, b, by simp [hcontent]⟩
  have hsource : commentSource content ++ rest =
      '<' :: '!' :: ('-' :: '-' :: content.toList ++ (['-', '-', '>'] ++ rest)) := by
    simp [commentSource]
  rw [hsource, readComment?, hcut]
  simp [commentSource]

/-! ### Raw text -/

/-- The names are the same up to the case of ASCII letters. -/
theorem stripNameIgnoringCase?_of_map_toLower {folded name : List Char}
    (h : folded.map Char.toLower = name.map Char.toLower) (rest : List Char) :
    stripNameIgnoringCase? folded (name ++ rest) = some (name, rest) := by
  induction folded generalizing name with
  | nil =>
    obtain rfl : name = [] := by simpa using h.symm
    rfl
  | cons n folded ih =>
    cases name with
    | nil => cases h
    | cons c name =>
      obtain ⟨hc, hname⟩ := by simpa using h
      simp [stripNameIgnoringCase?, hc, ih hname]

/-- Encoded text in a raw-text element is its content, up to its end tag. -/
theorem readRawExtent_rendered {folded : List Char} {name : String}
    (h : folded.map Char.toLower = name.toList.map Char.toLower) {content : List Char}
    (hcontent : '<' ∉ content) (rest : List Char) :
    readRawExtent folded (content ++ (endTagSource name ++ rest)) =
      ⟨content, endTagSource name, rest⟩ := by
  have hopening : readRawCloseOpening? folded (endTagSource name ++ rest) =
      some ('<' :: '/' :: name.toList, '>' :: rest) := by
    have hstrip := stripNameIgnoringCase?_of_map_toLower h ('>' :: rest)
    simp [endTagSource, readRawCloseOpening?, hstrip]
  have hother : ∀ (position : Nat) (c : Char) (s : List Char), c ≠ '<' →
      (readRawCloseOpening? folded (c :: s)).isSome = false := by
    intro _ c s hc
    unfold readRawCloseOpening?
    split
    · next heq => exact absurd (List.cons.inj heq).1 hc
    · rfl
  have hsplit : splitBefore (fun _ s => (readRawCloseOpening? folded s).isSome) 0
      (content ++ (endTagSource name ++ rest)) = (content, endTagSource name ++ rest) :=
    splitBefore_append_of_not_mem hother hcontent fun _ => by simp [hopening]
  unfold readRawExtent
  rw [hsplit]
  simp only [hopening]
  simp [endTagSource]

theorem unwrapFrom_of_not_mem {c : Char} {opening closing s : List Char} (h : c ∉ s) :
    unwrapFrom (c :: opening) closing (by simp) [] s = s := by
  rw [unwrapFrom]
  split
  · rfl
  · next heq => rw [cut?_eq_none_of_not_mem h] at heq; cases heq

/-- A text without the line feed that it begins with, if that is dropped. -/
def dropLineFeed (drop : Bool) (s : List Char) : List Char :=
  match drop, s with
  | true, '\n' :: rest => rest
  | _, s => s

/-- Content without `<` has nothing wrapped. -/
theorem rawTextOf_of_not_mem {content : List Char} (h : '<' ∉ content) (name : String) :
    rawTextOf name content = dropLineFeed (dropsFirstLineFeed name) content := by
  have hcomments : unwrapComments content = content := unwrapFrom_of_not_mem h
  have hdata : unwrapCharacterData content = content := unwrapFrom_of_not_mem h
  simp only [rawTextOf, hcomments, hdata, ite_self, dropLineFeed]
  grind

end HtmlTemplate.Markup
