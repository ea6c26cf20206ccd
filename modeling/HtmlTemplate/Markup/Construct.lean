import HtmlTemplate.Markup.StartTag
import HtmlTemplate.Text.Lowercase
import HtmlTemplate.Text.Search

/-!
# Comments, declarations, end tags and the text between

The constructs other than start tags that markup is made of, and the end of a run of text. Each
reader takes a text that may begin with its construct and gives what it covers and what follows;
nothing is consumed when the construct is not complete.
-/

namespace HtmlTemplate.Markup

open Text

/-- A stretch of markup that a reader took, what it found there, and what follows. -/
structure Taken (α : Type) where
  found : α
  source : List Char
  rest : List Char

/-- `<!-- text -->`. The end mark may share its dashes with the opening: `<!-->` and `<!--->` are
comments without text. -/
def readComment? : List Char → Option (Taken (List Char))
  | '<' :: '!' :: body =>
    if ['-', '-'].isPrefixOf body then
      match cut? ['-', '-', '>'] body with
      | some (before, rest) =>
        some ⟨before.drop 2, '<' :: '!' :: before ++ ['-', '-', '>'], rest⟩
      | none => none
    else none
  | _ => none

/-- `<![ condition ]>`. -/
def readConditionalComment? : List Char → Option (Taken Unit)
  | '<' :: '!' :: '[' :: body =>
    match cut? [']', '>'] body with
    | some (before, rest) => some ⟨(), '<' :: '!' :: '[' :: before ++ [']', '>'], rest⟩
    | none => none
  | _ => none

def doctypeKeyword : List Char := ['<', '!', 'd', 'o', 'c', 't', 'y', 'p', 'e']

/-- `<!DOCTYPE` in any case of letters, one space, at least one character, and `>`. -/
def readDoctype? (s : List Char) : Option (Taken Unit) :=
  if eqIgnoringAsciiCase (s.take 9) doctypeKeyword then
    match s.drop 9 with
    | ' ' :: body =>
      match body.takeWhile (· != '>'), body.dropWhile (· != '>') with
      | c :: inner, gt :: rest => some ⟨(), s.take 9 ++ ' ' :: c :: inner ++ [gt], rest⟩
      | _, _ => none
    | _ => none
  else none

/-- `</name` and anything up to the next `>`; gives the name. -/
def readEndTag? : List Char → Option (Taken (List Char))
  | '<' :: '/' :: s =>
    match readName? s with
    | none => none
    | some (name, after) =>
      match after.dropWhile (· != '>') with
      | [] => none
      | gt :: rest =>
        some ⟨name, '<' :: '/' :: name ++ after.takeWhile (· != '>') ++ [gt], rest⟩
  | _ => none

/-- Whether a text begins like a construct: an end tag that some `>` closes, `<` with a name,
`<!--` or `<![`. The text stands at byte `position` of the markup, whose last `>` is at byte
`lastClose`, so whether a `>` follows needs no search. -/
def beginsConstruct (lastClose : Option Nat) (position : Nat) : List Char → Bool
  | '<' :: '/' :: s =>
    match readName? s with
    | some (name, _) => lastClose.any (position + 2 + extent name ≤ ·)
    | none => false
  | '<' :: '!' :: s => ['-', '-'].isPrefixOf s || ['['].isPrefixOf s
  | '<' :: s => (readName? s).isSome
  | _ => false

/-- The position of the last `>` in a text that begins at a byte position. -/
def lastCloseFrom (position : Nat) (found : Option Nat) : List Char → Option Nat
  | [] => found
  | c :: rest =>
    lastCloseFrom (position + c.utf8Size) (if c == '>' then some position else found) rest

def lastClose (s : List Char) : Option Nat := lastCloseFrom 0 none s

/-- The run of text up to the first place that begins like a construct, and what follows it. A
`<` that begins no construct is text. -/
def readText (lastClose : Option Nat) (position : Nat) (s : List Char) : List Char × List Char :=
  splitBefore (beginsConstruct lastClose) position s

theorem readComment?_append {s : List Char} {t : Taken (List Char)} (h : readComment? s = some t) :
    t.source ++ t.rest = s := by
  unfold readComment? at h
  split at h
  · split at h
    · split at h
      · next hc =>
        obtain rfl := by simpa using h
        simpa using cut?_append hc
      · simp at h
    · simp at h
  · simp at h

theorem readConditionalComment?_append {s : List Char} {t : Taken Unit}
    (h : readConditionalComment? s = some t) : t.source ++ t.rest = s := by
  unfold readConditionalComment? at h
  split at h
  · split at h
    · next hc =>
      obtain rfl := by simpa using h
      simpa using cut?_append hc
    · simp at h
  · simp at h

theorem readDoctype?_append {s : List Char} {t : Taken Unit} (h : readDoctype? s = some t) :
    t.source ++ t.rest = s := by
  unfold readDoctype? at h
  split at h
  · split at h
    · next body hbody =>
      split at h
      · next c inner gt rest hi hr =>
        obtain rfl := by simpa using h
        have h₁ := List.take_append_drop 9 s
        have h₂ := List.takeWhile_append_dropWhile (p := (· != '>')) (l := body)
        rw [hi, hr] at h₂
        rw [hbody, ← h₂] at h₁
        simpa using h₁
      · simp at h
    · simp at h
  · simp at h

theorem readEndTag?_append {s : List Char} {t : Taken (List Char)} (h : readEndTag? s = some t) :
    t.source ++ t.rest = s := by
  unfold readEndTag? at h
  split at h
  · split at h
    · simp at h
    · next name after hname =>
      split at h
      · simp at h
      · next gt rest hr =>
        obtain rfl := by simpa using h
        have h₁ := readName?_append hname
        have h₂ := List.takeWhile_append_dropWhile (p := (· != '>')) (l := after)
        rw [hr] at h₂
        rw [← h₂] at h₁
        simpa using h₁
  · simp at h

theorem readComment?_source_ne_nil {s : List Char} {t : Taken (List Char)}
    (h : readComment? s = some t) : t.source ≠ [] := by
  unfold readComment? at h
  split at h
  · split at h
    · split at h
      · obtain rfl := by simpa using h
        simp
      · simp at h
    · simp at h
  · simp at h

theorem readConditionalComment?_source_ne_nil {s : List Char} {t : Taken Unit}
    (h : readConditionalComment? s = some t) : t.source ≠ [] := by
  unfold readConditionalComment? at h
  split at h
  · split at h
    · obtain rfl := by simpa using h
      simp
    · simp at h
  · simp at h

theorem readDoctype?_source_ne_nil {s : List Char} {t : Taken Unit}
    (h : readDoctype? s = some t) : t.source ≠ [] := by
  unfold readDoctype? at h
  split at h
  · split at h
    · split at h
      · obtain rfl := by simpa using h
        simp
      · simp at h
    · simp at h
  · simp at h

theorem readEndTag?_source_ne_nil {s : List Char} {t : Taken (List Char)}
    (h : readEndTag? s = some t) : t.source ≠ [] := by
  unfold readEndTag? at h
  split at h
  · split at h
    · simp at h
    · split at h
      · simp at h
      · obtain rfl := by simpa using h
        simp
  · simp at h

theorem readText_append (lastClose : Option Nat) (position : Nat) (s : List Char) :
    (readText lastClose position s).1 ++ (readText lastClose position s).2 = s :=
  splitBefore_append _ _ _

end HtmlTemplate.Markup
