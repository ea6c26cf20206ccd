import HtmlTemplate.Markup.Name
import HtmlTemplate.Text.Blank

/-!
# Start tags

A start tag is `<`, a qualified name, attributes, and `>` or `/>`. What is read is kept in full:
the source of a start tag is the text that was read (`readStartTag?_append`). A tag that is not
closed after its attributes is no start tag, and nothing of it is consumed.
-/

namespace HtmlTemplate.Markup

open Text

/-- An attribute as written: the blanks before it, its name, and from the blanks before `=` to the
last closing quote, if there is a value, the assignment. -/
structure RawAttribute where
  gap : List Char
  name : List Char
  assignment : List Char
  value : Option (List Char)
  deriving DecidableEq, Repr

def RawAttribute.source (a : RawAttribute) : List Char := a.gap ++ a.name ++ a.assignment

def isQuote (c : Char) : Bool := c == '"' || c == '\''

/-- What a name of an attribute is made of, outside brackets. -/
def isAttributeNamePart (c : Char) : Bool :=
  !(isBlank c || isQuote c || c == '<' || c == '>' || c == '/' || c == '=')

/-- What a value without quotes is made of. -/
def isBareValuePart (c : Char) : Bool :=
  !(isBlank c || isQuote c || c == '=' || c == '<' || c == '>' || c == '\x60')

/-- A value as written and its text, and what follows. Closing quotes that are repeated belong to
the value as written. -/
def readValue? : List Char → Option ((List Char × List Char) × List Char)
  | [] => none
  | q :: rest =>
    if isQuote q then
      let value := rest.takeWhile (· != q)
      match rest.dropWhile (· != q) with
      | [] => none
      | c :: after =>
        some ((q :: value ++ c :: after.takeWhile (· == q), value), after.dropWhile (· == q))
    else
      let value := (q :: rest).takeWhile isBareValuePart
      if value.isEmpty then none
      else some ((value, value), (q :: rest).dropWhile isBareValuePart)

/-- `=` with a value, blanks allowed before and after the sign: the assignment as written, the
value, and what follows. -/
def readAssignment? (s : List Char) : Option ((List Char × List Char) × List Char) :=
  match dropBlanks s with
  | '=' :: rest =>
    match readValue? (dropBlanks rest) with
    | some ((written, value), after) =>
      some ((leadingBlanks s ++ '=' :: leadingBlanks rest ++ written, value), after)
    | none => none
  | _ => none

def isWordPart (c : Char) : Bool := c.isAlphanum || c == '_' || c == '-'

/-- What may stand before a bracketed argument, the bracket included: `v-` with a word and `:`, or
one of `@`, `:` and `#`. -/
def readBracketOpening? : List Char → Option (List Char × List Char)
  | 'v' :: '-' :: rest =>
    match rest.takeWhile isWordPart, rest.dropWhile isWordPart with
    | [], _ => none
    | word, ':' :: '[' :: after => some ('v' :: '-' :: word ++ [':', '['], after)
    | _, _ => none
  | c :: '[' :: after => if c == '@' || c == ':' || c == '#' then some ([c, '['], after) else none
  | _ => none

/-- The name of an attribute whose argument is in brackets. At least one character stands in the
brackets, which the first `]` after it closes; no `=` comes before that. -/
def readBracketedName? (s : List Char) : Option (List Char × List Char) :=
  match readBracketOpening? s with
  | some (opening, c :: inner) =>
    if c == '=' then none
    else
      match inner.dropWhile fun c => c != ']' && c != '=' with
      | ']' :: rest =>
        some (opening ++ c :: (inner.takeWhile fun c => c != ']' && c != '=') ++
          ']' :: rest.takeWhile isAttributeNamePart, rest.dropWhile isAttributeNamePart)
      | _ => none
  | _ => none

def readPlainName? (s : List Char) : Option (List Char × List Char) :=
  let name := s.takeWhile isAttributeNamePart
  if name.isEmpty then none else some (name, s.dropWhile isAttributeNamePart)

def readAttributeName? (s : List Char) : Option (List Char × List Char) :=
  match readBracketedName? s with
  | some found => some found
  | none => readPlainName? s

def readAttribute? (s : List Char) : Option (RawAttribute × List Char) :=
  match readAttributeName? (dropBlanks s) with
  | none => none
  | some (name, rest) =>
    match readAssignment? rest with
    | some ((assignment, value), after) => some (⟨leadingBlanks s, name, assignment, value⟩, after)
    | none => some (⟨leadingBlanks s, name, [], none⟩, rest)

/-- The end of a start tag. -/
structure TagClose where
  gap : List Char
  slash : Bool
  deriving DecidableEq, Repr

def TagClose.source (c : TagClose) : List Char :=
  c.gap ++ if c.slash then ['/', '>'] else ['>']

def readTagClose? (s : List Char) : Option (TagClose × List Char) :=
  match dropBlanks s with
  | '>' :: rest => some (⟨leadingBlanks s, false⟩, rest)
  | '/' :: '>' :: rest => some (⟨leadingBlanks s, true⟩, rest)
  | _ => none

/-- A complete start tag. -/
structure StartTag where
  name : List Char
  attributes : List RawAttribute
  close : TagClose
  deriving DecidableEq, Repr

def StartTag.source (t : StartTag) : List Char :=
  '<' :: t.name ++ t.attributes.flatMap RawAttribute.source ++ t.close.source

theorem readValue?_append {s written value rest : List Char}
    (h : readValue? s = some ((written, value), rest)) : written ++ rest = s := by
  cases s with
  | nil => simp [readValue?] at h
  | cons q t =>
    simp only [readValue?] at h
    split at h
    · split at h
      · simp at h
      · next c after hd =>
        obtain ⟨⟨rfl, rfl⟩, rfl⟩ := by simpa using h
        have := List.takeWhile_append_dropWhile (p := (· != q)) (l := t)
        rw [hd] at this
        simp [this]
    · split at h
      · simp at h
      · obtain ⟨⟨rfl, rfl⟩, rfl⟩ := by simpa using h
        exact List.takeWhile_append_dropWhile

theorem readAssignment?_append {s assignment value rest : List Char}
    (h : readAssignment? s = some ((assignment, value), rest)) : assignment ++ rest = s := by
  unfold readAssignment? at h
  split at h
  · next r hr =>
    split at h
    · next written v after hv =>
      obtain ⟨⟨rfl, rfl⟩, rfl⟩ := by simpa using h
      have h₁ := leadingBlanks_append_dropBlanks s
      have h₂ := leadingBlanks_append_dropBlanks r
      rw [hr, ← h₂, ← readValue?_append hv] at h₁
      simpa using h₁
    · simp at h
  · simp at h

theorem readBracketOpening?_append {s opening rest : List Char}
    (h : readBracketOpening? s = some (opening, rest)) : opening ++ rest = s := by
  unfold readBracketOpening? at h
  split at h
  · next t =>
    split at h
    · simp at h
    · next after hd _ =>
      obtain ⟨rfl, rfl⟩ := by simpa using h
      have := List.takeWhile_append_dropWhile (p := isWordPart) (l := t)
      rw [hd] at this
      simp [this]
    · simp at h
  · split at h
    · obtain ⟨rfl, rfl⟩ := by simpa using h
      rfl
    · simp at h
  · simp at h

theorem readBracketedName?_append {s name rest : List Char}
    (h : readBracketedName? s = some (name, rest)) : name ++ rest = s ∧ name ≠ [] := by
  unfold readBracketedName? at h
  split at h
  · next opening c inner ho =>
    split at h
    · simp at h
    · split at h
      · next after hd =>
        obtain ⟨rfl, rfl⟩ := by simpa using h
        have h₁ := List.takeWhile_append_dropWhile (p := fun c => c != ']' && c != '=') (l := inner)
        rw [hd] at h₁
        have h₂ := readBracketOpening?_append ho
        rw [← h₁] at h₂
        refine ⟨?_, by simp⟩
        rw [← h₂]
        simp
      · simp at h
  · simp at h

theorem readPlainName?_append {s name rest : List Char}
    (h : readPlainName? s = some (name, rest)) : name ++ rest = s ∧ name ≠ [] := by
  simp only [readPlainName?] at h
  split at h
  · simp at h
  · next hne =>
    obtain ⟨rfl, rfl⟩ := by simpa using h
    exact ⟨List.takeWhile_append_dropWhile, by simpa using hne⟩

theorem readAttributeName?_append {s name rest : List Char}
    (h : readAttributeName? s = some (name, rest)) : name ++ rest = s ∧ name ≠ [] := by
  unfold readAttributeName? at h
  split at h
  · next found hf =>
    cases h
    exact readBracketedName?_append hf
  · exact readPlainName?_append h

theorem readAttribute?_append {s : List Char} {a : RawAttribute} {rest : List Char}
    (h : readAttribute? s = some (a, rest)) : a.source ++ rest = s ∧ a.name ≠ [] := by
  unfold readAttribute? at h
  split at h
  · simp at h
  · next name r hname =>
    obtain ⟨h₁, h₂⟩ := readAttributeName?_append hname
    have h₀ := leadingBlanks_append_dropBlanks s
    split at h
    · next assignment value after ha =>
      obtain ⟨rfl, rfl⟩ := by simpa using h
      have h₃ := readAssignment?_append ha
      refine ⟨?_, h₂⟩
      rw [← h₁, ← h₃] at h₀
      simpa [RawAttribute.source] using h₀
    · obtain ⟨rfl, rfl⟩ := by simpa using h
      refine ⟨?_, h₂⟩
      rw [← h₁] at h₀
      simpa [RawAttribute.source] using h₀

theorem length_lt_of_readAttribute? {s : List Char} {a : RawAttribute} {rest : List Char}
    (h : readAttribute? s = some (a, rest)) : rest.length < s.length := by
  obtain ⟨rfl, hne⟩ := readAttribute?_append h
  have := List.length_pos_iff.mpr hne
  simp [RawAttribute.source]
  omega

/-- Attributes up to the end of the tag. -/
def readAttributes? (s : List Char) : Option ((List RawAttribute × TagClose) × List Char) :=
  match readTagClose? s with
  | some (close, rest) => some (([], close), rest)
  | none =>
    match h : readAttribute? s with
    | none => none
    | some (a, rest) =>
      have := length_lt_of_readAttribute? h
      match readAttributes? rest with
      | some ((attributes, close), after) => some ((a :: attributes, close), after)
      | none => none
termination_by s.length

/-- A complete start tag at the beginning of a text, and what follows it. -/
def readStartTag? : List Char → Option (StartTag × List Char)
  | '<' :: s =>
    match readName? s with
    | none => none
    | some (name, rest) =>
      match readAttributes? rest with
      | some ((attributes, close), after) => some (⟨name, attributes, close⟩, after)
      | none => none
  | _ => none

theorem readTagClose?_append {s : List Char} {close : TagClose} {rest : List Char}
    (h : readTagClose? s = some (close, rest)) : close.source ++ rest = s := by
  have h₀ := leadingBlanks_append_dropBlanks s
  unfold readTagClose? at h
  split at h
  · next hd =>
    obtain ⟨rfl, rfl⟩ := by simpa using h
    rw [hd] at h₀
    simpa [TagClose.source] using h₀
  · next hd =>
    obtain ⟨rfl, rfl⟩ := by simpa using h
    rw [hd] at h₀
    simpa [TagClose.source] using h₀
  · simp at h

theorem readAttributes?_append {s : List Char} {attributes : List RawAttribute} {close : TagClose}
    {rest : List Char} (h : readAttributes? s = some ((attributes, close), rest)) :
    attributes.flatMap RawAttribute.source ++ close.source ++ rest = s := by
  fun_induction readAttributes? s generalizing attributes close rest with
  | case1 s found r hclose =>
    obtain ⟨⟨rfl, rfl⟩, rfl⟩ := by simpa using h
    simpa using readTagClose?_append hclose
  | case2 => simp at h
  | case3 s _ a r ha _ more found after hmore ih =>
    obtain ⟨⟨rfl, rfl⟩, rfl⟩ := by simpa using h
    rw [← (readAttribute?_append ha).1, ← ih hmore]
    simp
  | case4 => simp at h

/-- A start tag is read without loss. -/
theorem readStartTag?_append {s : List Char} {t : StartTag} {rest : List Char}
    (h : readStartTag? s = some (t, rest)) : t.source ++ rest = s := by
  unfold readStartTag? at h
  split at h
  · split at h
    · simp at h
    · next name r hname =>
      split at h
      · next attributes close after ha =>
        obtain ⟨rfl, rfl⟩ := by simpa using h
        rw [← readName?_append hname, ← readAttributes?_append ha]
        simp [StartTag.source]
      · simp at h
  · simp at h

end HtmlTemplate.Markup
