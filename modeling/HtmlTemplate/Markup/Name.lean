/-!
# Qualified names

A name begins with an ASCII letter or `_` and goes on with letters, digits, `-`, `.`, `_` and most
characters beyond ASCII. One colon may join two names. Reading takes the longest name there is;
a colon that no second name follows is left alone.
-/

namespace HtmlTemplate.Markup

def isNameStart (c : Char) : Bool := c.isAlpha || c == '_'

def isNamePart (c : Char) : Bool :=
  c.isAlphanum || c == '-' || c == '.' || c == '_' || c == '\u00b7' ||
    [(0xc0, 0xd6), (0xd8, 0xf6), (0xf8, 0x37d), (0x37f, 0x1fff), (0x200c, 0x200d),
      (0x203f, 0x2040), (0x2070, 0x218f), (0x2c00, 0x2fef), (0x3001, 0xd7ff), (0xf900, 0xfdcf),
      (0xfdf0, 0xfffd)].any fun run => run.1 ≤ c.toNat && c.toNat ≤ run.2

/-- A name without a colon, and what follows it. -/
def readSimpleName? : List Char → Option (List Char × List Char)
  | [] => none
  | c :: rest =>
    if isNameStart c then some (c :: rest.takeWhile isNamePart, rest.dropWhile isNamePart)
    else none

/-- A name or two names joined by a colon, and what follows. -/
def readName? (s : List Char) : Option (List Char × List Char) :=
  match readSimpleName? s with
  | none => none
  | some (name, ':' :: rest) =>
    match readSimpleName? rest with
    | some (second, after) => some (name ++ ':' :: second, after)
    | none => some (name, ':' :: rest)
  | some (name, rest) => some (name, rest)

/-- Whether a text is one qualified name and nothing else. -/
def isQualifiedName (s : List Char) : Bool := readName? s == some (s, [])

theorem readSimpleName?_append {s name rest : List Char}
    (h : readSimpleName? s = some (name, rest)) : name ++ rest = s := by
  cases s with
  | nil => simp [readSimpleName?] at h
  | cons c t =>
    simp only [readSimpleName?] at h
    split at h
    · obtain ⟨rfl, rfl⟩ := by simpa using h
      simp
    · simp at h

theorem readSimpleName?_ne_nil {s name rest : List Char}
    (h : readSimpleName? s = some (name, rest)) : name ≠ [] := by
  cases s with
  | nil => simp [readSimpleName?] at h
  | cons c t =>
    simp only [readSimpleName?] at h
    split at h
    · obtain ⟨rfl, rfl⟩ := by simpa using h
      simp
    · simp at h

theorem readName?_append {s name rest : List Char} (h : readName? s = some (name, rest)) :
    name ++ rest = s := by
  unfold readName? at h
  split at h
  · simp at h
  · next first after hfirst =>
    have hs := readSimpleName?_append hfirst
    split at h
    · next second tail hsecond =>
      have ht := readSimpleName?_append hsecond
      obtain ⟨rfl, rfl⟩ := by simpa using h
      simp [← hs, ← ht]
    · obtain ⟨rfl, rfl⟩ := by simpa using h
      exact hs
  · next hfirst =>
    obtain ⟨rfl, rfl⟩ := by simpa using h
    exact readSimpleName?_append hfirst

theorem readName?_ne_nil {s name rest : List Char} (h : readName? s = some (name, rest)) :
    name ≠ [] := by
  unfold readName? at h
  split at h
  · simp at h
  · next first after hfirst =>
    split at h
    · obtain ⟨rfl, rfl⟩ := by simpa using h
      simp
    · obtain ⟨rfl, rfl⟩ := by simpa using h
      exact readSimpleName?_ne_nil hfirst
  · next hfirst =>
    obtain ⟨rfl, rfl⟩ := by simpa using h
    exact readSimpleName?_ne_nil hfirst

end HtmlTemplate.Markup
