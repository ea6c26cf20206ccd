import HtmlTemplate.Proofs.Spellings

/-!
# Tokens of render code

A token (`Terminal`) is spelled in one of many ways: a text or a number by any literal that has its
value. A text is laid out from tokens when it has their spellings in order, with any blanks before
each and at the end (`Layout`). In the other direction, a text is cut into tokens by taking words
and numbers as long as they go (`lexemes?`). Both tell at which bytes each token stands, and what a
text is cut into it is laid out from (`layout_of_lexemes?`).
-/

namespace HtmlTemplate.Code

open Text

/-- A token of render code: a word, a text or a number by its value, or a mark of punctuation. -/
inductive Terminal where
  | word (name : String)
  | text (value : String)
  | number (value : Json.Number)
  | mark (c : Char)

def isPunctuation (c : Char) : Bool :=
  c == '(' || c == ')' || c == '[' || c == ']' || c == ',' || c == '.'

/-- The characters are a way to write the token. -/
inductive Terminal.Spells : Terminal → List Char → Prop
  | word {name : String} : isWord name = true → Spells (.word name) name.toList
  | text {body value : List Char} : Json.textOfLiteral (body ++ ['"']) = .ok value →
      Spells (.text (String.ofList value)) ('"' :: (body ++ ['"']))
  | number {s : List Char} {n : Json.Number} : Json.number? s = some n → Spells (.number n) s
  | mark {c : Char} : isPunctuation c = true → Spells (.mark c) [c]

/-- A token with the bytes at which it begins and behind which it ends. -/
structure Lexeme where
  token : Terminal
  start : Nat
  stop : Nat

/-- A text that begins at byte `p` and has these tokens in order, and blanks before each of them and
at the end. -/
inductive Layout : Nat → List Char → List Lexeme → Prop
  | blanks {p : Nat} {s : List Char} : dropBlanks s = [] → Layout p s []
  | token {p : Nat} {blanks written rest : List Char} {t : Terminal} {ts : List Lexeme} :
      (∀ c ∈ blanks, isBlank c = true) → t.Spells written →
      Layout (p + extent blanks + extent written) rest ts →
      Layout p (blanks ++ (written ++ rest))
        (⟨t, p + extent blanks, p + extent blanks + extent written⟩ :: ts)

/-- The token that a text begins with, how it is written, and what follows it. -/
def Terminal.read? : List Char → Option (Terminal × List Char × List Char)
  | [] => none
  | c :: s =>
    if c == '"' then
      match splitLiteral? s with
      | none => none
      | some (body, rest) =>
        match Json.textOfLiteral (body ++ ['"']) with
        | .error _ => none
        | .ok value => some (.text (String.ofList value), '"' :: (body ++ ['"']), rest)
    else if isWordStart c then
      some (.word (wordFrom c s), c :: s.takeWhile isWordPart, s.dropWhile isWordPart)
    else if c.isDigit || c == '-' then
      match Json.number? (c :: s.takeWhile isNumberPart) with
      | none => none
      | some n => some (.number n, c :: s.takeWhile isNumberPart, s.dropWhile isNumberPart)
    else if isPunctuation c then some (.mark c, [c], s)
    else none

theorem isWord_wordFrom {c : Char} (hc : isWordStart c = true) (s : List Char) :
    isWord (wordFrom c s) = true := by
  have hparts : (s.takeWhile isWordPart).all isWordPart = true := List.all_takeWhile
  simp only [isWord, wordFrom, String.toList_ofList, hc, hparts, Bool.and_self]

theorem Terminal.spells_of_read? {s written rest : List Char} {t : Terminal}
    (h : Terminal.read? s = some (t, written, rest)) : s = written ++ rest ∧ t.Spells written := by
  unfold Terminal.read? at h
  split at h
  · cases h
  · next c s =>
    split at h
    · next hquote =>
      obtain rfl : c = '"' := by simpa using hquote
      split at h
      · cases h
      · next body after hsplit =>
        split at h
        · cases h
        · next value hvalue =>
          cases h
          refine ⟨?_, .text hvalue⟩
          rw [← splitLiteral?_append hsplit]
          simp
    split at h
    · next hstart =>
      cases h
      have hspells := Terminal.Spells.word (isWord_wordFrom hstart s)
      rw [wordFrom, String.toList_ofList] at hspells
      exact ⟨congrArg (c :: ·) List.takeWhile_append_dropWhile.symm, hspells⟩
    split at h
    · split at h
      · cases h
      · next n hn =>
        cases h
        exact ⟨congrArg (c :: ·) List.takeWhile_append_dropWhile.symm, .number hn⟩
    split at h
    · next hmark =>
      cases h
      exact ⟨rfl, .mark hmark⟩
    · cases h

theorem isBlank_eq_false_of_isPunctuation {c : Char} (h : isPunctuation c = true) :
    isBlank c = false := by
  simp only [isPunctuation, Bool.or_eq_true, beq_iff_eq] at h
  rcases h with ((((rfl | rfl) | rfl) | rfl) | rfl) | rfl <;> decide

theorem isBlank_eq_false_of_numberStart {c : Char} (h : (c.isDigit || c == '-') = true) :
    isBlank c = false := by
  rcases Bool.or_eq_true .. ▸ h with h | h
  · exact isBlank_eq_false_of_isDigit h
  · obtain rfl : c = '-' := by simpa using h
    decide

theorem eq_cons_of_isWord {name : String} (h : isWord name = true) :
    ∃ c s, name.toList = c :: s ∧ isWordStart c = true ∧ ∀ d ∈ s, isWordPart d = true := by
  unfold isWord at h
  split at h
  · cases h
  · next c s hname => exact ⟨c, s, hname, by simpa using h⟩

/-- A token begins with a character that is no blank. -/
theorem Terminal.Spells.eq_cons {t : Terminal} {written : List Char} (h : t.Spells written) :
    ∃ c s, written = c :: s ∧ isBlank c = false := by
  cases h with
  | word hname =>
    obtain ⟨c, s, hs, hc, -⟩ := eq_cons_of_isWord hname
    exact ⟨c, s, hs, isBlank_eq_false_of_isWordStart hc⟩
  | text => exact ⟨_, _, rfl, by decide⟩
  | number hn =>
    obtain ⟨c, s, rfl, hc, -⟩ := Json.isNumberPart_of_number? hn
    exact ⟨c, s, rfl, isBlank_eq_false_of_numberStart hc⟩
  | mark hc => exact ⟨_, _, rfl, isBlank_eq_false_of_isPunctuation hc⟩

theorem Terminal.length_read? {s written rest : List Char} {t : Terminal}
    (h : Terminal.read? s = some (t, written, rest)) : rest.length < s.length := by
  obtain ⟨rfl, hspells⟩ := Terminal.spells_of_read? h
  obtain ⟨c, tail, rfl, -⟩ := hspells.eq_cons
  rw [List.length_append, List.length_cons]
  omega

/-- The tokens of a text that begins at byte `p`. Blanks between them are dropped. -/
def lexemes? (p : Nat) (s : List Char) : Option (List Lexeme) :=
  if dropBlanks s = [] then some []
  else
    match h : Terminal.read? (dropBlanks s) with
    | none => none
    | some (t, written, rest) =>
      have : rest.length < s.length := by
        have := Terminal.length_read? h
        have := length_dropBlanks_le s
        omega
      (lexemes? (p + extent (leadingBlanks s) + extent written) rest).map
        (⟨t, p + extent (leadingBlanks s), p + extent (leadingBlanks s) + extent written⟩ :: ·)
termination_by s.length

theorem lexemes?_of_blank {p : Nat} {s : List Char} (h : dropBlanks s = []) :
    lexemes? p s = some [] := by
  rw [lexemes?, if_pos h]

/-- One token more in front. -/
theorem lexemes?_of_read? {p : Nat} {s written rest : List Char} {t : Terminal} {ts : List Lexeme}
    (h : Terminal.read? (dropBlanks s) = some (t, written, rest))
    (hrest : lexemes? (p + extent (leadingBlanks s) + extent written) rest = some ts) :
    lexemes? p s = some (⟨t, p + extent (leadingBlanks s),
      p + extent (leadingBlanks s) + extent written⟩ :: ts) := by
  have hs : dropBlanks s ≠ [] := by
    intro hs
    rw [hs] at h
    cases h
  rw [lexemes?, if_neg hs]
  split
  · next hnone =>
    rw [hnone] at h
    cases h
  · next hsome =>
    rw [hsome] at h
    cases h
    simp only [hrest, Option.map_some]

theorem leadingBlanks_dropBlanks (s : List Char) : leadingBlanks (dropBlanks s) = [] := by
  induction s with
  | nil => rfl
  | cons c s ih =>
    by_cases hc : isBlank c = true
    · simpa [dropBlanks, hc] using ih
    · simp [dropBlanks, leadingBlanks, hc]

theorem dropBlanks_dropBlanks (s : List Char) : dropBlanks (dropBlanks s) = dropBlanks s := by
  have h := leadingBlanks_append_dropBlanks (dropBlanks s)
  rwa [leadingBlanks_dropBlanks, List.nil_append] at h

/-- Blanks before the first token make no difference but to the position. -/
theorem lexemes?_skipBlanks (c : Cursor) :
    lexemes? c.skipBlanks.position c.skipBlanks.rest = lexemes? c.position c.rest := by
  have hdrop := dropBlanks_dropBlanks c.rest
  rw [lexemes?, lexemes?]
  simp only [Cursor.skipBlanks, leadingBlanks_dropBlanks, extent_nil, Nat.add_zero]
  generalize dropBlanks (dropBlanks c.rest) = s at hdrop ⊢
  subst hdrop
  rfl

/-- What a text is cut into it is laid out from. -/
theorem layout_of_lexemes? {p : Nat} {s : List Char} {ts : List Lexeme}
    (h : lexemes? p s = some ts) : Layout p s ts := by
  fun_induction lexemes? p s generalizing ts with
  | case1 p s hblank =>
    cases h
    exact .blanks hblank
  | case2 => cases h
  | case3 p s hblank t written rest hread _ ih =>
    obtain ⟨more, hmore, rfl⟩ := Option.map_eq_some_iff.1 h
    obtain ⟨hs, hspells⟩ := Terminal.spells_of_read? hread
    have hblanks : ∀ c ∈ leadingBlanks s, isBlank c = true := fun c hc => List.mem_takeWhile_imp hc
    have htoken := Layout.token hblanks hspells (ih hmore)
    rwa [← hs, leadingBlanks_append_dropBlanks] at htoken

theorem Cursor.skipBlanks_skipBlanks (c : Cursor) : c.skipBlanks.skipBlanks = c.skipBlanks := by
  simp only [Cursor.skipBlanks, dropBlanks_dropBlanks, leadingBlanks_dropBlanks, extent_nil,
    Nat.add_zero]

/-- Where skipping blanks does not move on, there are none. -/
theorem Cursor.eq_of_skipBlanks {p : Nat} {s t : List Char}
    (h : (Cursor.mk p s).skipBlanks = ⟨p, t⟩) : s = t := by
  obtain ⟨hposition, hs⟩ := Cursor.mk.inj h
  have hblanks : leadingBlanks s = [] := eq_nil_of_extent_eq_zero (by
    simp only at hposition
    omega)
  rw [← leadingBlanks_append_dropBlanks s, hblanks, List.nil_append]
  exact hs

theorem skipBlanks_append_of_blank {blanks : List Char} (h : ∀ c ∈ blanks, isBlank c = true)
    {c : Char} (hc : isBlank c = false) (p : Nat) (s : List Char) :
    (Cursor.mk p (blanks ++ c :: s)).skipBlanks = ⟨p + extent blanks, c :: s⟩ := by
  simp [Cursor.skipBlanks, leadingBlanks, dropBlanks, List.takeWhile_append_of_pos h,
    List.dropWhile_append_of_pos h, hc]

/-- The first token, if there is one, is a mark of this kind. -/
def Marked (kind : Char → Bool) (ts : List Lexeme) : Prop :=
  ∀ l ∈ ts.head?, ∃ c, l.token = .mark c ∧ kind c = true

theorem marked_cons {kind : Char → Bool} {c : Char} {start stop : Nat} {ts : List Lexeme}
    (hc : kind c = true) : Marked kind (⟨.mark c, start, stop⟩ :: ts) := by
  rintro l ⟨⟩
  exact ⟨c, rfl, hc⟩

theorem marked_self {c : Char} {start stop : Nat} {ts : List Lexeme} :
    Marked (· == c) (⟨.mark c, start, stop⟩ :: ts) :=
  marked_cons (beq_self_eq_true c)

namespace Layout

variable {p start stop : Nat} {s : List Char} {t : Terminal} {ts : List Lexeme}

/-- A layout up to its first token: the blanks, the token and the layout of the rest. -/
theorem cons_iff : Layout p s (⟨t, start, stop⟩ :: ts) ↔ ∃ written rest, t.Spells written ∧
    (Cursor.mk p s).skipBlanks = ⟨start, written ++ rest⟩ ∧ stop = start + extent written ∧
    Layout stop rest ts := by
  constructor
  · rintro ⟨⟩
    next blanks written rest hblanks hspells hrest =>
    refine ⟨written, rest, hspells, ?_, rfl, hrest⟩
    obtain ⟨c, tail, rfl, hc⟩ := hspells.eq_cons
    exact skipBlanks_append_of_blank hblanks hc p _
  · rintro ⟨written, rest, hspells, hskip, rfl, hrest⟩
    obtain ⟨rfl, hs⟩ := Cursor.mk.inj hskip
    have hblanks : ∀ c ∈ leadingBlanks s, isBlank c = true := fun c hc => List.mem_takeWhile_imp hc
    have htoken := Layout.token hblanks hspells hrest
    rwa [← hs, leadingBlanks_append_dropBlanks] at htoken

theorem dropBlanks_eq_nil (h : Layout p s []) : dropBlanks s = [] := by
  cases h with
  | blanks h => exact h

/-- Blanks before the first token make no difference but to the position. -/
theorem skipBlanks (h : Layout p s ts) :
    Layout (Cursor.mk p s).skipBlanks.position (Cursor.mk p s).skipBlanks.rest ts := by
  cases ts with
  | nil => exact .blanks (by rw [Cursor.skipBlanks, dropBlanks_dropBlanks, h.dropBlanks_eq_nil])
  | cons l ts =>
    obtain ⟨written, rest, hspells, hskip, hstop, hrest⟩ := cons_iff.1 h
    refine cons_iff.2 ⟨written, rest, hspells, ?_, hstop, hrest⟩
    rw [← hskip, Cursor.skipBlanks_skipBlanks]

theorem mark {c : Char} (h : Layout p s (⟨.mark c, start, stop⟩ :: ts)) :
    ∃ rest, (Cursor.mk p s).skipBlanks = ⟨start, c :: rest⟩ ∧ stop = start + extent [c] ∧
      Layout stop rest ts := by
  obtain ⟨_, rest, hspells, hskip, hstop, hrest⟩ := cons_iff.1 h
  cases hspells
  exact ⟨rest, hskip, hstop, hrest⟩

/-- Where a mark is the first token it is stepped over. -/
theorem take? {c : Char} (h : Layout p s (⟨.mark c, start, stop⟩ :: ts)) :
    ∃ d, (Cursor.mk p s).take? c = some d ∧ Layout d.position d.rest ts := by
  obtain ⟨rest, hskip, rfl, hrest⟩ := h.mark
  refine ⟨⟨start + extent [c], rest⟩, Cursor.take?_eq_some_iff.2 ⟨?_, ?_⟩, hrest⟩
  · exact (Cursor.mk.inj hskip).2
  · simp [hskip]

/-- The first character that is no blank, where a mark is the first token. -/
theorem head?_dropBlanks {c : Char} (h : Layout p s (⟨.mark c, start, stop⟩ :: ts)) :
    (dropBlanks s).head? = some c := by
  obtain ⟨rest, hskip, -⟩ := h.mark
  rw [(Cursor.mk.inj hskip).2]
  rfl

/-- Where the first token is a mark of a kind, the first character that is no blank is one. -/
theorem head?_of_marked {kind : Char → Bool} (h : Layout p s ts) (hts : Marked kind ts) :
    ∀ c ∈ (dropBlanks s).head?, kind c = true := by
  intro c hc
  cases ts with
  | nil => simp [h.dropBlanks_eq_nil] at hc
  | cons l ts =>
    rcases l with ⟨t, start, stop⟩
    obtain ⟨d, ht, hd⟩ := hts _ rfl
    obtain rfl : t = .mark d := ht
    rw [h.head?_dropBlanks] at hc
    cases hc
    exact hd

/-- A mark of another kind is not stepped over. -/
theorem take?_eq_none {kind : Char → Bool} (h : Layout p s ts) (hts : Marked kind ts) {c : Char}
    (hc : kind c = false) : (Cursor.mk p s).take? c = none := by
  rw [Cursor.take?_eq_none_iff]
  intro hhead
  rw [h.head?_of_marked hts c hhead] at hc
  cases hc

end Layout

/-- The first character of a text is a blank, or it is the first that is none. -/
theorem isBlank_or_mem_head?_dropBlanks {c : Char} {s : List Char} (h : c ∈ s.head?) :
    isBlank c = true ∨ c ∈ (dropBlanks s).head? := by
  cases s with
  | nil => cases h
  | cons d s =>
    obtain rfl : d = c := by simpa using h
    by_cases hd : isBlank d = true
    · exact .inl hd
    · right
      simp [dropBlanks, hd]

end HtmlTemplate.Code
