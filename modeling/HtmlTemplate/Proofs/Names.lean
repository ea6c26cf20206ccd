import HtmlTemplate.Markup.Construct
import Mathlib.Data.List.TakeWhile

/-!
# Reading names with other text behind them

A name ends before the first character that cannot be part of one. So what a name is read as depends
only on the text before such a character, unless that is a colon (`readName?_append_cons`); a name
that was read is a qualified name in its own right (`isQualifiedName_of_readName?`), and an end tag
is read again out of its own source (`readEndTag?_source`).
-/

namespace HtmlTemplate.Markup

section

variable {p : Char → Bool} {c : Char} (hc : p c = false) (s rest : List Char)
include hc

theorem takeWhile_append_cons : (s ++ c :: rest).takeWhile p = s.takeWhile p := by
  induction s with
  | nil => simp [hc]
  | cons d s ih => simp [List.takeWhile_cons, ih]

theorem dropWhile_append_cons : (s ++ c :: rest).dropWhile p = s.dropWhile p ++ c :: rest := by
  induction s with
  | nil => simp [hc]
  | cons d s ih =>
    rw [List.cons_append, List.dropWhile_cons, List.dropWhile_cons, ih]
    split <;> rfl

end

theorem isNamePart_of_isNameStart {c : Char} (h : isNameStart c = true) : isNamePart c = true := by
  simp only [isNameStart, Bool.or_eq_true] at h
  simp only [isNamePart, Char.isAlphanum, Bool.or_eq_true]
  grind

/-! ### Names and what follows them -/

section

variable {c : Char} (hc : isNamePart c = false)
include hc

theorem readSimpleName?_append_cons (s rest : List Char) :
    readSimpleName? (s ++ c :: rest) =
      (readSimpleName? s).map fun found => (found.1, found.2 ++ c :: rest) := by
  cases s with
  | nil =>
    have hstart : isNameStart c = false := by
      rw [Bool.eq_false_iff]
      intro h
      rw [isNamePart_of_isNameStart h] at hc
      cases hc
    simp [readSimpleName?, hstart]
  | cons d s =>
    simp only [List.cons_append, readSimpleName?, takeWhile_append_cons hc,
      dropWhile_append_cons hc]
    split <;> rfl

/-- What a name is read as does not depend on what follows a character that cannot be part of it. -/
theorem readName?_append_cons (hcolon : c ≠ ':') (s rest : List Char) :
    readName? (s ++ c :: rest) =
      (readName? s).map fun found => (found.1, found.2 ++ c :: rest) := by
  unfold readName?
  rw [readSimpleName?_append_cons hc]
  rcases readSimpleName? s with _ | ⟨name, _ | ⟨d, after⟩⟩
  · rfl
  · simp [hcolon]
  · by_cases hd : d = ':'
    · subst hd
      simp only [Option.map_some, List.cons_append, readSimpleName?_append_cons hc]
      rcases readSimpleName? after with _ | ⟨second, more⟩ <;> rfl
    · simp [hd]

end

theorem readSimpleName?_self {s name rest : List Char}
    (h : readSimpleName? s = some (name, rest)) : readSimpleName? name = some (name, []) := by
  cases s with
  | nil => cases h
  | cons c s =>
    simp only [readSimpleName?] at h
    split at h
    · next hc =>
      obtain ⟨rfl, rfl⟩ := by simpa using h
      have hall : ∀ d ∈ s.takeWhile isNamePart, isNamePart d = true :=
        fun d hd => List.mem_takeWhile_imp hd
      simp only [readSimpleName?, hc, if_true, List.takeWhile_eq_self_iff.2 hall,
        List.dropWhile_eq_nil_iff.2 hall]
    · cases h

/-- A name that was read is a qualified name on its own. -/
theorem isQualifiedName_of_readName? {s name rest : List Char}
    (h : readName? s = some (name, rest)) : isQualifiedName name = true := by
  unfold readName? at h
  rw [isQualifiedName, beq_iff_eq]
  split at h
  · cases h
  · next first after hfirst =>
    have hself := readSimpleName?_self hfirst
    split at h
    · next second tail hsecond =>
      obtain ⟨rfl, rfl⟩ := by simpa using h
      unfold readName?
      rw [readSimpleName?_append_cons (by decide), hself]
      simp [readSimpleName?_self hsecond]
    · obtain ⟨rfl, rfl⟩ := by simpa using h
      unfold readName?
      rw [hself]
  · next hfirst =>
    obtain ⟨rfl, rfl⟩ := by simpa using h
    unfold readName?
    rw [readSimpleName?_self hfirst]

/-- A qualified name is read up to a character that ends it. -/
theorem readName?_of_isQualifiedName {name : List Char} (h : isQualifiedName name = true) {c : Char}
    (hc : isNamePart c = false) (hcolon : c ≠ ':') (rest : List Char) :
    readName? (name ++ c :: rest) = some (name, c :: rest) := by
  rw [isQualifiedName, beq_iff_eq] at h
  rw [readName?_append_cons hc hcolon, h]
  rfl

theorem exists_cons_of_isQualifiedName {name : List Char} (h : isQualifiedName name = true) :
    ∃ c rest, name = c :: rest ∧ isNameStart c = true := by
  rw [isQualifiedName, beq_iff_eq] at h
  cases name with
  | nil => cases h
  | cons c rest =>
    refine ⟨c, rest, rfl, ?_⟩
    by_contra hc
    simp [readName?, readSimpleName?, hc] at h

/-! ### End tags -/

theorem eq_of_dropWhile_ne {c d : Char} {s rest : List Char}
    (h : s.dropWhile (· != c) = d :: rest) : d = c := by
  have hhead := List.head_dropWhile_not (· != c) (l := s) (by simp [h])
  simpa [h] using hhead

/-- An end tag is read again out of its own source. -/
theorem readEndTag?_source {s : List Char} {t : Taken (List Char)} (h : readEndTag? s = some t) :
    readEndTag? t.source = some ⟨t.found, t.source, []⟩ := by
  unfold readEndTag? at h
  split at h
  · next s =>
    split at h
    · cases h
    · next name after hname =>
      split at h
      · cases h
      · next gt rest hrest =>
        obtain rfl := by simpa using h
        obtain rfl := eq_of_dropWhile_ne hrest
        have hinner : ∀ c ∈ after.takeWhile (· != '>'), (c != '>') = true :=
          fun _ hc => List.mem_takeWhile_imp (p := (· != '>')) hc
        generalize hjunk : after.takeWhile (· != '>') = junk at hinner ⊢
        have hafter : after = junk ++ '>' :: rest := by
          rw [← hjunk, ← hrest, List.takeWhile_append_dropWhile]
        have hs := readName?_append hname
        -- the name is settled before the mark that closes the tag
        rw [← hs, hafter, ← List.append_assoc, readName?_append_cons (by decide) (by decide)]
          at hname
        obtain ⟨⟨name', junk'⟩, hname', heq⟩ := Option.map_eq_some_iff.1 hname
        obtain ⟨rfl, hjunk'⟩ := by simpa using heq
        obtain rfl := hjunk'
        have hread : readName? (name' ++ (junk' ++ ['>'])) = some (name', junk' ++ ['>']) := by
          rw [← List.append_assoc, readName?_append_cons (by decide) (by decide), hname']
          rfl
        have htake : (junk' ++ ['>']).takeWhile (· != '>') = junk' := by
          rw [takeWhile_append_cons (by decide), List.takeWhile_eq_self_iff.2 hinner]
        have hdrop : (junk' ++ ['>']).dropWhile (· != '>') = ['>'] := by
          rw [dropWhile_append_cons (by decide), List.dropWhile_eq_nil_iff.2 hinner]
          rfl
        simp only [readEndTag?, List.cons_append, List.append_assoc, hread, htake, hdrop]
  · cases h

end HtmlTemplate.Markup
