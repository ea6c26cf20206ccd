import HtmlTemplate.Template.Check
import Mathlib.Data.List.Infix

/-!
# Keywords outside literals

The search for a keyword takes the words of an expression outside literals and returns the first one
that is a keyword. Where literals end depends on which quotes are escaped; that is a rule about the
text of the literal before the quote (`Outside`). The search takes a quote right behind a backslash
as escaped. In the language of expressions it is the number of backslashes that counts, for a
backslash may be escaped itself. The two rules read an expression alike exactly if no literal of it
ends behind an escaped backslash (`keyword?_first`).

The search is followed for any rule: what was passed lies outside literals or in one of which the
text so far is known (`Spot`), and outside a word may have begun (`Frontier`).
-/

namespace HtmlTemplate.Template

/-! ### Outside literals -/

/-- The text ends with an odd number of backslashes, so that the last one escapes what follows. -/
def endsEscaping (text : List Char) : Bool :=
  (text.reverse.takeWhile (· == '\\')).length % 2 == 1

def endsWithBackslash (text : List Char) : Bool := text.getLast? == some '\\'

/-- All quotes in the text of a literal are escaped. -/
def Unclosed (escapes : List Char → Bool) (quote : Char) (text : List Char) : Prop :=
  ∀ before after, text = before ++ quote :: after → escapes before = true

/-- The end of a text lies outside its literals. A literal ends at the first quote like the one that
opens it that its text before this quote does not escape. -/
inductive Outside (escapes : List Char → Bool) : List Char → Prop
  | nil : Outside escapes []
  | bare {s c} : Outside escapes s → isLiteralQuote c = false → Outside escapes (s ++ [c])
  | literal {s quote text} : Outside escapes s → isLiteralQuote quote = true →
      Unclosed escapes quote text → escapes text = false →
      Outside escapes (s ++ quote :: text ++ [quote])

/-- A word of a text outside its literals, with what stands before and behind it: it is as long as
it can be. -/
structure BareWord (escapes : List Char → Bool) (s before : List Char) (word : String)
    (after : List Char) : Prop where
  eq : s = before ++ word.toList ++ after
  outside : Outside escapes before
  ne_nil : word.toList ≠ []
  parts : ∀ c ∈ word.toList, isKeywordPart c = true
  starts : ∀ c, before.getLast? = some c → isKeywordPart c = false
  stops : ∀ c, after.head? = some c → isKeywordPart c = false

/-- The first keyword among the words outside literals that begin at a position or behind it. -/
def FirstKeywordFrom (escapes : List Char → Bool) (s : List Char) (start : Nat) :
    Option String → Prop
  | none => ∀ before word after, BareWord escapes s before word after → start ≤ before.length →
      word ∉ keywords
  | some keyword => keyword ∈ keywords ∧ ∃ before after, BareWord escapes s before keyword after ∧
      start ≤ before.length ∧ ∀ before' word' after', BareWord escapes s before' word' after' →
        start ≤ before'.length → before'.length < before.length → word' ∉ keywords

/-- The first keyword outside literals; none if there is none. -/
def FirstKeyword (escapes : List Char → Bool) (s : List Char) (found : Option String) : Prop :=
  FirstKeywordFrom escapes s 0 found

/-! ### Following a text -/

/-- Where one is after part of a text: outside literals, or in a literal of which the opening quote
and the text so far are known. -/
inductive Spot where
  | bare
  | literal (quote : Char) (text : List Char)
  deriving DecidableEq

namespace Spot

variable (escapes : List Char → Bool)

def next : Spot → Char → Spot
  | .bare, c => if isLiteralQuote c then .literal c [] else .bare
  | .literal quote text, c =>
    if c == quote && !escapes text then .bare else .literal quote (text ++ [c])

def after (s : List Char) : Spot := s.foldl (next escapes) .bare

@[simp] theorem after_nil : after escapes [] = .bare := rfl

@[simp] theorem after_append_singleton (s : List Char) (c : Char) :
    after escapes (s ++ [c]) = (after escapes s).next escapes c := by
  rw [after, List.foldl_append]
  rfl

/-- What a spot says about the text that leads to it. -/
inductive Of (s : List Char) : Spot → Prop
  | bare : Outside escapes s → Of s .bare
  | literal {before quote text} : s = before ++ quote :: text → Outside escapes before →
      isLiteralQuote quote = true → Unclosed escapes quote text → Of s (.literal quote text)

end Spot

section

variable {escapes : List Char → Bool}

theorem unclosed_nil (quote : Char) : Unclosed escapes quote [] := by
  intro before after h
  simp at h

theorem Unclosed.append_singleton {quote c : Char} {text : List Char}
    (h : Unclosed escapes quote text) (hc : c = quote → escapes text = true) :
    Unclosed escapes quote (text ++ [c]) := by
  intro before after heq
  rcases List.eq_nil_or_concat' after with rfl | ⟨after, d, rfl⟩
  · obtain ⟨rfl, rfl⟩ := by simpa using List.append_inj' heq rfl
    exact hc rfl
  · rw [← List.cons_append, ← List.append_assoc] at heq
    exact h before after (List.append_inj' heq rfl).1

theorem Unclosed.left {quote : Char} {text more : List Char}
    (h : Unclosed escapes quote (text ++ more)) : Unclosed escapes quote text := by
  intro before after heq
  exact h before (after ++ more) (by rw [heq, List.append_assoc, List.cons_append])

theorem Spot.of_after (s : List Char) : Spot.Of escapes s (Spot.after escapes s) := by
  induction s using List.reverseRecOn with
  | nil => exact .bare .nil
  | append_singleton s c ih =>
    rw [Spot.after_append_singleton]
    generalize Spot.after escapes s = spot at ih
    cases ih with
    | bare houtside =>
      rw [Spot.next]
      split
      · next hquote => exact .literal rfl houtside hquote (unclosed_nil c)
      · next hbare => exact .bare (houtside.bare (by simpa using hbare))
    | literal heq houtside hquote hunclosed =>
      rw [Spot.next]
      split
      · next hcloses =>
        obtain ⟨rfl, hends⟩ := by simpa using hcloses
        rw [heq]
        exact .bare (houtside.literal hquote hunclosed hends)
      · next hinside =>
        refine .literal (by rw [heq, List.append_assoc, List.cons_append]) houtside hquote ?_
        refine hunclosed.append_singleton fun hc => ?_
        simpa [hc] using hinside

theorem Spot.foldl_literal {quote : Char} {text : List Char} (h : Unclosed escapes quote text) :
    text.foldl (Spot.next escapes) (.literal quote []) = .literal quote text := by
  induction text using List.reverseRecOn with
  | nil => rfl
  | append_singleton text c ih =>
    rw [List.foldl_append, ih h.left, List.foldl_cons, List.foldl_nil, Spot.next]
    split
    · next hcloses =>
      obtain ⟨rfl, hends⟩ := by simpa using hcloses
      rw [h text [] rfl] at hends
      cases hends
    · rfl

theorem Spot.after_literal {before text : List Char} {quote : Char}
    (hbefore : Spot.after escapes before = .bare) (hquote : isLiteralQuote quote = true)
    (h : Unclosed escapes quote text) :
    Spot.after escapes (before ++ quote :: text) = .literal quote text := by
  rw [Spot.after, List.foldl_append, ← Spot.after, hbefore, List.foldl_cons, Spot.next,
    if_pos hquote, Spot.foldl_literal h]

theorem outside_iff {s : List Char} : Outside escapes s ↔ Spot.after escapes s = .bare := by
  constructor
  · intro h
    induction h with
    | nil => rfl
    | bare _ hc ih => simp [ih, Spot.next, hc]
    | literal _ hquote hunclosed hends ih =>
      rw [Spot.after_append_singleton, Spot.after_literal ih hquote hunclosed]
      simp [Spot.next, hends]
  · intro h
    have hof : Spot.Of escapes s (Spot.after escapes s) := Spot.of_after s
    rw [h] at hof
    cases hof
    assumption

instance (escapes : List Char → Bool) (s : List Char) : Decidable (Outside escapes s) :=
  decidable_of_iff _ outside_iff.symm

/-! ### The words as they are found -/

variable (escapes) in
/-- The words of a text outside its literals, from a spot on; `word` is the word begun, in
reverse. -/
def bareWordsAt (spot : Spot) (word : List Char) : List Char → List (List Char)
  | [] => [word.reverse]
  | c :: rest =>
    match spot with
    | .literal .. => bareWordsAt (spot.next escapes c) [] rest
    | .bare =>
      if isKeywordPart c then bareWordsAt .bare (c :: word) rest
      else word.reverse :: bareWordsAt (spot.next escapes c) [] rest

theorem isKeywordPart_eq_false_of_isLiteralQuote {c : Char} (h : isLiteralQuote c = true) :
    isKeywordPart c = false := by
  simp only [isLiteralQuote, Bool.or_eq_true, beq_iff_eq] at h
  obtain (rfl | rfl) | rfl := h <;> rfl

theorem isLiteralQuote_eq_false_of_isKeywordPart {c : Char} (h : isKeywordPart c = true) :
    isLiteralQuote c = false := by
  rw [Bool.eq_false_iff]
  intro hquote
  rw [isKeywordPart_eq_false_of_isLiteralQuote hquote] at h
  cases h

/-- The word begun at a spot: none within a literal, and outside all that stands since the last
character that is no part of a word. -/
inductive Frontier (escapes : List Char → Bool) (front : List Char) : Spot → List Char → Prop
  | bare {word} : Outside escapes front →
      (∀ c, front.getLast? = some c → isKeywordPart c = false) →
      (∀ c ∈ word, isKeywordPart c = true) → Frontier escapes front .bare word
  | literal {quote text} : Spot.after escapes front = .literal quote text →
      Frontier escapes front (.literal quote text) []

theorem Outside.append_parts {front word : List Char} (h : Outside escapes front)
    (hparts : ∀ c ∈ word, isKeywordPart c = true) : Outside escapes (front ++ word) := by
  induction word using List.reverseRecOn with
  | nil => simpa using h
  | append_singleton word c ih =>
    rw [← List.append_assoc]
    refine (ih fun d hd => hparts d (by simp [hd])).bare ?_
    exact isLiteralQuote_eq_false_of_isKeywordPart (hparts c (by simp))

/-- Behind a character that is no part of a word, and within a literal, none is begun. -/
theorem frontier_append_singleton {s : List Char} {c : Char}
    (hc : Spot.after escapes (s ++ [c]) = .bare → isKeywordPart c = false) :
    Frontier escapes (s ++ [c]) (Spot.after escapes (s ++ [c])) [] := by
  cases hspot : Spot.after escapes (s ++ [c]) with
  | bare => exact .bare (outside_iff.2 hspot) (by simpa using hc hspot) (by simp)
  | literal quote text => exact .literal hspot

/-- The character that ends a literal is no part of a word. -/
theorem isKeywordPart_eq_false_of_closes {s text : List Char} {c quote : Char}
    (h : Spot.after escapes s = .literal quote text)
    (hc : Spot.after escapes (s ++ [c]) = .bare) : isKeywordPart c = false := by
  have hof : Spot.Of escapes s (Spot.after escapes s) := Spot.of_after s
  rw [Spot.after_append_singleton, h, Spot.next] at hc
  rw [h] at hof
  cases hof with
  | literal heq houtside hquote hunclosed =>
    split at hc
    · next hcloses =>
      obtain ⟨rfl, -⟩ := by simpa using hcloses
      exact isKeywordPart_eq_false_of_isLiteralQuote hquote
    · cases hc

theorem takeWhile_append_of_head? {p : Char → Bool} {u v : List Char} (hu : ∀ c ∈ u, p c = true)
    (hv : ∀ c, v.head? = some c → p c = false) : (u ++ v).takeWhile p = u := by
  rw [List.takeWhile_append_of_pos hu]
  cases v with
  | nil => simp
  | cons c v => simp [hv c rfl]

/-- A word that begins no later than another one ends is the other one, if it does not begin before
it. -/
theorem BareWord.eq_of_begins {front word tail before after : List Char} {found : String}
    (h : BareWord escapes (front ++ word ++ tail) before found after)
    (hparts : ∀ c ∈ word, isKeywordPart c = true)
    (hstops : ∀ c, tail.head? = some c → isKeywordPart c = false)
    (hstart : front.length ≤ before.length) (hend : before.length ≤ (front ++ word).length) :
    before = front ∧ found.toList = word ∧ after = tail := by
  have heq := h.eq
  obtain ⟨x, rfl⟩ : front <+: before :=
    List.prefix_of_prefix_length_le ⟨word ++ tail, by rw [← List.append_assoc]⟩
      ⟨found.toList ++ after, by rw [← List.append_assoc]; exact heq.symm⟩ hstart
  rw [List.append_assoc, List.append_assoc, List.append_assoc, List.append_cancel_left_eq] at heq
  obtain rfl : x = [] := by
    rcases List.eq_nil_or_concat' x with rfl | ⟨x, c, rfl⟩
    · rfl
    · obtain ⟨y, hy⟩ : x ++ [c] <+: word :=
        List.prefix_of_prefix_length_le ⟨found.toList ++ after, heq.symm⟩ (List.prefix_append _ _)
          (by simpa using hend)
      have hpart := hparts c (by rw [← hy]; simp)
      rw [h.starts c (by simp)] at hpart
      cases hpart
  have hword := takeWhile_append_of_head? hparts hstops
  rw [heq, List.nil_append, takeWhile_append_of_head? h.parts h.stops] at hword
  rw [hword, List.nil_append, List.append_cancel_left_eq] at heq
  exact ⟨List.append_nil _, hword, heq.symm⟩

/-! ### The first keyword -/

theorem BareWord.length_lt {s before after : List Char} {word : String}
    (h : BareWord escapes s before word after) : before.length < s.length := by
  have := List.length_pos_iff.2 h.ne_nil
  rw [h.eq, List.length_append, List.length_append]
  omega

theorem firstKeywordFrom_end {s : List Char} {start : Nat} (h : s.length ≤ start) :
    FirstKeywordFrom escapes s start none := by
  intro before word after hword hstart
  have := hword.length_lt
  omega

/-- Positions where no keyword begins can be passed over. -/
theorem FirstKeywordFrom.of_later {s : List Char} {start later : Nat} {found : Option String}
    (h : FirstKeywordFrom escapes s later found) (hle : start ≤ later)
    (hnone : ∀ before word after, BareWord escapes s before word after →
      start ≤ before.length → before.length < later → word ∉ keywords) :
    FirstKeywordFrom escapes s start found := by
  cases found with
  | none =>
    intro before word after hword hstart
    rcases Nat.lt_or_ge before.length later with hlt | hge
    · exact hnone before word after hword hstart hlt
    · exact h before word after hword hge
  | some keyword =>
    obtain ⟨hmem, before, after, hword, hlater, hfirst⟩ := h
    refine ⟨hmem, before, after, hword, hle.trans hlater, ?_⟩
    intro before' word' after' hword' hstart hlt
    rcases Nat.lt_or_ge before'.length later with hlt' | hge
    · exact hnone before' word' after' hword' hstart hlt'
    · exact hfirst before' word' after' hword' hge hlt

/-- A word that was found is the first keyword if it is one; otherwise the search goes
on behind it. -/
theorem firstKeywordFrom_cons {front word tail : List Char} {words : List (List Char)}
    (hfront : Frontier escapes front .bare word.reverse)
    (hstops : ∀ c, tail.head? = some c → isKeywordPart c = false)
    (h : FirstKeywordFrom escapes (front ++ word ++ tail) ((front ++ word).length + 1)
      ((words.map String.ofList).find? keywords.contains)) :
    FirstKeywordFrom escapes (front ++ word ++ tail) front.length
      (((word :: words).map String.ofList).find? keywords.contains) := by
  cases hfront with
  | bare houtside hstarts hparts =>
    replace hparts : ∀ c ∈ word, isKeywordPart c = true := by simpa using hparts
    rw [List.map_cons, List.find?_cons]
    split
    · next hkeyword =>
      have hkeyword : String.ofList word ∈ keywords := by simpa using hkeyword
      have hne : word ≠ [] := by
        rintro rfl
        revert hkeyword
        decide
      refine ⟨hkeyword, front, tail, ?_, le_rfl, fun _ _ _ _ hstart hlt => by omega⟩
      exact
        { eq := by rw [String.toList_ofList]
          outside := houtside
          ne_nil := by rwa [String.toList_ofList]
          parts := by rwa [String.toList_ofList]
          starts := hstarts
          stops := hstops }
    · next hother =>
      refine h.of_later (by rw [List.length_append]; omega) ?_
      intro before found after hfound hstart hend
      obtain ⟨-, hword, -⟩ := hfound.eq_of_begins hparts hstops hstart (Nat.le_of_lt_succ hend)
      rw [← String.ofList_toList (s := found), hword]
      simpa using hother

theorem firstKeywordFrom_bareWordsAt {front word : List Char} {spot : Spot}
    (h : Frontier escapes front spot word) (rest : List Char) :
    FirstKeywordFrom escapes (front ++ word.reverse ++ rest) front.length
      (((bareWordsAt escapes spot word rest).map String.ofList).find? keywords.contains) := by
  induction rest generalizing front word spot with
  | nil =>
    cases h with
    | bare houtside hstarts hparts =>
      have hfrontier : Frontier escapes front .bare word.reverse.reverse := by
        rw [List.reverse_reverse]
        exact .bare houtside hstarts hparts
      have hstops : ∀ c, ([] : List Char).head? = some c → isKeywordPart c = false := by simp
      exact firstKeywordFrom_cons hfrontier hstops (firstKeywordFrom_end (by simp))
    | literal hspot => exact firstKeywordFrom_end (by simp)
  | cons c rest ih =>
    cases h with
    | literal hspot =>
      have hfrontier : Frontier escapes (front ++ [c]) (Spot.after escapes (front ++ [c])) [] :=
        frontier_append_singleton (isKeywordPart_eq_false_of_closes hspot)
      have hrest := ih hfrontier
      rw [List.reverse_nil, List.append_nil, List.append_assoc, List.singleton_append,
        Spot.after_append_singleton, hspot] at hrest
      rw [List.reverse_nil, List.append_nil, bareWordsAt]
      refine hrest.of_later (by simp) ?_
      intro before found after hfound hstart hend
      -- nothing begins within the literal
      have hlength : front.length = before.length := by
        rw [List.length_append, List.length_singleton] at hend
        omega
      have heq := hfound.eq
      rw [List.append_assoc] at heq
      have houtside := outside_iff.1 hfound.outside
      rw [← (List.append_inj heq hlength).1, hspot] at houtside
      cases houtside
    | bare houtside hstarts hparts =>
      rw [bareWordsAt]
      split
      · next hpart =>
        have hrest := ih (.bare houtside hstarts (List.forall_mem_cons.2 ⟨hpart, hparts⟩))
        simpa using hrest
      · next hpart =>
        have hpart : isKeywordPart c = false := by simpa using hpart
        have hspot : Spot.after escapes (front ++ word.reverse) = .bare :=
          outside_iff.1 (houtside.append_parts (by simpa using hparts))
        have hrest := ih (frontier_append_singleton (s := front ++ word.reverse) fun _ => hpart)
        rw [Spot.after_append_singleton, hspot, List.reverse_nil, List.append_nil,
          List.append_assoc _ [c], List.singleton_append, List.length_append,
          List.length_singleton] at hrest
        have hfrontier : Frontier escapes front .bare word.reverse.reverse := by
          rw [List.reverse_reverse]
          exact .bare houtside hstarts hparts
        exact firstKeywordFrom_cons hfrontier (by simpa using hpart) hrest

/-- The words are found in order, and none is missed. -/
theorem firstKeyword_bareWordsAt (s : List Char) :
    FirstKeyword escapes s
      (((bareWordsAt escapes .bare [] s).map String.ofList).find? keywords.contains) := by
  have hfrontier : Frontier escapes [] .bare [] := .bare .nil (by simp) (by simp)
  exact firstKeywordFrom_bareWordsAt hfrontier s

end

/-! ### The rule of the search -/

/-- What the search keeps of a spot: the quote of the literal, and of its text only whether it
ends with a backslash. -/
inductive Tracks : Spot → Option Char → Char → List Char → Prop
  | bare {previous word} : Tracks .bare none previous word
  | literal {quote text previous} : (previous == '\\') = endsWithBackslash text →
      Tracks (.literal quote text) (some quote) previous []

theorem bareWordsFrom_eq {spot : Spot} {inside : Option Char} {previous : Char}
    {word : List Char} (h : Tracks spot inside previous word) (s : List Char) :
    bareWordsFrom inside previous word s = bareWordsAt endsWithBackslash spot word s := by
  induction s generalizing spot inside previous word with
  | nil => rfl
  | cons c s ih =>
    cases h with
    | bare =>
      simp only [bareWordsFrom, bareWordsAt, Spot.next]
      by_cases hquote : isLiteralQuote c = true
      · have hpart := isKeywordPart_eq_false_of_isLiteralQuote hquote
        have hnone : (c == '\\') = endsWithBackslash [] := by
          rw [beq_eq_false_iff_ne.2]
          · rfl
          · rintro rfl
            cases hquote
        simp only [hquote, hpart, if_true, ih (.literal hnone)]
        rfl
      · simp only [hquote, ih .bare]
        rfl
    | @literal quote text previous hlast =>
      have hmore : (c == '\\') = endsWithBackslash (text ++ [c]) := by simp [endsWithBackslash]
      have hcloses : (c == quote && previous != '\\') = (c == quote && !endsWithBackslash text) := by
        rw [bne, hlast]
      simp only [bareWordsFrom, bareWordsAt, Spot.next, hcloses]
      split
      · exact ih .bare
      · exact ih (.literal hmore)

theorem firstKeyword_keyword? (expression : String) :
    FirstKeyword endsWithBackslash expression.toList (keyword? expression) := by
  have hstart : Tracks .bare none '\x00' [] := .bare
  rw [keyword?, bareWords, bareWordsFrom_eq hstart]
  exact firstKeyword_bareWordsAt expression.toList

/-! ### Two rules compared -/

theorem endsWithBackslash_of_endsEscaping {text : List Char} (h : endsEscaping text = true) :
    endsWithBackslash text = true := by
  rcases List.eq_nil_or_concat' text with rfl | ⟨text, c, rfl⟩
  · cases h
  · by_cases hc : c = '\\'
    · simp [endsWithBackslash, hc]
    · simp [endsEscaping, hc] at h

/-- A literal ends behind a backslash, which then is escaped itself. -/
def HasEscapedEnd (s : List Char) : Prop :=
  ∃ before quote text after, s = before ++ quote :: text ++ quote :: after ∧
    Outside endsEscaping before ∧ isLiteralQuote quote = true ∧ Unclosed endsEscaping quote text ∧
    endsEscaping text = false ∧ endsWithBackslash text = true

theorem Unclosed.withBackslash {quote : Char} {text : List Char}
    (h : Unclosed endsEscaping quote text) : Unclosed endsWithBackslash quote text :=
  fun before after heq => endsWithBackslash_of_endsEscaping (h before after heq)

/-- Where no literal ends behind an escaped backslash, the two rules lead to the same spots. -/
theorem Spot.after_eq_of_not_hasEscapedEnd {s t : List Char} (h : ¬ HasEscapedEnd (s ++ t)) :
    Spot.after endsWithBackslash s = Spot.after endsEscaping s := by
  induction s using List.reverseRecOn generalizing t with
  | nil => rfl
  | append_singleton s c ih =>
    rw [List.append_assoc] at h
    have hof : Spot.Of endsEscaping s (Spot.after endsEscaping s) := Spot.of_after s
    rw [Spot.after_append_singleton, Spot.after_append_singleton, ih h]
    generalize Spot.after endsEscaping s = spot at hof
    cases hof with
    | bare => rfl
    | @literal before quote text heq houtside hquote hunclosed =>
      rw [Spot.next, Spot.next]
      by_cases hc : c = quote
      · subst hc
        have hsame : endsWithBackslash text = endsEscaping text := by
          cases hends : endsEscaping text with
          | true => exact endsWithBackslash_of_endsEscaping hends
          | false =>
            by_contra hbackslash
            refine h ⟨before, c, text, t, ?_, houtside, hquote, hunclosed, hends, ?_⟩
            · rw [heq, List.singleton_append]
            · simpa using hbackslash
        rw [hsame]
      · simp [hc]

/-- The two rules agree on what lies outside literals exactly if no literal ends behind an escaped
backslash. -/
theorem outside_agree_iff {s : List Char} :
    (∀ t, t <+: s → (Outside endsWithBackslash t ↔ Outside endsEscaping t)) ↔
      ¬ HasEscapedEnd s := by
  constructor
  · rintro hagree ⟨before, quote, text, after, rfl, houtside, hquote, hunclosed, hends, hbackslash⟩
    have hbefore := (hagree before ⟨quote :: text ++ quote :: after, by simp⟩).2 houtside
    have hclosed := (hagree (before ++ quote :: text ++ [quote]) ⟨after, by simp⟩).2
      (houtside.literal hquote hunclosed hends)
    rw [outside_iff, Spot.after_append_singleton,
      Spot.after_literal (outside_iff.1 hbefore) hquote hunclosed.withBackslash, Spot.next,
      hbackslash] at hclosed
    simp at hclosed
  · rintro h t ⟨rest, rfl⟩
    rw [outside_iff, outside_iff, Spot.after_eq_of_not_hasEscapedEnd h]

theorem BareWord.congr {escapes escapes' : List Char → Bool} {s before after : List Char}
    {word : String} (h : BareWord escapes s before word after)
    (hagree : ∀ t, t <+: s → (Outside escapes t ↔ Outside escapes' t)) :
    BareWord escapes' s before word after where
  eq := h.eq
  outside := (hagree before ⟨word.toList ++ after, by rw [h.eq, List.append_assoc]⟩).1 h.outside
  ne_nil := h.ne_nil
  parts := h.parts
  starts := h.starts
  stops := h.stops

/-- The first keyword depends on a rule only through what lies outside literals. -/
theorem FirstKeywordFrom.congr {escapes escapes' : List Char → Bool} {s : List Char} {start : Nat}
    {found : Option String} (h : FirstKeywordFrom escapes s start found)
    (hagree : ∀ t, t <+: s → (Outside escapes t ↔ Outside escapes' t)) :
    FirstKeywordFrom escapes' s start found := by
  have hagree' : ∀ t, t <+: s → (Outside escapes' t ↔ Outside escapes t) :=
    fun t ht => (hagree t ht).symm
  cases found with
  | none => exact fun before word after hword => h before word after (hword.congr hagree')
  | some keyword =>
    obtain ⟨hmem, before, after, hword, hstart, hfirst⟩ := h
    exact ⟨hmem, before, after, hword.congr hagree, hstart,
      fun before' word' after' hword' => hfirst before' word' after' (hword'.congr hagree')⟩

/-- The search returns the first keyword outside literals, where a quote right behind a backslash
does not end a literal. Compared with the rule that a quote is escaped by an odd number of
backslashes, it takes the same parts of the expression for literals exactly if none of its literals
ends behind an escaped backslash; and then what it returns is the first keyword outside literals by
that rule too. -/
theorem keyword?_first (expression : String) :
    FirstKeyword endsWithBackslash expression.toList (keyword? expression) ∧
    ((∀ s, s <+: expression.toList → (Outside endsWithBackslash s ↔ Outside endsEscaping s)) ↔
      ¬ HasEscapedEnd expression.toList) ∧
    (¬ HasEscapedEnd expression.toList →
      FirstKeyword endsEscaping expression.toList (keyword? expression)) :=
  ⟨firstKeyword_keyword? expression, outside_agree_iff,
    fun h => (firstKeyword_keyword? expression).congr (outside_agree_iff.2 h)⟩

/-- A literal with an escaped quote and a keyword in it, and the same keyword behind it. -/
def sampleQuotes : String := "[\"a\\\"new\", x.new, if.y]"

theorem keyword?_first_sample :
    ¬ HasEscapedEnd sampleQuotes.toList ∧ keyword? sampleQuotes = some "new" ∧
      FirstKeyword endsEscaping sampleQuotes.toList (some "new") := by
  have hagree : ∀ s, s <+: sampleQuotes.toList →
      (Outside endsWithBackslash s ↔ Outside endsEscaping s) := by
    intro s hs
    rw [← List.mem_inits] at hs
    revert s
    decide +kernel
  have hnot := (keyword?_first sampleQuotes).2.1.1 hagree
  have hfound : keyword? sampleQuotes = some "new" := by decide +kernel
  refine ⟨hnot, hfound, ?_⟩
  rw [← hfound]
  exact (keyword?_first sampleQuotes).2.2 hnot

/-- A keyword behind a literal that ends with an escaped backslash. -/
def sampleBackslashes : String := "[\"\\\\\", if.x]"

/-- The keyword is missed: the search takes the rest of the expression for the text
of the literal. -/
theorem keyword?_misses_behind_backslashes :
    keyword? sampleBackslashes = none ∧
      FirstKeyword endsEscaping sampleBackslashes.toList (some "if") ∧
      ¬ FirstKeyword endsEscaping sampleBackslashes.toList (keyword? sampleBackslashes) := by
  have hnone : keyword? sampleBackslashes = none := by decide +kernel
  have hwords : ((bareWordsAt endsEscaping .bare [] sampleBackslashes.toList).map
      String.ofList).find? keywords.contains = some "if" := by decide +kernel
  have hfirst : FirstKeyword endsEscaping sampleBackslashes.toList (some "if") := by
    rw [← hwords]
    exact firstKeyword_bareWordsAt _
  refine ⟨hnone, hfirst, fun hmissed => ?_⟩
  rw [hnone] at hmissed
  obtain ⟨hmem, before, after, hword, hstart, -⟩ := hfirst
  exact hmissed before "if" after hword hstart hmem

end HtmlTemplate.Template
