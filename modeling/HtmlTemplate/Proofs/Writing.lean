import HtmlTemplate.Proofs.Continuation
import HtmlTemplate.Proofs.Literals
import Mathlib.Data.List.Forall2
import Mathlib.Data.List.TakeWhile

/-!
# Code that stands for an expression

A piece of code stands for an expression if it is read as that expression wherever an item of code
may be, by every reader that looks deep enough. Texts, indices, arrays and calls stand for what they
are written for (`writes_literal`, `writes_repr`, `writes_array`, `writes_call`), and so does every
expression that can be read on its own (`writes_of_parse`). Such code is accepted as a whole exactly
if its expression is not nested too deep (`Writes.parse_isOk_iff`).
-/

namespace HtmlTemplate.Code

open Text
open Json (splitLiteral?_escaped textOfLiteral_escaped)

/-- The code is read as the expression, offsets aside, with whatever may follow an item behind it
and by every reader that looks deep enough. -/
def Writes (code : String) (e : Expr) : Prop :=
  ∀ ⦃t : List Char⦄, Ends t → ∀ ⦃n : Nat⦄, e.depth ≤ n → ∀ p, ∃ e' d,
    Gives (readExpr n ⟨p, code.toList ++ t⟩) e' d ∧ e'.bare = e ∧ dropBlanks d.rest = t

theorem parse_eq_ok_iff {code : String} {e : Expr} :
    parse code = .ok e ↔ ∃ d, Gives (readExpr depthLimit ⟨0, code.toList⟩) e d ∧
      dropBlanks d.rest = [] := by
  constructor
  · intro h
    unfold parse at h
    split at h
    · cases h
    · next e' d hd heq =>
      split at h
      · next hrest =>
        cases h
        exact ⟨d, ⟨hd, heq⟩, List.isEmpty_iff.1 hrest⟩
      · cases h
  · rintro ⟨d, ⟨hd, heq⟩, hrest⟩
    simp [parse, heq, Cursor.skipBlanks, hrest]

/-- What can be read on its own stands for itself in any code. -/
theorem writes_of_parse {code : String} {e : Expr} (h : parse code = .ok e) :
    Writes code e.bare := by
  intro t ht n hn p
  rcases parse_eq_ok_iff.1 h with ⟨d, hd, hrest⟩
  rw [Expr.depth_bare] at hn
  rcases gives_append ht depthLimit n hd hn p with ⟨e', q, he', hbare⟩
  refine ⟨e', _, he', hbare, ?_⟩
  rw [ht.dropBlanks_append, hrest, List.nil_append]

namespace Writes

variable {code : String} {e : Expr}

theorem parse (h : Writes code e) (hdepth : e.depth ≤ depthLimit) :
    ∃ e', Code.parse code = .ok e' ∧ e'.bare = e := by
  rcases h ends_nil hdepth 0 with ⟨e', d, he', hbare, hrest⟩
  rw [List.append_nil] at he'
  exact ⟨e', parse_eq_ok_iff.2 ⟨d, he', hrest⟩, hbare⟩

/-- Whatever the code is read as is the expression. -/
theorem bare_eq (h : Writes code e) {e' : Expr} (hparse : Code.parse code = .ok e') :
    e'.bare = e := by
  rcases parse_eq_ok_iff.1 hparse with ⟨d, hd, -⟩
  have hdepth := depth_le_of_gives hd
  -- both readings are compared by a reader that looks deep enough for either
  obtain ⟨e₁, q, h₁, hbare₁⟩ := gives_append ends_nil depthLimit (max depthLimit e.depth) hd
    (by omega) 0
  rcases h ends_nil (n := max depthLimit e.depth) (by omega) 0 with ⟨e₂, d₂, h₂, hbare₂, -⟩
  rcases h₁ with ⟨_, h₁⟩
  rcases h₂ with ⟨_, h₂⟩
  rw [h₁] at h₂
  cases h₂
  rw [← hbare₁, hbare₂]

/-- The code is accepted exactly if its expression is not nested too deep. -/
theorem parse_isOk_iff (h : Writes code e) :
    (∃ e', Code.parse code = .ok e') ↔ e.depth ≤ depthLimit := by
  constructor
  · rintro ⟨e', he'⟩
    rcases parse_eq_ok_iff.1 he' with ⟨d, hd, -⟩
    rw [← h.bare_eq he', Expr.depth_bare]
    exact depth_le_of_gives hd
  · intro hdepth
    rcases h.parse hdepth with ⟨e', he', -⟩
    exact ⟨e', he'⟩

end Writes

theorem Cursor.skipBlanks_cons {c : Char} (hc : isBlank c = false) (p : Nat) (s : List Char) :
    (Cursor.mk p (c :: s)).skipBlanks = ⟨p, c :: s⟩ := by
  simp [skipBlanks, leadingBlanks, dropBlanks, hc]

/-- Items written with commas between are read up to the closing mark. -/
theorem itemsFrom_of_writes {codes : List String} {items : List Expr}
    (h : List.Forall₂ Writes codes items) (hcodes : codes ≠ []) {n : Nat}
    (hdepth : depthAll items ≤ n) {close : Char} (hclose : isMark close = true)
    (hcomma : close ≠ ',') (rest : List Char) (p : Nat) :
    ∃ items' after, ItemsFrom (readExpr n) close
      ⟨p, [','].intercalate (codes.map String.toList) ++ close :: rest⟩ items' after ∧
        bareAll items' = items ∧ after.rest = rest := by
  induction h generalizing p with
  | nil => exact absurd rfl hcodes
  | @cons code e codes items he hitems ih =>
    rcases Nat.max_le.1 hdepth with ⟨he_depth, hitems_depth⟩
    cases hitems with
    | nil =>
      obtain ⟨e', d, he', hbare, hrest⟩ := he (ends_cons.2 hclose : Ends (close :: rest)) he_depth p
      refine ⟨[e'], ⟨_, rest⟩, .last ?_ (Cursor.take?_eq_some_iff.2 ⟨hrest, rfl⟩), ?_, rfl⟩
      · rw [List.map_singleton, List.intercalate_singleton]
        exact he'
      · simp [bareAll, hbare]
    | @cons code₂ e₂ codes items he₂ hitems =>
      obtain ⟨e', d, he', hbare, hrest⟩ := he (ends_cons.2 (by decide) :
        Ends (',' :: ([','].intercalate ((code₂ :: codes).map String.toList) ++ close :: rest)))
        he_depth p
      obtain ⟨items', after, hmore, hbares, hafter⟩ := ih (by simp) hitems_depth
        (d.skipBlanks.position + (',').utf8Size)
      refine ⟨e' :: items', after, .more ?_ ?_ (Cursor.take?_eq_some_iff.2 ⟨hrest, rfl⟩) hmore,
        ?_, hafter⟩
      · rw [List.map_cons, List.map_cons, List.intercalate_cons_cons, List.append_assoc,
          List.append_assoc, List.singleton_append]
        exact he'
      · rw [Cursor.take?_eq_none_iff, hrest]
        simpa [eq_comm] using hcomma
      · simp [bareAll, hbare, hbares]

theorem items_of_writes {codes : List String} {items : List Expr}
    (h : List.Forall₂ Writes codes items) {n : Nat} (hdepth : depthAll items ≤ n) (close : Char)
    (hclose : isMark close = true) (hcomma : close ≠ ',') (rest : List Char) (p : Nat) :
    ∃ items' after, Items (readExpr n) close
      ⟨p, [','].intercalate (codes.map String.toList) ++ close :: rest⟩ items' after ∧
        bareAll items' = items ∧ after.rest = rest := by
  by_cases hcodes : codes = []
  · subst hcodes
    cases h
    refine ⟨[], ⟨_, rest⟩, .none (Cursor.take?_eq_some_iff.2 ⟨?_, rfl⟩), rfl, rfl⟩
    exact (ends_cons.2 hclose).dropBlanks_eq
  · obtain ⟨items', after, hitems, hbares, hafter⟩ :=
      itemsFrom_of_writes h hcodes hdepth hclose hcomma rest p
    refine ⟨items', after, .some ?_ hitems, hbares, hafter⟩
    rcases hitems.opens (opens_readExpr n) with ⟨x, more, hx, hmark⟩
    rw [Cursor.take?_eq_none_iff, hx]
    rintro ⟨⟩
    rw [hclose] at hmark
    cases hmark

/-- Code stands for an expression that begins with its first character. -/
theorem writes_of_begins {code : String} {e : Expr} {c : Char} {s : List Char}
    (hcode : code.toList = c :: s) (hc : isBlank c = false)
    (h : ∀ ⦃t : List Char⦄, Ends t → ∀ ⦃n : Nat⦄, e.depth ≤ n + 1 → ∀ p, ∃ e' d,
      Begins (readExpr n) ⟨p, c :: (s ++ t)⟩ e' d ∧ e'.bare = e ∧ d.rest = t) : Writes code e := by
  intro t ht n hn p
  cases n with
  | zero => exact absurd hn (Nat.not_le_of_gt e.depth_pos)
  | succ n =>
    rcases h ht hn p with ⟨e', d, hbegins, hbare, hrest⟩
    refine ⟨e', d, gives_readExpr_succ.2 ?_, hbare, ?_⟩
    · rw [hcode, List.cons_append, Cursor.skipBlanks_cons hc]
      exact hbegins
    · rw [hrest, ht.dropBlanks_eq]

theorem writes_literal (s : String) : Writes (Json.literal s) (.literal (.string s)) := by
  refine writes_of_begins (c := '"') (s := s.toList.flatMap Json.escapeChar ++ ['"'])
    (by simp [Json.literal, Json.literalChars]) (by decide) ?_
  intro t _ n _ p
  have hbegins : Begins (readExpr n) ⟨p, _⟩ _ _ :=
    .text (splitLiteral?_escaped s.toList t) (textOfLiteral_escaped s.toList)
  rw [String.ofList_toList] at hbegins
  rw [List.append_assoc]
  exact ⟨_, _, hbegins, rfl, rfl⟩

theorem isBlank_eq_false_of_isDigit {c : Char} (h : c.isDigit = true) : isBlank c = false := by
  simp [isBlank, Char.isDigit, UInt32.le_iff_toNat_le, Char.ext_iff, ← UInt32.toNat_inj] at h ⊢
  omega

theorem isBlank_eq_false_of_isWordStart {c : Char} (h : isWordStart c = true) :
    isBlank c = false := by
  simp [isBlank, isWordStart, isAlpha_eq, UInt32.le_iff_toNat_le,
    Char.ext_iff, ← UInt32.toNat_inj] at h ⊢
  omega

theorem isNumberPart_of_isDigit {c : Char} (h : c.isDigit = true) : isNumberPart c = true := by
  simp [isNumberPart, h]

/-- A number that fits 64 bits is read back as it is. -/
theorem writes_repr {n : Nat} (hn : n ≤ Json.maxSignificand) :
    Writes n.repr (.literal (.number (.integer n))) := by
  have hdigits : ∀ d ∈ Nat.toDigits 10 n, d.isDigit = true :=
    fun d hd => Nat.isDigit_of_mem_toDigits (by decide) (by decide) hd
  cases hs : Nat.toDigits 10 n with
  | nil => exact absurd hs Nat.toDigits_ne_nil
  | cons c s =>
    rw [hs] at hdigits
    have hc := hdigits c (by simp)
    have hparts : ∀ d ∈ s, isNumberPart d = true :=
      fun d hd => isNumberPart_of_isDigit (hdigits d (by simp [hd]))
    refine writes_of_begins (c := c) (s := s) (by rw [Nat.toList_repr, hs]) ?_ ?_
    · exact isBlank_eq_false_of_isDigit hc
    · intro t ht _ _ p
      have htake : (s ++ t).takeWhile isNumberPart = s := by
        rw [ht.takeWhile_append fun _ => isNumberPart_eq_false_of_isMark,
          List.takeWhile_eq_self_iff.2 hparts]
      have hdrop : (s ++ t).dropWhile isNumberPart = t := by
        rw [ht.dropWhile_append fun _ => isNumberPart_eq_false_of_isMark,
          List.dropWhile_eq_nil_iff.2 hparts, List.nil_append]
      refine ⟨_, _, .number (n := .integer n) (by simp [hc]) ?_, rfl, ?_⟩
      · rw [htake, ← hs]
        exact Json.number?_toDigits hn
      · exact hdrop

theorem writes_array {codes : List String} {items : List Expr}
    (h : List.Forall₂ Writes codes items) :
    Writes ("[" ++ ",".intercalate codes ++ "]") (.array items) := by
  refine writes_of_begins (c := '[')
    (s := [','].intercalate (codes.map String.toList) ++ [']']) ?_ (by decide) ?_
  · simp
  · intro t _ n hn p
    rw [List.append_assoc, List.singleton_append]
    obtain ⟨items', after, hitems, hbares, hafter⟩ := items_of_writes h
      (Nat.le_of_succ_le_succ hn) ']' (by decide) (by decide) t (p + extent ['['])
    refine ⟨.array items', after, .array hitems, ?_, hafter⟩
    rw [Expr.bare, hbares]

/-- A name that a call may begin with. -/
def isWord (name : String) : Bool :=
  match name.toList with
  | [] => false
  | c :: rest => isWordStart c && rest.all isWordPart

theorem writes_call {name : String} (hname : isWord name = true) {codes : List String}
    {arguments : List Expr} (h : List.Forall₂ Writes codes arguments) :
    Writes (name ++ "(" ++ ",".intercalate codes ++ ")") (.call name arguments 0) := by
  cases hs : name.toList with
  | nil => simp [isWord, hs] at hname
  | cons c s =>
    obtain ⟨hc, hparts⟩ : isWordStart c = true ∧ ∀ d ∈ s, isWordPart d = true := by
      simpa [isWord, hs] using hname
    refine writes_of_begins (c := c)
      (s := s ++ '(' :: ([','].intercalate (codes.map String.toList) ++ [')'])) ?_ ?_ ?_
    · simp [hs]
    · exact isBlank_eq_false_of_isWordStart hc
    · intro t _ n hn p
      have hmark : isWordPart '(' = false := by decide
      rw [List.append_assoc, List.cons_append, List.append_assoc, List.singleton_append]
      generalize htext : [','].intercalate (codes.map String.toList) ++ ')' :: t = text
      have htake : (s ++ '(' :: text).takeWhile isWordPart = s := by
        simp [List.takeWhile_append_of_pos hparts, hmark]
      have hdrop : (s ++ '(' :: text).dropWhile isWordPart = '(' :: text := by
        simp [List.dropWhile_append_of_pos hparts, hmark]
      have hword : wordFrom c (s ++ '(' :: text) = name := by
        rw [wordFrom, htake, ← hs, String.ofList_toList]
      have hinside : (Cursor.behindWord p c (s ++ '(' :: text)).take? '(' =
          some ⟨p + extent (c :: s) + ('(').utf8Size, text⟩ := by
        simp only [Cursor.behindWord, Cursor.past, htake, hdrop, Cursor.take?,
          Cursor.skipBlanks_cons (show isBlank '(' = false by decide), beq_self_eq_true, if_true]
      obtain ⟨items', after, hitems, hbares, hafter⟩ := items_of_writes h
        (Nat.le_of_succ_le_succ hn) ')' (by decide) (by decide) t
        (p + extent (c :: s) + ('(').utf8Size)
      rw [htext] at hitems
      refine ⟨_, after, .call hc hinside hitems, ?_, hafter⟩
      rw [Expr.bare, hword, hbares]

end HtmlTemplate.Code
