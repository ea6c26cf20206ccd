import HtmlTemplate.Code.Reader
import HtmlTemplate.Json.Literal

/-!
# Literals are read back

A text that was written as a literal is cut out of the code behind its opening quote, whatever
follows, and gives the text again. An index in digits gives the index again, as long as it fits 64
bits: beyond that a number is no integer.
-/

namespace HtmlTemplate.Json

open Code (splitLiteralFrom splitLiteral?)

theorem splitLiteralFrom_cons {done rest : List Char} {c : Char} (hquote : c ≠ '"')
    (hslash : c ≠ '\\') :
    splitLiteralFrom done (c :: rest) = splitLiteralFrom (c :: done) rest := by
  rw [splitLiteralFrom]
  · exact hquote
  · intro _ _ h
    exact absurd h hslash

theorem hexDigit_ne (n : Fin 16) : hexDigit n ≠ '"' ∧ hexDigit n ≠ '\\' := by
  revert n
  decide

theorem hexValue?_hexDigit (n : Fin 16) : hexValue? (hexDigit n) = some n.val := by
  revert n
  decide

theorem splitLiteralFrom_escapeChar (done rest : List Char) (c : Char) :
    splitLiteralFrom done (escapeChar c ++ rest) =
      splitLiteralFrom ((escapeChar c).reverse ++ done) rest := by
  unfold escapeChar
  split; · rfl
  split; · rfl
  split; · rfl
  split; · rfl
  split; · rfl
  split; · rfl
  split; · rfl
  next hquote hslash _ _ _ _ _ =>
  split
  · next hc =>
    have hlt : c.toNat < 32 := hc
    have h₁ := hexDigit_ne ⟨c.toNat / 16, by omega⟩
    have h₂ := hexDigit_ne ⟨c.toNat % 16, by omega⟩
    simp only [List.cons_append, List.nil_append, splitLiteralFrom]
    rw [splitLiteralFrom_cons (by decide) (by decide),
      splitLiteralFrom_cons (by decide) (by decide),
      splitLiteralFrom_cons h₁.1 h₁.2, splitLiteralFrom_cons h₂.1 h₂.2]
    rfl
  · exact splitLiteralFrom_cons (by simpa using hquote) (by simpa using hslash)

theorem splitLiteralFrom_escaped (done s rest : List Char) :
    splitLiteralFrom done (s.flatMap escapeChar ++ '"' :: rest) =
      some (done.reverse ++ s.flatMap escapeChar, rest) := by
  induction s generalizing done with
  | nil => simp [splitLiteralFrom]
  | cons c s ih =>
    rw [List.flatMap_cons, List.append_assoc, splitLiteralFrom_escapeChar, ih]
    simp

theorem splitLiteral?_escaped (s rest : List Char) :
    splitLiteral? (s.flatMap escapeChar ++ '"' :: rest) = some (s.flatMap escapeChar, rest) :=
  splitLiteralFrom_escaped [] s rest

theorem readEscape_control {c : Char} (hc : c.toNat < 32) (rest : List Char) :
    readEscape ('u' :: '0' :: '0' :: hexDigit (c.toNat / 16) :: hexDigit (c.toNat % 16) :: rest) =
      .ok (c, rest) := by
  have h₀ : hexValue? '0' = some 0 := by decide
  have h₁ := hexValue?_hexDigit ⟨c.toNat / 16, by omega⟩
  have h₂ := hexValue?_hexDigit ⟨c.toNat % 16, by omega⟩
  have hvalue : c.toNat / 16 * 16 + c.toNat % 16 = c.toNat := by omega
  have hlow : isLowSurrogate c.toNat = false := by simp [isLowSurrogate]; omega
  have hhigh : isHighSurrogate c.toNat = false := by simp [isHighSurrogate]; omega
  have hu : simpleEscape? 'u' = none := by decide
  simp only at h₁ h₂
  simp [readEscape, hu, readUnicodeEscape, readHex, h₀, h₁, h₂, hvalue, hlow, hhigh]

theorem readTextFrom_of_readEscape {done s rest : List Char} {c : Char}
    (h : readEscape s = .ok (c, rest)) :
    readTextFrom done ('\\' :: s) = readTextFrom (c :: done) rest := by
  rw [readTextFrom, if_neg (by decide), if_pos (by decide)]
  split
  · next hf => simp [h] at hf
  · next he =>
    rw [h] at he
    cases he
    rfl

theorem readTextFrom_escapeChar (done rest : List Char) (c : Char) :
    readTextFrom done (escapeChar c ++ rest) = readTextFrom (c :: done) rest := by
  unfold escapeChar
  split
  · next h => rw [beq_iff_eq.1 h]; exact readTextFrom_of_readEscape rfl
  split
  · next h => rw [beq_iff_eq.1 h]; exact readTextFrom_of_readEscape rfl
  split
  · next h => rw [beq_iff_eq.1 h]; exact readTextFrom_of_readEscape rfl
  split
  · next h => rw [beq_iff_eq.1 h]; exact readTextFrom_of_readEscape rfl
  split
  · next h => rw [beq_iff_eq.1 h]; exact readTextFrom_of_readEscape rfl
  split
  · next h => rw [beq_iff_eq.1 h]; exact readTextFrom_of_readEscape rfl
  split
  · next h => rw [beq_iff_eq.1 h]; exact readTextFrom_of_readEscape rfl
  next hquote hslash _ _ _ _ _ =>
  split
  · next hc => exact readTextFrom_of_readEscape (readEscape_control hc rest)
  · next hc =>
    rw [List.singleton_append, readTextFrom, if_neg hquote, if_neg hslash, if_neg hc]

theorem readTextFrom_escaped (done s rest : List Char) :
    readTextFrom done (s.flatMap escapeChar ++ '"' :: rest) = .ok (done.reverse ++ s, rest) := by
  induction s generalizing done with
  | nil => rw [List.flatMap_nil, List.nil_append, readTextFrom]; simp
  | cons c s ih =>
    rw [List.flatMap_cons, List.append_assoc, readTextFrom_escapeChar, ih]
    simp

/-- A literal gives the text that it was written for. -/
theorem textOfLiteral_escaped (s : List Char) :
    textOfLiteral (s.flatMap escapeChar ++ ['"']) = .ok s := by
  simp [textOfLiteral, readText, readTextFrom_escaped]

theorem le_ofDigitChars (s : List Char) (n : Nat) : n ≤ Nat.ofDigitChars 10 s n := by
  rw [Nat.ofDigitChars_eq_ofDigitChars_zero]
  have : n ≤ 10 ^ s.length * n := Nat.le_mul_of_pos_left n (Nat.pow_pos (by decide))
  omega

/-- Digits are all kept as long as the number that they make is. -/
theorem addDigits_eq {s : List Char} (hs : ∀ c ∈ s, c.isDigit = true) {significand : Nat}
    (hle : Nat.ofDigitChars 10 s significand ≤ maxSignificand) (count : Nat) :
    addDigits significand count s = (Nat.ofDigitChars 10 s significand, count + s.length, []) := by
  induction s generalizing significand count with
  | nil => simp [addDigits]
  | cons c s ih =>
    rw [Nat.ofDigitChars_cons, Nat.mul_comm] at hle ⊢
    have hnext := Nat.le_trans (le_ofDigitChars s _) hle
    have hkeep : (c.isDigit && decide (significand * 10 + (c.toNat - '0'.toNat) ≤ maxSignificand)) =
        true := by
      rw [hs c (by simp), Bool.true_and, decide_eq_true hnext]
    rw [addDigits, if_pos hkeep,
      ih (fun d hd => hs d (by simp [hd])) hle]
    simp
    omega

theorem toDigits_eq_cons {n : Nat} (hn : 0 < n) :
    ∃ c s, Nat.toDigits 10 n = c :: s ∧ c ≠ '0' := by
  induction n using Nat.strongRecOn with
  | ind n ih =>
    by_cases hlt : n < 10
    · exact ⟨n.digitChar, [], Nat.toDigits_of_lt_base hlt, by simp; omega⟩
    · obtain ⟨c, s, hs, hc⟩ := ih (n / 10) (by omega) (by omega)
      rw [Nat.toDigits_of_base_le (by decide) (by omega), hs]
      exact ⟨c, s ++ [(n % 10).digitChar], rfl, hc⟩

theorem readUnsigned_toDigits {n : Nat} (hpos : 0 < n) (hn : n ≤ maxSignificand)
    (negative : Bool) :
    readUnsigned negative (Nat.toDigits 10 n) = .ok (⟨negative, n, 0, true⟩, []) := by
  obtain ⟨c, s, hs, hc⟩ := toDigits_eq_cons hpos
  have hdigits : ∀ d ∈ c :: s, d.isDigit = true := by
    intro d hd
    exact Nat.isDigit_of_mem_toDigits (by decide) (by decide) (hs ▸ hd)
  have hvalue : Nat.ofDigitChars 10 s (c.toNat - '0'.toNat) = n := by
    have := Nat.ofDigitChars_ten_toDigits (n := n)
    rw [hs, Nat.ofDigitChars_cons] at this
    simpa using this
  have hadd := addDigits_eq (fun d hd => hdigits d (by simp [hd])) (hvalue.symm ▸ hn) 0
  have hzero : (c == '0') = false := beq_eq_false_iff_ne.2 hc
  rw [hvalue] at hadd
  simp only [hs, readUnsigned, hzero, hdigits c (by simp), hadd, if_true, Bool.false_eq_true,
    if_false]
  rfl

theorem number?_toDigits {n : Nat} (hn : n ≤ maxSignificand) :
    number? (Nat.toDigits 10 n) = some (.integer n) := by
  cases Nat.eq_zero_or_pos n with
  | inl hzero =>
    subst hzero
    rfl
  | inr hpos =>
    have hunsigned := readUnsigned_toDigits hpos hn false
    cases hs : Nat.toDigits 10 n with
    | nil => exact absurd hs Nat.toDigits_ne_nil
    | cons c s =>
      have hdigit : c.isDigit = true :=
        Nat.isDigit_of_mem_toDigits (b := 10) (n := n) (by decide) (by decide) (by simp [hs])
      have hminus : (c == '-') = false := by
        rw [beq_eq_false_iff_ne]
        rintro rfl
        exact absurd hdigit (by decide)
      rw [hs] at hunsigned
      simp [number?, readNumber, readNumeral, hminus, hunsigned, Numeral.value?]

/-- A minus before the digits makes the number negative, as far as 63 bits go. -/
theorem number?_minus_toDigits {n : Nat} (hpos : 0 < n) (hn : n ≤ Nat.pow 2 63) :
    number? ('-' :: Nat.toDigits 10 n) = some (.integer (-n)) := by
  have hunsigned := readUnsigned_toDigits hpos (Nat.le_trans hn (by decide)) true
  have hne : n ≠ 0 := by omega
  simp [number?, readNumber, readNumeral, hunsigned, Numeral.value?, hne, hn]

end HtmlTemplate.Json
