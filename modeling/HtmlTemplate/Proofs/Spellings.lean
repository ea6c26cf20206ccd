import HtmlTemplate.Proofs.Writing

/-!
# How far a literal reaches

The reader of code cuts a literal out before the value of the literal is read: a text literal at the
first quote that no backslash takes with it, a number where the characters of numbers end. Whatever
is spelled correctly is cut out whole. A text literal holds no quote of its own before the closing
one (`splitLiteral?_of_textOfLiteral`), and a number is made of the characters of numbers from its
first one on (`isNumberPart_of_number?`).
-/

namespace HtmlTemplate.Json

open Code (splitLiteralFrom splitLiteral? isNumberPart isNumberPart_of_isDigit)

/-- A part of a literal that the search for the closing quote passes over whole. -/
def Passes (written : List Char) : Prop :=
  ∀ done rest, splitLiteralFrom done (written ++ rest) =
    splitLiteralFrom (written.reverse ++ done) rest

theorem Passes.append {s t : List Char} (hs : Passes s) (ht : Passes t) : Passes (s ++ t) := by
  intro done rest
  rw [List.append_assoc, hs, ht, List.reverse_append, List.append_assoc]

theorem passes_singleton {c : Char} (hquote : c ≠ '"') (hslash : c ≠ '\\') : Passes [c] :=
  fun _ _ => splitLiteralFrom_cons hquote hslash

/-- A backslash takes the next character with it, whatever that is. -/
theorem passes_escaped (c : Char) : Passes ['\\', c] := fun _ _ => rfl

theorem passes_of_hexValue? {c : Char} {n : Nat} (h : hexValue? c = some n) : Passes [c] := by
  apply passes_singleton <;> (rintro rfl; simp [hexValue?] at h)

theorem passes_of_readHex {s rest : List Char} {n : Nat} (h : readHex s = .ok (n, rest)) :
    ∃ written, s = written ++ rest ∧ Passes written := by
  unfold readHex at h
  simp only at h
  split at h
  · next a b c d after =>
    split at h
    · next ha hb hc hd =>
      cases h
      refine ⟨[a] ++ [b] ++ [c] ++ [d], rfl, ?_⟩
      exact (((passes_of_hexValue? ha).append (passes_of_hexValue? hb)).append
        (passes_of_hexValue? hc)).append (passes_of_hexValue? hd)
    · split at h <;> cases h
  · split at h <;> cases h

theorem passes_of_readSecondUnit {first : Nat} {s rest : List Char} {c : Char}
    (h : readSecondUnit first s = .ok (c, rest)) :
    ∃ written, s = written ++ rest ∧ Passes written := by
  unfold readSecondUnit at h
  split at h
  · cases h
  · next second after hhex =>
    split at h
    · obtain ⟨-, rfl⟩ : _ ∧ after = rest := by simpa using h
      exact passes_of_readHex hhex
    · cases h

theorem passes_of_readPair {first : Nat} {s rest : List Char} {c : Char}
    (h : readPair first s = .ok (c, rest)) :
    ∃ written, s = written ++ rest ∧ Passes written := by
  unfold readPair at h
  split at h
  · cases h
  · next d tail =>
    split at h
    · next hslash =>
      obtain rfl : d = '\\' := by simpa using hslash
      split at h
      · cases h
      · next x more =>
        split at h
        · obtain ⟨written, rfl, hpasses⟩ := passes_of_readSecondUnit h
          exact ⟨['\\', x] ++ written, rfl, (passes_escaped x).append hpasses⟩
        · cases h
    · cases h

theorem passes_of_readUnicodeEscape {s rest : List Char} {c : Char}
    (h : readUnicodeEscape s = .ok (c, rest)) :
    ∃ written, s = written ++ rest ∧ Passes written := by
  unfold readUnicodeEscape at h
  split at h
  · cases h
  · next unit after hhex =>
    obtain ⟨first, rfl, hfirst⟩ := passes_of_readHex hhex
    split at h
    · cases h
    · split at h
      · obtain ⟨second, rfl, hsecond⟩ := passes_of_readPair h
        exact ⟨first ++ second, (List.append_assoc ..).symm, hfirst.append hsecond⟩
      · cases h
        exact ⟨first, rfl, hfirst⟩

/-- An escape is passed over with its backslash. -/
theorem passes_of_readEscape {s rest : List Char} {c : Char} (h : readEscape s = .ok (c, rest)) :
    ∃ written, s = written ++ rest ∧ Passes ('\\' :: written) := by
  unfold readEscape at h
  split at h
  · cases h
  · next d tail =>
    split at h
    · cases h
      exact ⟨[d], rfl, passes_escaped d⟩
    · split at h
      · obtain ⟨written, rfl, hpasses⟩ := passes_of_readUnicodeEscape h
        exact ⟨d :: written, rfl, (passes_escaped d).append hpasses⟩
      · cases h

theorem passes_of_readTextFrom {done s text rest : List Char}
    (h : readTextFrom done s = .ok (text, rest)) :
    ∃ body, s = body ++ '"' :: rest ∧ Passes body := by
  fun_induction readTextFrom done s with
  | case1 => cases h
  | case2 done c tail hquote =>
    cases h
    obtain rfl : c = '"' := by simpa using hquote
    exact ⟨[], rfl, fun _ _ => rfl⟩
  | case3 => cases h
  | case4 done c tail hquote hslash e after hescape hlt ih =>
    obtain rfl : c = '\\' := by simpa using hslash
    obtain ⟨body, rfl, hbody⟩ := ih h
    obtain ⟨written, rfl, hwritten⟩ := passes_of_readEscape hescape
    exact ⟨'\\' :: written ++ body, by simp, hwritten.append hbody⟩
  | case5 => cases h
  | case6 done c tail hquote hslash hcontrol ih =>
    obtain ⟨body, rfl, hbody⟩ := ih h
    have hc : Passes [c] := passes_singleton (by simpa using hquote) (by simpa using hslash)
    exact ⟨[c] ++ body, rfl, hc.append hbody⟩

/-- A text literal is cut out of the code up to its own closing quote, whatever follows it. -/
theorem splitLiteral?_of_textOfLiteral {body text : List Char}
    (h : textOfLiteral (body ++ ['"']) = .ok text) (rest : List Char) :
    splitLiteral? (body ++ '"' :: rest) = some (body, rest) := by
  unfold textOfLiteral at h
  split at h
  · cases h
  · next hread =>
    obtain ⟨read, hbody, hpasses⟩ := passes_of_readTextFrom hread
    obtain rfl : body = read := List.append_cancel_right hbody
    rw [splitLiteral?, hpasses, List.append_nil]
    simp [splitLiteralFrom]
  · cases h

/-- What is left of a text behind characters of numbers. -/
def BehindNumber (s rest : List Char) : Prop :=
  ∃ taken, s = taken ++ rest ∧ ∀ c ∈ taken, isNumberPart c = true

theorem BehindNumber.refl (s : List Char) : BehindNumber s s := ⟨[], rfl, by simp⟩

theorem BehindNumber.cons {c : Char} {s rest : List Char} (hc : isNumberPart c = true)
    (h : BehindNumber s rest) : BehindNumber (c :: s) rest := by
  obtain ⟨taken, rfl, htaken⟩ := h
  exact ⟨c :: taken, rfl, by simpa [hc] using htaken⟩

theorem BehindNumber.trans {s t rest : List Char} (hs : BehindNumber s t)
    (ht : BehindNumber t rest) : BehindNumber s rest := by
  obtain ⟨first, rfl, hfirst⟩ := hs
  obtain ⟨second, rfl, hsecond⟩ := ht
  refine ⟨first ++ second, (List.append_assoc ..).symm, fun c hc => ?_⟩
  exact (List.mem_append.1 hc).elim (hfirst c) (hsecond c)

theorem behindNumber_dropDigits (s : List Char) : BehindNumber s (s.dropWhile Char.isDigit) :=
  ⟨s.takeWhile Char.isDigit, List.takeWhile_append_dropWhile.symm,
    fun _ hc => isNumberPart_of_isDigit (List.mem_takeWhile_imp hc)⟩

theorem behindNumber_addDigits (significand count : Nat) (s : List Char) :
    BehindNumber s (addDigits significand count s).2.2 := by
  fun_induction addDigits significand count s with
  | case1 => exact .refl _
  | case2 _ _ c _ _ hdigit ih =>
    exact .cons (isNumberPart_of_isDigit (Bool.and_eq_true .. ▸ hdigit).1) ih
  | case3 => exact .refl _

theorem behindNumber_exponentDigits (value : Nat) (s : List Char) :
    BehindNumber s (exponentDigits value s).2.2 := by
  fun_induction exponentDigits value s with
  | case1 => exact .refl _
  | case2 _ _ _ hdigit _ _ ih => exact .cons (isNumberPart_of_isDigit hdigit) ih
  | case3 _ _ _ hdigit => exact .cons (isNumberPart_of_isDigit hdigit) (.refl _)
  | case4 => exact .refl _

theorem behindNumber_readExponentDigits {n m : Numeral} {negative : Bool} {s rest : List Char}
    (h : readExponentDigits n negative s = .ok (m, rest)) : BehindNumber s rest := by
  unfold readExponentDigits at h
  split at h
  · cases h
  · next c t =>
    split at h
    · next hdigit =>
      have hdigits := behindNumber_exponentDigits (c.toNat - '0'.toNat) t
      split at h
      · next heq =>
        obtain ⟨-, rfl⟩ := by simpa using h
        rw [heq] at hdigits
        exact hdigits.cons (isNumberPart_of_isDigit hdigit)
      · next heq =>
        rw [heq] at hdigits
        split at h
        · cases h
        · obtain ⟨-, rfl⟩ := by simpa using h
          exact (hdigits.trans (behindNumber_dropDigits _)).cons (isNumberPart_of_isDigit hdigit)
    · cases h

theorem behindNumber_readExponent {n m : Numeral} {s rest : List Char}
    (h : readExponent n s = .ok (m, rest)) : BehindNumber s rest := by
  unfold readExponent at h
  split at h
  · exact behindNumber_readExponentDigits h
  · split at h
    · next hsign =>
      exact (behindNumber_readExponentDigits h).cons (by simp [isNumberPart, hsign])
    · split at h
      · next hsign =>
        exact (behindNumber_readExponentDigits h).cons (by simp [isNumberPart, hsign])
      · exact behindNumber_readExponentDigits h

theorem behindNumber_readExponentIfAny {n m : Numeral} {s rest : List Char}
    (h : readExponentIfAny n s = .ok (m, rest)) : BehindNumber s rest := by
  unfold readExponentIfAny at h
  split at h
  · cases h
    exact .refl _
  · split at h
    · next he =>
      exact (behindNumber_readExponent h).cons (by
        rcases Bool.or_eq_true .. ▸ he with he | he <;> simp [isNumberPart, he])
    · cases h
      exact .refl _

theorem behindNumber_readFraction {n m : Numeral} {s rest : List Char}
    (h : readFraction n s = .ok (m, rest)) : BehindNumber s rest := by
  have hdigits := behindNumber_addDigits n.significand 0 s
  unfold readFraction at h
  split at h
  next heq =>
  rw [heq] at hdigits
  simp only at h hdigits
  refine hdigits.trans ?_
  split at h
  · split at h <;> cases h
    exact .refl _
  · split at h
    · next hdigit =>
      exact ((behindNumber_dropDigits _).trans (behindNumber_readExponentIfAny h)).cons
        (isNumberPart_of_isDigit hdigit)
    · split at h
      · cases h
      · exact behindNumber_readExponentIfAny h

theorem behindNumber_readFractionIfAny {n m : Numeral} {s rest : List Char}
    (h : readFractionIfAny n s = .ok (m, rest)) : BehindNumber s rest := by
  unfold readFractionIfAny at h
  split at h
  · cases h
    exact .refl _
  · split at h
    · next hpoint => exact (behindNumber_readFraction h).cons (by simp [isNumberPart, hpoint])
    · exact behindNumber_readExponentIfAny h

/-- A number without its sign begins with a digit. -/
theorem behindNumber_readUnsigned {negative : Bool} {s rest : List Char} {m : Numeral}
    (h : readUnsigned negative s = .ok (m, rest)) :
    ∃ c t, s = c :: t ∧ c.isDigit = true ∧ BehindNumber t rest := by
  unfold readUnsigned at h
  split at h
  · cases h
  · next c t =>
    split at h
    · next hzero =>
      obtain rfl : c = '0' := by simpa using hzero
      refine ⟨'0', t, rfl, by decide, ?_⟩
      split at h
      · cases h
        exact .refl _
      · split at h
        · cases h
        · exact behindNumber_readFractionIfAny h
    · split at h
      · next hdigit =>
        have hdigits := behindNumber_addDigits (c.toNat - '0'.toNat) 0 t
        split at h
        next heq =>
        rw [heq] at hdigits
        exact ⟨c, t, rfl, hdigit, (hdigits.trans (behindNumber_dropDigits _)).trans
          (behindNumber_readFractionIfAny h)⟩
      · cases h

theorem behindNumber_readNumeral {s rest : List Char} {m : Numeral}
    (h : readNumeral s = .ok (m, rest)) :
    ∃ c t, s = c :: t ∧ (c.isDigit || c == '-') = true ∧ BehindNumber t rest := by
  unfold readNumeral at h
  split at h
  · cases h
  · next c t =>
    split at h
    · next hminus =>
      obtain ⟨d, more, rfl, hdigit, hrest⟩ := behindNumber_readUnsigned h
      exact ⟨c, d :: more, rfl, by simp [hminus], hrest.cons (isNumberPart_of_isDigit hdigit)⟩
    · obtain ⟨d, more, hs, hdigit, hrest⟩ := behindNumber_readUnsigned h
      exact ⟨d, more, hs, by simp [hdigit], hrest⟩

/-- A number begins with a digit or a minus, and has only characters of numbers. -/
theorem isNumberPart_of_number? {s : List Char} {n : Number} (h : number? s = some n) :
    ∃ c t, s = c :: t ∧ (c.isDigit || c == '-') = true ∧ ∀ d ∈ t, isNumberPart d = true := by
  unfold number? at h
  split at h
  · next hread =>
    unfold readNumber at hread
    split at hread
    · cases hread
    · next hnumeral =>
      split at hread
      · obtain ⟨-, rfl⟩ := by simpa using hread
        obtain ⟨c, t, rfl, hc, taken, rfl, htaken⟩ := behindNumber_readNumeral hnumeral
        exact ⟨c, _, rfl, hc, by simpa using htaken⟩
      · cases hread
  · cases h

end HtmlTemplate.Json
