import HtmlTemplate.Json.Failure
import HtmlTemplate.Json.Value

/-!
# Reading numbers

A number is read into a significand of at most 64 bits and a power of ten. Digits that the
significand has no room for are passed over: those before the point raise the exponent, those
after it are lost. The value comes from at most a few floating-point operations on the two.
-/

namespace HtmlTemplate.Json

/-- The largest significand that is kept exactly. -/
def maxSignificand : Nat := Nat.pow 2 64 - 1

/-- Ten to a power up to 308. -/
def powerOfTen (n : Nat) : Float := Float.ofScientific 1 false n

/-- Multiplies by a power of ten in steps that stay in range; `none` if the result does not. -/
def scaleByTen? (f : Float) (exponent : Int) : Option Float :=
  if exponent ≤ -309 then
    if f == 0.0 then some f else scaleByTen? (f / powerOfTen 308) (exponent + 308)
  else if exponent < 0 then some (f / powerOfTen exponent.natAbs)
  else if 308 < exponent then if f == 0.0 then some f else none
  else
    let g := f * powerOfTen exponent.toNat
    if g.isInf then none else some g
termination_by (-exponent).toNat
decreasing_by omega

/-- The number with a sign, a significand and an exponent. -/
def floatOfParts? (negative : Bool) (significand : Nat) (exponent : Int) : Option Float :=
  (scaleByTen? significand.toUInt64.toFloat exponent).map fun f => if negative then -f else f

/-- Adds digits to a significand as long as it can be kept exactly: the significand, how many
digits were added, and what follows. -/
def addDigits (significand count : Nat) : List Char → Nat × Nat × List Char
  | [] => (significand, count, [])
  | c :: rest =>
    let next := significand * 10 + (c.toNat - '0'.toNat)
    if c.isDigit && next ≤ maxSignificand then addDigits next (count + 1) rest
    else (significand, count, c :: rest)

/-- A number before its value is known. -/
structure Numeral where
  negative : Bool
  significand : Nat
  /-- The power of ten that the significand is short of the number. -/
  exponent : Int
  /-- Neither a fraction nor an exponent was written, and all digits were kept. -/
  isWhole : Bool

/-- Digits of an exponent. From the one that takes it beyond 31 bits on they only count as many;
the flag tells whether that happened, and the text is what follows the digit where it did. -/
def exponentDigits (value : Nat) : List Char → Nat × Bool × List Char
  | [] => (value, false, [])
  | c :: rest =>
    if c.isDigit then
      let next := value * 10 + (c.toNat - '0'.toNat)
      if next ≤ Nat.pow 2 31 - 1 then exponentDigits next rest else (value, true, rest)
    else (value, false, c :: rest)

/-- The exponent behind its sign. -/
def readExponentDigits (n : Numeral) (negative : Bool) (s : List Char) :
    Except Failure (Numeral × List Char) :=
  match s with
  | [] => .error (.before .endInValue [])
  | c :: rest =>
    if c.isDigit then
      match exponentDigits (c.toNat - '0'.toNat) rest with
      | (value, false, rest) =>
        let shift : Int := if negative then -value else value
        .ok ({ n with exponent := n.exponent + shift, isWhole := false }, rest)
      | (_, true, rest) =>
        if n.significand != 0 && !negative then .error (.before .numberOutOfRange rest)
        else
          .ok ({ n with significand := 0, exponent := 0, isWhole := false },
            rest.dropWhile Char.isDigit)
    else .error (.at .invalidNumber (c :: rest))

/-- The exponent behind its `e`. -/
def readExponent (n : Numeral) (s : List Char) : Except Failure (Numeral × List Char) :=
  match s with
  | [] => readExponentDigits n false []
  | c :: rest =>
    if c == '+' then readExponentDigits n false rest
    else if c == '-' then readExponentDigits n true rest
    else readExponentDigits n false (c :: rest)

def readExponentIfAny (n : Numeral) (s : List Char) : Except Failure (Numeral × List Char) :=
  match s with
  | [] => .ok (n, [])
  | c :: rest => if c == 'e' || c == 'E' then readExponent n rest else .ok (n, c :: rest)

/-- The fraction behind its point. Digits beyond the exact significand are passed over. -/
def readFraction (n : Numeral) (s : List Char) : Except Failure (Numeral × List Char) :=
  match addDigits n.significand 0 s with
  | (significand, count, rest) =>
    let n := { n with significand := significand, exponent := n.exponent - count, isWhole := false }
    match rest with
    | [] => if count == 0 then .error (.at .endInValue []) else .ok (n, [])
    | c :: more =>
      if c.isDigit then readExponentIfAny n (more.dropWhile Char.isDigit)
      else if count == 0 then .error (.at .invalidNumber (c :: more))
      else readExponentIfAny n (c :: more)

def readFractionIfAny (n : Numeral) (s : List Char) : Except Failure (Numeral × List Char) :=
  match s with
  | [] => .ok (n, [])
  | c :: rest => if c == '.' then readFraction n rest else readExponentIfAny n (c :: rest)

/-- A number without its sign. No digit may follow a leading zero; digits beyond the exact
significand only raise the exponent. -/
def readUnsigned (negative : Bool) (s : List Char) : Except Failure (Numeral × List Char) :=
  match s with
  | [] => .error (.before .endInValue [])
  | c :: rest =>
    if c == '0' then
      match rest with
      | [] => .ok (⟨negative, 0, 0, true⟩, [])
      | d :: more =>
        if d.isDigit then .error (.at .invalidNumber (d :: more))
        else readFractionIfAny ⟨negative, 0, 0, true⟩ (d :: more)
    else if c.isDigit then
      match addDigits (c.toNat - '0'.toNat) 0 rest with
      | (significand, _, rest) =>
        let extra := rest.takeWhile Char.isDigit
        readFractionIfAny ⟨negative, significand, extra.length, extra.isEmpty⟩
          (rest.dropWhile Char.isDigit)
    else .error (.at .invalidNumber (c :: rest))

/-- The value of a numeral: an integer if it is whole and fits 64 bits; minus zero is not one. -/
def Numeral.value? (n : Numeral) : Option Number :=
  if n.isWhole && !n.negative then some (.integer n.significand)
  else if n.isWhole && n.significand != 0 && n.significand ≤ Nat.pow 2 63 then
    some (.integer (-n.significand))
  else (floatOfParts? n.negative n.significand n.exponent).map .float

def readNumeral (s : List Char) : Except Failure (Numeral × List Char) :=
  match s with
  | [] => readUnsigned false []
  | c :: rest => if c == '-' then readUnsigned true rest else readUnsigned false (c :: rest)

def readNumber (s : List Char) : Except Failure (Number × List Char) :=
  match readNumeral s with
  | .error f => .error f
  | .ok (n, rest) =>
    match n.value? with
    | some value => .ok (value, rest)
    | none => .error (.before .numberOutOfRange rest)

/-- Reads a number and nothing else. -/
def number? (s : List Char) : Option Number :=
  match readNumber s with
  | .ok (n, []) => some n
  | _ => none

theorem length_addDigits_le (significand count : Nat) (s : List Char) :
    (addDigits significand count s).2.2.length ≤ s.length := by
  fun_induction addDigits significand count s with
  | case1 => simp
  | case2 _ _ _ _ _ _ ih => simp; omega
  | case3 => simp

theorem length_exponentDigits_le (value : Nat) (s : List Char) :
    (exponentDigits value s).2.2.length ≤ s.length := by
  fun_induction exponentDigits value s with
  | case1 => simp
  | case2 _ _ _ _ _ _ ih => simp; omega
  | case3 => simp
  | case4 => simp

theorem length_dropDigits_le (s : List Char) : (s.dropWhile Char.isDigit).length ≤ s.length :=
  (List.dropWhile_sublist Char.isDigit).length_le

theorem length_readExponentDigits {n : Numeral} {negative : Bool} {s : List Char} {m : Numeral}
    {rest : List Char} (h : readExponentDigits n negative s = .ok (m, rest)) :
    rest.length ≤ s.length := by
  unfold readExponentDigits at h
  split at h
  · cases h
  · next c t =>
    split at h
    · have hle := length_exponentDigits_le (c.toNat - '0'.toNat) t
      split at h
      · next heq =>
        rw [heq] at hle
        simp only [Except.ok.injEq, Prod.mk.injEq] at h
        obtain ⟨_, rfl⟩ := h
        simp at hle ⊢
        omega
      · next heq =>
        rw [heq] at hle
        split at h
        · cases h
        · next r _ =>
          have := length_dropDigits_le r
          simp only [Except.ok.injEq, Prod.mk.injEq] at h
          obtain ⟨_, rfl⟩ := h
          simp at hle ⊢
          omega
    · cases h

theorem length_readExponent {n : Numeral} {s : List Char} {m : Numeral} {rest : List Char}
    (h : readExponent n s = .ok (m, rest)) : rest.length ≤ s.length := by
  unfold readExponent at h
  split at h
  · exact length_readExponentDigits h
  · split at h
    · have := length_readExponentDigits h
      simp
      omega
    · split at h
      · have := length_readExponentDigits h
        simp
        omega
      · exact length_readExponentDigits h

theorem length_readExponentIfAny {n : Numeral} {s : List Char} {m : Numeral} {rest : List Char}
    (h : readExponentIfAny n s = .ok (m, rest)) : rest.length ≤ s.length := by
  unfold readExponentIfAny at h
  split at h
  · cases h
    simp
  · split at h
    · have := length_readExponent h
      simp
      omega
    · cases h
      simp

theorem length_readFraction {n : Numeral} {s : List Char} {m : Numeral} {rest : List Char}
    (h : readFraction n s = .ok (m, rest)) : rest.length ≤ s.length := by
  have hle := length_addDigits_le n.significand 0 s
  unfold readFraction at h
  split at h
  next heq =>
  rw [heq] at hle
  simp only at h hle
  split at h
  · split at h
    · cases h
    · cases h
      simp
  · next c more =>
    split at h
    · have := length_readExponentIfAny h
      have := length_dropDigits_le more
      simp at hle
      omega
    · split at h
      · cases h
      · have := length_readExponentIfAny h
        omega

theorem length_readFractionIfAny {n : Numeral} {s : List Char} {m : Numeral} {rest : List Char}
    (h : readFractionIfAny n s = .ok (m, rest)) : rest.length ≤ s.length := by
  unfold readFractionIfAny at h
  split at h
  · cases h
    simp
  · split at h
    · have := length_readFraction h
      simp
      omega
    · exact length_readExponentIfAny h

theorem length_readUnsigned {negative : Bool} {s : List Char} {m : Numeral} {rest : List Char}
    (h : readUnsigned negative s = .ok (m, rest)) : rest.length < s.length := by
  unfold readUnsigned at h
  split at h
  · cases h
  · next c t =>
    split at h
    · split at h
      · cases h
        simp
      · split at h
        · cases h
        · have := length_readFractionIfAny h
          simp at this ⊢
          omega
    · split at h
      · have hle := length_addDigits_le (c.toNat - '0'.toNat) 0 t
        split at h
        next r heq =>
        rw [heq] at hle
        have := length_readFractionIfAny h
        have := length_dropDigits_le r
        simp at hle ⊢
        omega
      · cases h

/-- A number takes at least one character. -/
theorem length_readNumber {s : List Char} {n : Number} {rest : List Char}
    (h : readNumber s = .ok (n, rest)) : rest.length < s.length := by
  have hnumeral : ∀ {m : Numeral} {r : List Char}, readNumeral s = .ok (m, r) →
      r.length < s.length := by
    intro m r hm
    unfold readNumeral at hm
    split at hm
    · exact length_readUnsigned hm
    · split at hm
      · have := length_readUnsigned hm
        simp
        omega
      · exact length_readUnsigned hm
  unfold readNumber at h
  split at h
  · cases h
  · next hm =>
    split at h
    · cases h
      exact hnumeral hm
    · cases h

end HtmlTemplate.Json
