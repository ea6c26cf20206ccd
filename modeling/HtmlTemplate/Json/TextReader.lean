import HtmlTemplate.Json.Failure

/-!
# Reading text literals

A literal ends at the first quote that is not escaped. Escapes of surrogates count only in pairs;
control characters have to be escaped.
-/

namespace HtmlTemplate.Json

open Text

def hexValue? (c : Char) : Option Nat :=
  if c.isDigit then some (c.toNat - '0'.toNat)
  else if 'a' ≤ c ∧ c ≤ 'f' then some (c.toNat - 'a'.toNat + 10)
  else if 'A' ≤ c ∧ c ≤ 'F' then some (c.toNat - 'A'.toNat + 10)
  else none

/-- Four hexadecimal digits. They are taken as four bytes, whatever they are. -/
def readHex (s : List Char) : Except Failure (Nat × List Char) :=
  let fail : Except Failure (Nat × List Char) :=
    if extent (s.take 4) < 4 then .error (.before .endInString [])
    else .error ⟨.invalidEscape, s, 4⟩
  match s with
  | a :: b :: c :: d :: rest =>
    match hexValue? a, hexValue? b, hexValue? c, hexValue? d with
    | some a, some b, some c, some d => .ok (((a * 16 + b) * 16 + c) * 16 + d, rest)
    | _, _, _, _ => fail
  | _ => fail

def isLowSurrogate (n : Nat) : Bool := 0xdc00 ≤ n && n ≤ 0xdfff

def isHighSurrogate (n : Nat) : Bool := 0xd800 ≤ n && n ≤ 0xdbff

/-- The second of two escaped code units, after the first. -/
def readSecondUnit (first : Nat) (s : List Char) : Except Failure (Char × List Char) :=
  match readHex s with
  | .error f => .error f
  | .ok (second, rest) =>
    if isLowSurrogate second then
      .ok (Char.ofNat (0x10000 + (first - 0xd800) * 0x400 + (second - 0xdc00)), rest)
    else .error (.before .loneSurrogate rest)

/-- What follows the first of two escaped code units. -/
def readPair (first : Nat) (s : List Char) : Except Failure (Char × List Char) :=
  match s with
  | [] => .error (.before .endInString [])
  | c :: rest =>
    if c == '\\' then
      match rest with
      | [] => .error (.before .endInString [])
      | d :: more =>
        if d == 'u' then readSecondUnit first more
        else .error (.at .unpairedSurrogate (d :: more))
    else .error (.at .unpairedSurrogate (c :: rest))

/-- A character by its code units in hexadecimal, after `\u`. -/
def readUnicodeEscape (s : List Char) : Except Failure (Char × List Char) :=
  match readHex s with
  | .error f => .error f
  | .ok (unit, rest) =>
    if isLowSurrogate unit then .error (.before .loneSurrogate rest)
    else if isHighSurrogate unit then readPair unit rest
    else .ok (Char.ofNat unit, rest)

/-- The escapes of one character, by the character after `\`. -/
def simpleEscape? (c : Char) : Option Char :=
  if c == '"' || c == '\\' || c == '/' then some c
  else if c == 'b' then some '\x08'
  else if c == 'f' then some '\x0c'
  else if c == 'n' then some '\n'
  else if c == 'r' then some '\r'
  else if c == 't' then some '\t'
  else none

/-- The character that an escape stands for, after `\`. -/
def readEscape (s : List Char) : Except Failure (Char × List Char) :=
  match s with
  | [] => .error (.before .endInString [])
  | c :: rest =>
    match simpleEscape? c with
    | some d => .ok (d, rest)
    | none => if c == 'u' then readUnicodeEscape rest else .error (.at .invalidEscape (c :: rest))

theorem length_readHex {s : List Char} {n : Nat} {rest : List Char}
    (h : readHex s = .ok (n, rest)) : rest.length < s.length := by
  unfold readHex at h
  simp only at h
  split at h
  · split at h
    · cases h
      simp
      omega
    · split at h <;> cases h
  · split at h <;> cases h

theorem length_readSecondUnit {first : Nat} {s : List Char} {c : Char} {rest : List Char}
    (h : readSecondUnit first s = .ok (c, rest)) : rest.length < s.length := by
  unfold readSecondUnit at h
  split at h
  · cases h
  · next hx =>
    split at h
    · simp only [Except.ok.injEq, Prod.mk.injEq] at h
      obtain ⟨_, rfl⟩ := h
      exact length_readHex hx
    · cases h

theorem length_readPair {first : Nat} {s : List Char} {c : Char} {rest : List Char}
    (h : readPair first s = .ok (c, rest)) : rest.length < s.length := by
  unfold readPair at h
  split at h
  · cases h
  · split at h
    · split at h
      · cases h
      · split at h
        · have := length_readSecondUnit h
          simp
          omega
        · cases h
    · cases h

theorem length_readUnicodeEscape {s : List Char} {c : Char} {rest : List Char}
    (h : readUnicodeEscape s = .ok (c, rest)) : rest.length < s.length := by
  unfold readUnicodeEscape at h
  split at h
  · cases h
  · next hx =>
    have := length_readHex hx
    split at h
    · cases h
    · split at h
      · have := length_readPair h
        omega
      · cases h
        assumption

theorem length_readEscape {s : List Char} {c : Char} {rest : List Char}
    (h : readEscape s = .ok (c, rest)) : rest.length < s.length := by
  unfold readEscape at h
  split at h
  · cases h
  · split at h
    · cases h
      simp
    · split at h
      · have := length_readUnicodeEscape h
        simp
        omega
      · cases h

/-- The rest of a literal after its opening quote, with what was read before in reverse: the text
and what follows the closing quote. -/
def readTextFrom (done s : List Char) : Except Failure (List Char × List Char) :=
  match s with
  | [] => .error (.before .endInString [])
  | c :: rest =>
    if c == '"' then .ok (done.reverse, rest)
    else if c == '\\' then
      match h : readEscape rest with
      | .error f => .error f
      | .ok (e, after) =>
        have := length_readEscape h
        readTextFrom (e :: done) after
    else if c < ' ' then .error (.at .controlCharacter (c :: rest))
    else readTextFrom (c :: done) rest
termination_by s.length
decreasing_by all_goals simp; try omega

def readText (s : List Char) : Except Failure (List Char × List Char) := readTextFrom [] s

theorem length_readTextFrom {done s text rest : List Char}
    (h : readTextFrom done s = .ok (text, rest)) : rest.length < s.length := by
  fun_induction readTextFrom done s with
  | case1 => cases h
  | case2 => cases h; simp
  | case3 => cases h
  | case4 _ _ _ _ _ _ _ _ hlt ih =>
    have := ih h
    simp
    omega
  | case5 => cases h
  | case6 _ _ _ _ _ _ ih =>
    have := ih h
    simp
    omega

theorem length_readText {s text rest : List Char} (h : readText s = .ok (text, rest)) :
    rest.length < s.length :=
  length_readTextFrom h

/-- Reads what stands after the opening quote of a literal that nothing follows. -/
def textOfLiteral (s : List Char) : Except Failure (List Char) :=
  match readText s with
  | .error f => .error f
  | .ok (text, []) => .ok text
  | .ok (_, c :: rest) => .error (.at .trailingCharacters (c :: rest))

end HtmlTemplate.Json
