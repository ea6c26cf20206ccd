import HtmlTemplate.Text.Lowercase
import HtmlTemplate.Text.Search

/-!
# Texts as bytes

A text in UTF-8 is a list of bytes. A character of ASCII is one byte, and no byte of another
character is below 128, so what is found among the bytes by a test that only ASCII passes
(`SameTest`) is found at the offset of a character. The bytes of a text determine the text, and what
the bytes begin with the text begins with (`isPrefixOf_bytes`).
-/

namespace HtmlTemplate.Text

/-- The UTF-8 form of a text. -/
def bytes (s : List Char) : List UInt8 := s.flatMap String.utf8EncodeChar

@[simp] theorem bytes_nil : bytes [] = [] := rfl

theorem bytes_cons (c : Char) (s : List Char) :
    bytes (c :: s) = String.utf8EncodeChar c ++ bytes s :=
  List.flatMap_cons

theorem bytes_append (s t : List Char) : bytes (s ++ t) = bytes s ++ bytes t :=
  List.flatMap_append

@[simp] theorem length_bytes (s : List Char) : (bytes s).length = extent s := by
  induction s with
  | nil => rfl
  | cons c s ih =>
    rw [bytes_cons, List.length_append, ih, String.length_utf8EncodeChar, extent_cons]

theorem extent_pos {s : List Char} (h : s ≠ []) : 0 < extent s :=
  Nat.lt_of_lt_of_le (List.length_pos_iff.2 h) (length_le_extent s)

theorem exists_utf8EncodeChar (c : Char) : ∃ b more, String.utf8EncodeChar c = b :: more :=
  List.exists_cons_of_length_pos (String.length_utf8EncodeChar c ▸ c.utf8Size_pos)

@[simp] theorem isEmpty_bytes (s : List Char) : (bytes s).isEmpty = s.isEmpty := by
  cases s with
  | nil => rfl
  | cons c s =>
    obtain ⟨b, more, hbytes⟩ := exists_utf8EncodeChar c
    rw [bytes_cons, hbytes]
    rfl

/-! ### Characters of ASCII -/

/-- What holds of the first 128 characters holds of ASCII. -/
theorem forall_ascii {P : Char → Prop} (h : ∀ n : Fin 128, P (Char.ofNat n)) (c : Char)
    (hc : c.toNat < 128) : P c := by
  have := h ⟨c.toNat, hc⟩
  rwa [Char.ofNat_toNat] at this

theorem utf8EncodeChar_of_ascii {c : Char} (h : c.toNat < 128) :
    String.utf8EncodeChar c = [c.toUInt8] :=
  String.utf8EncodeChar_eq_singleton
    (Char.utf8Size_eq_one_iff.2 (UInt32.le_iff_toNat_le.2 (Nat.le_of_lt_succ h)))

theorem utf8Size_of_ascii {c : Char} (h : c.toNat < 128) : c.utf8Size = 1 := by
  rw [← String.length_utf8EncodeChar, utf8EncodeChar_of_ascii h]
  rfl

theorem extent_cons_of_ascii {c : Char} (h : c.toNat < 128) (s : List Char) :
    extent (c :: s) = extent s + 1 := by
  rw [extent_cons, utf8Size_of_ascii h, Nat.add_comm]

theorem le_of_mem_utf8EncodeChar {c : Char} (h : 128 ≤ c.toNat) {b : UInt8}
    (hb : b ∈ String.utf8EncodeChar c) : 128 ≤ b := by
  have hc : ¬ c.val.toNat ≤ 127 := Nat.not_le_of_lt h
  rw [UInt8.le_iff_toNat_le]
  have h128 : (128 : UInt8).toNat = 128 := rfl
  unfold String.utf8EncodeChar at hb
  simp only [hc, if_false] at hb
  split at hb
  · simp only [List.mem_cons, List.not_mem_nil, or_false] at hb
    obtain rfl | rfl := hb <;> simp only [UInt8.toNat_ofNat'] <;> omega
  split at hb
  · simp only [List.mem_cons, List.not_mem_nil, or_false] at hb
    obtain rfl | rfl | rfl := hb <;> simp only [UInt8.toNat_ofNat'] <;> omega
  · simp only [List.mem_cons, List.not_mem_nil, or_false] at hb
    obtain rfl | rfl | rfl | rfl := hb <;> simp only [UInt8.toNat_ofNat'] <;> omega

theorem bytes_of_ascii {s : List Char} (h : ∀ c ∈ s, c.toNat < 128) :
    bytes s = s.map Char.toUInt8 := by
  induction s with
  | nil => rfl
  | cons c s ih =>
    rw [bytes_cons, utf8EncodeChar_of_ascii (h c (by simp)), ih fun d hd => h d (by simp [hd])]
    rfl

theorem extent_of_ascii {s : List Char} (h : ∀ c ∈ s, c.toNat < 128) : extent s = s.length := by
  rw [← length_bytes, bytes_of_ascii h, List.length_map]

/-- A test of bytes and a test of characters that agree on ASCII, which alone passes. -/
structure SameTest (p : UInt8 → Bool) (q : Char → Bool) : Prop where
  ascii : ∀ c : Char, c.toNat < 128 → p c.toUInt8 = q c
  byte : ∀ b : UInt8, 128 ≤ b → p b = false
  char : ∀ c : Char, 128 ≤ c.toNat → q c = false

theorem sameTest_eq {a : Char} (ha : a.toNat < 128) :
    SameTest (· == a.toUInt8) (· == a) where
  ascii c hc := by
    have hbyte : ∀ {d : Char}, d.toNat < 128 → d.toUInt8.toNat = d.toNat := by
      intro d hd
      have : d.toUInt8.toNat = d.toNat % 256 := rfl
      omega
    rw [Bool.eq_iff_iff, beq_iff_eq, beq_iff_eq]
    constructor
    · intro h
      rw [← Char.toNat_inj, ← hbyte hc, ← hbyte ha, h]
    · intro h
      rw [h]
  byte b hb := by
    rw [beq_eq_false_iff_ne]
    rintro rfl
    have : a.toUInt8.toNat = a.toNat % 256 := rfl
    have := UInt8.le_iff_toNat_le.1 hb
    have h128 : (128 : UInt8).toNat = 128 := rfl
    omega
  char c hc := by
    rw [beq_eq_false_iff_ne]
    rintro rfl
    omega

theorem SameTest.or {p p' : UInt8 → Bool} {q q' : Char → Bool} (h : SameTest p q)
    (h' : SameTest p' q') : SameTest (fun b => p b || p' b) (fun c => q c || q' c) where
  ascii c hc := by simp only [h.ascii c hc, h'.ascii c hc]
  byte b hb := by simp only [h.byte b hb, h'.byte b hb, Bool.or_self]
  char c hc := by simp only [h.char c hc, h'.char c hc, Bool.or_self]

def isAlphanumByte (b : UInt8) : Bool :=
  (65 ≤ b && b ≤ 90) || (97 ≤ b && b ≤ 122) || (48 ≤ b && b ≤ 57)

theorem toNat_le_of_isAlphanum {c : Char} (h : c.isAlphanum = true) : c.toNat ≤ 122 := by
  unfold Char.isAlphanum Char.isAlpha Char.isUpper Char.isLower Char.isDigit at h
  simp only [Bool.or_eq_true, Bool.and_eq_true, decide_eq_true_eq, ge_iff_le,
    UInt32.le_iff_toNat_le] at h
  have hc : c.toNat = c.val.toNat := rfl
  have hZ : 'Z'.val.toNat = 90 := rfl
  have hz : 'z'.val.toNat = 122 := rfl
  have hnine : '9'.val.toNat = 57 := rfl
  omega

theorem sameTest_alphanum : SameTest isAlphanumByte Char.isAlphanum where
  ascii := forall_ascii (by decide)
  byte b hb := by
    have hb : 128 ≤ b.toNat := UInt8.le_iff_toNat_le.1 hb
    have hZ : (90 : UInt8).toNat = 90 := rfl
    have hz : (122 : UInt8).toNat = 122 := rfl
    have hnine : (57 : UInt8).toNat = 57 := rfl
    rw [Bool.eq_false_iff]
    intro h
    simp only [isAlphanumByte, Bool.or_eq_true, Bool.and_eq_true, decide_eq_true_eq,
      UInt8.le_iff_toNat_le] at h
    omega
  char c hc := by
    rw [Bool.eq_false_iff]
    intro h
    have := toNat_le_of_isAlphanum h
    omega

section

variable {p : UInt8 → Bool} {q : Char → Bool} (h : SameTest p q)
include h

theorem SameTest.of_mem_utf8EncodeChar {c : Char} {b : UInt8} (hb : b ∈ String.utf8EncodeChar c) :
    p b = q c := by
  by_cases hc : c.toNat < 128
  · rw [utf8EncodeChar_of_ascii hc, List.mem_singleton] at hb
    rw [hb, h.ascii c hc]
  · have hc := Nat.le_of_not_lt hc
    rw [h.byte b (le_of_mem_utf8EncodeChar hc hb), h.char c hc]

theorem SameTest.takeWhile_bytes (s : List Char) :
    (bytes s).takeWhile p = bytes (s.takeWhile q) := by
  induction s with
  | nil => rfl
  | cons c s ih =>
    rw [bytes_cons, List.takeWhile_cons]
    split
    · next hc =>
      rw [List.takeWhile_append_of_pos fun b hb => (h.of_mem_utf8EncodeChar hb).trans hc, ih,
        bytes_cons]
    · next hc =>
      obtain ⟨b, more, hbytes⟩ := exists_utf8EncodeChar c
      have hb : p b = q c := h.of_mem_utf8EncodeChar (by simp [hbytes])
      rw [hbytes, List.cons_append, List.takeWhile_cons_of_neg (by simpa [hb] using hc), bytes_nil]

end

theorem ne_of_mem_utf8EncodeChar {a c : Char} (ha : a.toNat < 128) (hc : c ≠ a) :
    ∀ b ∈ String.utf8EncodeChar c, (b == a.toUInt8) = false := by
  intro b hb
  rw [(sameTest_eq ha).of_mem_utf8EncodeChar hb, beq_eq_false_iff_ne]
  exact hc

/-! ### A text is determined by its bytes -/

theorem eq_of_utf8EncodeChar_append {c d : Char} {xs ys : List UInt8}
    (h : String.utf8EncodeChar c ++ xs = String.utf8EncodeChar d ++ ys) : c = d := by
  have hc := ByteArray.utf8DecodeChar?_utf8EncodeChar_append (c := c) (b := xs.toByteArray)
  have hd := ByteArray.utf8DecodeChar?_utf8EncodeChar_append (c := d) (b := ys.toByteArray)
  rw [← List.toByteArray_append] at hc hd
  rw [h, hd] at hc
  exact (Option.some.inj hc).symm

theorem prefix_of_bytes_prefix {s t : List Char} (h : bytes s <+: bytes t) : s <+: t := by
  induction s generalizing t with
  | nil => exact List.nil_prefix
  | cons c s ih =>
    cases t with
    | nil =>
      have hlength := h.length_le
      rw [bytes_cons, List.length_append, String.length_utf8EncodeChar] at hlength
      have := c.utf8Size_pos
      simp only [bytes_nil, List.length_nil] at hlength
      omega
    | cons d t =>
      obtain ⟨more, hmore⟩ := h
      rw [bytes_cons, bytes_cons, List.append_assoc] at hmore
      obtain rfl := eq_of_utf8EncodeChar_append hmore
      obtain ⟨rest, rfl⟩ := ih ⟨more, List.append_cancel_left hmore⟩
      exact ⟨rest, rfl⟩

theorem bytes_prefix_iff {s t : List Char} : bytes s <+: bytes t ↔ s <+: t := by
  constructor
  · exact prefix_of_bytes_prefix
  · rintro ⟨rest, rfl⟩
    exact ⟨bytes rest, (bytes_append s rest).symm⟩

@[simp] theorem isPrefixOf_bytes (s t : List Char) :
    (bytes s).isPrefixOf (bytes t) = s.isPrefixOf t := by
  rw [Bool.eq_iff_iff, List.isPrefixOf_iff_prefix, List.isPrefixOf_iff_prefix, bytes_prefix_iff]

theorem bytes_inj {s t : List Char} : bytes s = bytes t ↔ s = t := by
  constructor
  · intro h
    have hs : s <+: t := prefix_of_bytes_prefix (h ▸ List.prefix_rfl)
    have ht : t <+: s := prefix_of_bytes_prefix (h ▸ List.prefix_rfl)
    exact hs.eq_of_length (Nat.le_antisymm hs.length_le ht.length_le)
  · intro h
    rw [h]

/-! ### The case of ASCII letters -/

def lowerByte (b : UInt8) : UInt8 := if 65 ≤ b ∧ b ≤ 90 then b + 32 else b

/-- Equality of byte strings up to the case of ASCII letters. -/
def eqIgnoringByteCase (bs cs : List UInt8) : Bool := bs.map lowerByte == cs.map lowerByte

theorem toLower_of_not_ascii {c : Char} (hc : ¬ c.toNat < 128) : c.toLower = c := by
  unfold Char.toLower
  rw [dif_neg]
  rintro ⟨-, hz⟩
  have : c.toNat ≤ 90 := UInt32.le_iff_toNat_le.1 hz
  omega

theorem map_lowerByte_utf8EncodeChar (c : Char) :
    (String.utf8EncodeChar c).map lowerByte = String.utf8EncodeChar c.toLower := by
  by_cases hc : c.toNat < 128
  · refine forall_ascii (P := fun c => (String.utf8EncodeChar c).map lowerByte =
      String.utf8EncodeChar c.toLower) ?_ c hc
    decide
  · have hlower := toLower_of_not_ascii hc
    have hc := Nat.le_of_not_lt hc
    have hbytes : ∀ b ∈ String.utf8EncodeChar c, lowerByte b = id b := by
      intro b hb
      have := UInt8.le_iff_toNat_le.1 (le_of_mem_utf8EncodeChar hc hb)
      rw [lowerByte, if_neg, id]
      rintro ⟨-, hz⟩
      exact absurd (Nat.le_trans this (UInt8.le_iff_toNat_le.1 hz)) (by decide)
    rw [hlower, List.map_congr_left hbytes, List.map_id]

theorem map_lowerByte_bytes (s : List Char) :
    (bytes s).map lowerByte = bytes (s.map Char.toLower) := by
  induction s with
  | nil => rfl
  | cons c s ih =>
    rw [bytes_cons, List.map_append, map_lowerByte_utf8EncodeChar, ih, List.map_cons, bytes_cons]

theorem eqIgnoringByteCase_bytes (s t : List Char) :
    eqIgnoringByteCase (bytes s) (bytes t) = eqIgnoringAsciiCase s t := by
  rw [eqIgnoringByteCase, eqIgnoringAsciiCase, Bool.eq_iff_iff, beq_iff_eq, beq_iff_eq,
    map_lowerByte_bytes, map_lowerByte_bytes, bytes_inj]

theorem extent_eq_of_eqIgnoringAsciiCase {s t : List Char} (h : eqIgnoringAsciiCase s t = true) :
    extent s = extent t := by
  rw [← eqIgnoringByteCase_bytes, eqIgnoringByteCase, beq_iff_eq] at h
  have hlength := congrArg List.length h
  rwa [List.length_map, List.length_map, length_bytes, length_bytes] at hlength

/-- The bytes of a text begin with a name, in any case of ASCII letters, if the text does. -/
theorem eqIgnoringByteCase_take_iff {s : List Char} (name : List Char) :
    eqIgnoringByteCase ((bytes s).take (extent name)) (bytes name) = true ↔
      ∃ written rest, s = written ++ rest ∧ eqIgnoringAsciiCase written name = true := by
  constructor
  · intro h
    rw [eqIgnoringByteCase, beq_iff_eq, List.map_take, map_lowerByte_bytes,
      map_lowerByte_bytes] at h
    have hbegin : name.map Char.toLower <+: s.map Char.toLower := by
      rw [← bytes_prefix_iff, ← h]
      exact List.take_prefix _ _
    obtain ⟨more, hmore⟩ := hbegin
    obtain ⟨written, rest, rfl, hwritten, -⟩ := List.map_eq_append_iff.1 hmore.symm
    exact ⟨written, rest, rfl, by rw [eqIgnoringAsciiCase, hwritten, beq_self_eq_true]⟩
  · rintro ⟨written, rest, rfl, h⟩
    rw [← extent_eq_of_eqIgnoringAsciiCase h, bytes_append, List.take_left' (length_bytes written),
      eqIgnoringByteCase_bytes, h]

end HtmlTemplate.Text
