import HtmlTemplate.Markup.Reference
import HtmlTemplate.Proofs.Scan.Offsets
import Mathlib.Data.List.TakeWhile

/-!
# Character references by offsets

Decoding by offsets goes through all `&` among the bytes of a text and copies what stands between
the references. References are of ASCII, so a matcher of bytes agrees with the reader of characters
(`Agrees`). A reference holds no `&` but its first character, so the next `&` is behind it, which is
why the offset that is copied up to never overtakes the `&` that is looked at (`decodeAmong_eq`).
-/

namespace HtmlTemplate.Markup.Scan

open Text

/-- A way to read a reference: given the bytes from `&` on, the character that it stands for and how
many bytes it has. -/
abbrev ReferenceMatcher := List UInt8 → Checked (Option (Char × Nat))

/-- Looks a reference up by its bytes. -/
def listed? (table : List (String × Char)) (bs : List UInt8) : Option (Char × Nat) :=
  (table.find? fun entry => (bytes ('&' :: entry.1.toList)).isPrefixOf bs).map fun entry =>
    (entry.2, (bytes ('&' :: entry.1.toList)).length)

/-- The digits of a numeric reference from an offset on, at most `limit`, and the semicolon. -/
def digits? (bs : List UInt8) (start base limit : Nat) : Checked (Option (Char × Nat)) := do
  let digits := (((← bytesFrom bs start).take (limit + 1)).takeWhile isAlphanumByte).length
  if digits = 0 ∨ limit < digits then return none
  else
    let stop := start + digits
    if bs[stop]? ≠ some ';'.toUInt8 then return none
    else
      let written ← bytesBetween bs start stop
      let value := written.toByteArray.utf8Decode?.bind fun text => ofDigits? base text.toList
      return (value.bind charOfScalar?).map fun c => (c, stop + 1)

/-- `&#` with decimal digits, or `&#x` with hexadecimal ones. -/
def numeric? (bs : List UInt8) : Checked (Option (Char × Nat)) :=
  if (bytes ['&', '#', 'x']).isPrefixOf bs || (bytes ['&', '#', 'X']).isPrefixOf bs then
    digits? bs 3 16 6
  else if (bytes ['&', '#']).isPrefixOf bs then digits? bs 2 10 7
  else .ok none

def attributeReference? (lineFeeds : Bool) : ReferenceMatcher := fun bs =>
  match listed? attributeReferences bs with
  | some found => .ok (some found)
  | none => .ok (if lineFeeds then listed? lineFeedReferences bs else none)

def textReference? : ReferenceMatcher := fun bs =>
  match listed? namedTextReferences bs with
  | some found => .ok (some found)
  | none => numeric? bs

/-- Decodes a text whose `&` are at some offsets. The text up to `copied` is decoded in `out`. -/
def decodeAmong (read : ReferenceMatcher) (s : List Char) :
    List Nat → Nat → List Char → Checked (List Char)
  | [], copied, out => do
    let rest ← sliceFrom s copied
    return out ++ rest
  | amp :: more, copied, out => do
    require (copied ≤ amp)
    match ← read (← bytesFrom (bytes s) amp) with
    | none => decodeAmong read s more copied out
    | some (c, n) =>
      let plain ← slice s copied amp
      decodeAmong read s more (amp + n) (out ++ plain ++ [c])

def decode (read : ReferenceMatcher) (s : List Char) : Checked (List Char) :=
  decodeAmong read s (byteOffsets '&'.toUInt8 (bytes s)) 0 []

/-- A text of ASCII without `&`. -/
def IsPlain (s : List Char) : Prop := ∀ d ∈ s, d.toNat < 128 ∧ d ≠ '&'

instance (s : List Char) : Decidable (IsPlain s) := List.decidableBAll _ _

theorem IsPlain.extent_eq {s : List Char} (h : IsPlain s) : extent s = s.length :=
  extent_of_ascii fun d hd => (h d hd).1

/-- A matcher gives what a reader gives, in bytes and with the `&`. A reference is of ASCII and
holds no other `&`. -/
structure Agrees (matcher : ReferenceMatcher) (read : ReferenceReader) : Prop where
  eq : ∀ s, matcher (bytes ('&' :: s)) = .ok ((read s).map fun found => (found.1, found.2 + 1))
  plain : ∀ s c n, read s = some (c, n) →
    ∃ written rest, s = written ++ rest ∧ written.length = n ∧ IsPlain written

theorem byteOffsetsFrom_of_ne {a : Char} (ha : a.toNat < 128) {s : List Char}
    (h : ∀ c ∈ s, c ≠ a) (n : Nat) (t : List Char) :
    byteOffsetsFrom a.toUInt8 n (bytes (s ++ t)) =
      byteOffsetsFrom a.toUInt8 (n + extent s) (bytes t) := by
  induction s generalizing n with
  | nil => rfl
  | cons c s ih =>
    rw [List.cons_append, byteOffsetsFrom_bytes_cons ha, if_neg (h c (by simp)),
      ih fun d hd => h d (by simp [hd]), extent_cons, Nat.add_assoc]

section

variable {matcher : ReferenceMatcher} {read : ReferenceReader}

/-- At a reference what is pending is copied, and the next `&` that is looked at is behind it. -/
theorem decodeAmong_found (h : Agrees matcher read) {copied pending rest written behind : List Char}
    {c : Char} (hrest : rest = written ++ behind)
    (hread : read rest = some (c, written.length))
    (hplain : IsPlain written) (out : List Char) :
    decodeAmong matcher (copied ++ pending ++ '&' :: rest)
        (byteOffsetsFrom '&'.toUInt8 (extent (copied ++ pending)) (bytes ('&' :: rest)))
        (extent copied) out =
      decodeAmong matcher (copied ++ pending ++ '&' :: rest)
        (byteOffsetsFrom '&'.toUInt8 (extent (copied ++ pending ++ '&' :: written)) (bytes behind))
        (extent (copied ++ pending ++ '&' :: written)) (out ++ pending ++ [c]) := by
  have hstop : extent (copied ++ pending ++ '&' :: written) =
      extent (copied ++ pending) + (written.length + 1) := by
    rw [extent_append, extent_cons_of_ascii (by decide), hplain.extent_eq]
  have hoffsets : byteOffsetsFrom '&'.toUInt8 (extent (copied ++ pending) + ('&' : Char).utf8Size)
      (bytes rest) =
        byteOffsetsFrom '&'.toUInt8 (extent (copied ++ pending ++ '&' :: written))
          (bytes behind) := by
    rw [hrest, byteOffsetsFrom_of_ne (by decide) fun d hd => (hplain d hd).2,
      extent_append _ ('&' :: _), extent_cons, Nat.add_assoc]
  have hslice : slice (copied ++ pending ++ '&' :: rest) (extent copied)
      (extent (copied ++ pending)) = .ok pending :=
    slice_eq (List.append_assoc _ _ _).symm rfl (extent_append _ _).symm
  rw [byteOffsetsFrom_bytes_cons (by decide), if_pos rfl, decodeAmong, require_of (by simp),
    ok_bind, bytesFrom_append, ok_bind, h.eq, hread]
  simp only [Option.map_some, ok_bind, hslice, hoffsets, hstop]

theorem decodeAmong_not_found (h : Agrees matcher read) {rest : List Char}
    (hread : read rest = none) (copied pending out : List Char) :
    decodeAmong matcher (copied ++ pending ++ '&' :: rest)
        (byteOffsetsFrom '&'.toUInt8 (extent (copied ++ pending)) (bytes ('&' :: rest)))
        (extent copied) out =
      decodeAmong matcher (copied ++ pending ++ '&' :: rest)
        (byteOffsetsFrom '&'.toUInt8 (extent (copied ++ pending) + ('&' : Char).utf8Size)
          (bytes rest)) (extent copied) out := by
  rw [byteOffsetsFrom_bytes_cons (by decide), if_pos rfl, decodeAmong, require_of (by simp),
    ok_bind, bytesFrom_append, ok_bind, h.eq, hread]
  rfl

/-- Decoding by offsets does not break off. What stands before the offset that is copied up to is
decoded in `out`; what is `pending` behind it holds no reference. -/
theorem decodeAmong_eq (h : Agrees matcher read) (copied pending rest out : List Char) :
    decodeAmong matcher (copied ++ pending ++ rest)
        (byteOffsetsFrom '&'.toUInt8 (extent (copied ++ pending)) (bytes rest)) (extent copied)
        out =
      .ok (decodeFrom read (out ++ pending).reverse rest) := by
  have hpush : ∀ (out pending : List Char) (c : Char),
      (out ++ (pending ++ [c])).reverse = c :: (out ++ pending).reverse := by
    simp
  have hsplit : ∀ (copied pending : List Char) (c : Char) (rest : List Char),
      copied ++ pending ++ c :: rest = copied ++ (pending ++ [c]) ++ rest := by
    simp
  have hextent : ∀ (copied pending : List Char) (c : Char),
      extent (copied ++ pending) + c.utf8Size = extent (copied ++ (pending ++ [c])) := by
    simp [Nat.add_assoc]
  generalize hdone : (out ++ pending).reverse = done
  fun_induction decodeFrom read done rest generalizing copied pending out with
  | case1 done =>
    rw [bytes_nil, byteOffsetsFrom, decodeAmong, List.append_nil, sliceFrom_append, ← hdone,
      List.reverse_reverse]
    rfl
  | case2 done c rest hc d n hread ih =>
    obtain rfl : c = '&' := by simpa using hc
    obtain ⟨written, behind, rfl, rfl, hplain⟩ := h.plain rest d n hread
    have hnext := ih (copied ++ pending ++ '&' :: written) [] (out ++ pending ++ [d])
      (by rw [List.append_nil, List.append_assoc, hpush, hdone])
    rw [List.drop_left, List.append_nil] at hnext
    rw [decodeAmong_found h rfl hread hplain, List.drop_left, ← hnext]
    congr 1
    simp
  | case3 done c rest hc hread ih =>
    obtain rfl : c = '&' := by simpa using hc
    rw [decodeAmong_not_found h hread, hsplit, hextent]
    exact ih copied (pending ++ ['&']) out (by rw [hpush, hdone])
  | case4 done c rest hc ih =>
    rw [byteOffsetsFrom_bytes_cons (by decide), if_neg (by simpa using hc), hsplit, hextent]
    exact ih copied (pending ++ [c]) out (by rw [hpush, hdone])

/-- Decoding by the offsets of all `&` gives what decoding from left to right gives. -/
theorem Agrees.decode_eq (h : Agrees matcher read) (s : List Char) :
    decode matcher s = .ok (decodeFrom read [] s) :=
  decodeAmong_eq h [] [] s []

end

/-! ### The readers of references -/

theorem listed?_eq {table : List (String × Char)} (h : ∀ entry ∈ table, IsPlain entry.1.toList)
    (s : List Char) :
    listed? table (bytes ('&' :: s)) =
      (readListed table s).map fun found => (found.1, found.2 + 1) := by
  have htest : ∀ entry : String × Char,
      (bytes ('&' :: entry.1.toList)).isPrefixOf (bytes ('&' :: s)) =
        entry.1.toList.isPrefixOf s := by
    intro entry
    rw [isPrefixOf_bytes]
    simp [List.isPrefixOf]
  unfold listed? readListed
  simp only [htest, Option.map_map]
  cases hfind : table.find? fun entry => entry.1.toList.isPrefixOf s with
  | none => rfl
  | some entry =>
    have hextent := (h entry (List.mem_of_find?_eq_some hfind)).extent_eq
    simp [extent_cons_of_ascii (c := '&') (by decide), hextent, String.length_toList]

theorem readListed_plain {table : List (String × Char)}
    (h : ∀ entry ∈ table, IsPlain entry.1.toList) {s : List Char} {c : Char} {n : Nat}
    (hread : readListed table s = some (c, n)) :
    ∃ written rest, s = written ++ rest ∧ written.length = n ∧ IsPlain written := by
  obtain ⟨entry, hfind, heq⟩ := Option.map_eq_some_iff.1 hread
  obtain ⟨-, rfl⟩ := Prod.mk.inj heq
  have hbegin : entry.1.toList.isPrefixOf s = true := by
    have := List.find?_some hfind
    exact this
  obtain ⟨rest, hrest⟩ := List.isPrefixOf_iff_prefix.1 hbegin
  exact ⟨entry.1.toList, rest, hrest.symm, String.length_toList,
    h entry (List.mem_of_find?_eq_some hfind)⟩

theorem agrees_attributeReference (lineFeeds : Bool) :
    Agrees (attributeReference? lineFeeds) (readAttributeReference lineFeeds) where
  eq s := by
    unfold attributeReference? readAttributeReference
    rw [listed?_eq (by decide), listed?_eq (by decide)]
    cases readListed attributeReferences s with
    | some found => rfl
    | none => cases lineFeeds <;> rfl
  plain s c n hread := by
    unfold readAttributeReference at hread
    split at hread
    · next found hfound => exact readListed_plain (by decide) (hfound.trans hread)
    · split at hread
      · exact readListed_plain (by decide) hread
      · cases hread

/-! ### Numeric references -/

/-- The digits at the begin of a text, one more than `limit` at most. -/
def leadingDigits (limit : Nat) (s : List Char) : List Char :=
  (s.take (limit + 1)).takeWhile Char.isAlphanum

theorem leadingDigits_prefix (limit : Nat) (s : List Char) : leadingDigits limit s <+: s :=
  (List.takeWhile_prefix _).trans (List.take_prefix _ _)

theorem isPlain_leadingDigits (limit : Nat) (s : List Char) : IsPlain (leadingDigits limit s) := by
  intro d hd
  have halphanum : d.isAlphanum = true := List.mem_takeWhile_imp hd
  have := toNat_le_of_isAlphanum halphanum
  refine ⟨by omega, ?_⟩
  rintro rfl
  cases halphanum

/-- The bytes of the digits are those of the digits of the text. -/
theorem takeWhile_take_bytes (s : List Char) (limit : Nat) :
    ((bytes s).take (limit + 1)).takeWhile isAlphanumByte = bytes (leadingDigits limit s) := by
  have hascii : ∀ c ∈ s.takeWhile Char.isAlphanum, c.toNat < 128 := by
    intro c hc
    have := toNat_le_of_isAlphanum (List.mem_takeWhile_imp hc)
    omega
  rw [leadingDigits, ← List.take_takeWhile, ← List.take_takeWhile,
    sameTest_alphanum.takeWhile_bytes, bytes_of_ascii hascii,
    bytes_of_ascii fun c hc => hascii c (List.mem_of_mem_take hc),
    List.map_take]

/-- Digits are read if there are some, not too many, and a semicolon behind them. -/
theorem readDigits_eq {base limit skipped : Nat} {s digits rest : List Char}
    (hdigits : leadingDigits limit s = digits) (hs : s = digits ++ rest) :
    readDigits base limit skipped s =
      if digits.length = 0 ∨ limit < digits.length then none
      else if rest.head? = some ';' then
        ((ofDigits? base digits).bind charOfScalar?).map fun c => (c, skipped + digits.length + 1)
      else none := by
  have hdrop : s.drop digits.length = rest := by rw [hs, List.drop_left]
  have hcount : (digits.isEmpty || decide (limit < digits.length)) =
      decide (digits.length = 0 ∨ limit < digits.length) := by
    cases digits <;> simp
  rw [leadingDigits] at hdigits
  simp only [readDigits, hdigits, hdrop, hcount]
  by_cases hbad : digits.length = 0 ∨ limit < digits.length
  · rw [decide_eq_true hbad, if_pos hbad]
  · rw [decide_eq_false hbad, if_neg hbad]
    match rest with
    | [] => rfl
    | d :: rest =>
      by_cases hd : d = ';'
      · subst hd
        cases ofDigits? base digits <;> rfl
      · simp [hd]

/-- The digits by offsets, behind what stands before them. -/
theorem digits?_eq (front : List Char) {skipped : Nat} (hfront : extent front = skipped + 1)
    (base limit : Nat) (s : List Char) :
    digits? (bytes (front ++ s)) (skipped + 1) base limit =
      .ok ((readDigits base limit skipped s).map fun found => (found.1, found.2 + 1)) := by
  obtain ⟨rest, hrest⟩ := leadingDigits_prefix limit s
  have hlength := (isPlain_leadingDigits limit s).extent_eq
  rw [readDigits_eq rfl hrest.symm, digits?, bytesFrom_eq rfl hfront, ok_bind, takeWhile_take_bytes,
    length_bytes, hlength]
  generalize leadingDigits limit s = digits at *
  have hstop : extent (front ++ digits) = skipped + 1 + digits.length := by
    rw [extent_append, hfront, hlength]
  have hsemicolon : (bytes (front ++ s))[skipped + 1 + digits.length]? = some ';'.toUInt8 ↔
      rest.head? = some ';' :=
    byte_eq_iff (by decide) (by rw [List.append_assoc, hrest]) hstop
  have hwritten : bytesBetween (bytes (front ++ s)) (skipped + 1) (skipped + 1 + digits.length) =
      .ok (bytes digits) :=
    bytesBetween_eq (by rw [hrest]) hfront (by rw [← extent_append, hstop])
  have hdecode : (bytes digits).toByteArray.utf8Decode? = some digits.toArray :=
    List.utf8Decode?_utf8Encode
  simp only [ne_eq, hsemicolon, hwritten, ok_bind, hdecode]
  split
  · rfl
  · by_cases hhead : rest.head? = some ';'
    · simp [hhead, Function.comp_def, Nat.add_assoc, Nat.add_comm, Nat.add_left_comm]
    · simp [hhead]

theorem readDigits_plain {base limit skipped : Nat} {s : List Char} {c : Char} {n : Nat}
    (hread : readDigits base limit skipped s = some (c, n)) :
    ∃ written rest, s = written ++ rest ∧ n = skipped + written.length ∧ IsPlain written := by
  obtain ⟨rest, hrest⟩ := leadingDigits_prefix limit s
  rw [readDigits_eq rfl hrest.symm] at hread
  split at hread
  · cases hread
  split at hread
  · next hhead =>
    obtain ⟨after, rfl⟩ := List.head?_eq_some_iff.1 hhead
    obtain ⟨d, -, heq⟩ := Option.map_eq_some_iff.1 hread
    obtain ⟨-, rfl⟩ := Prod.mk.inj heq
    refine ⟨leadingDigits limit s ++ [';'], after, by simp [hrest], by simp [Nat.add_assoc], ?_⟩
    intro d hd
    obtain hd | hd := List.mem_append.1 hd
    · exact isPlain_leadingDigits limit s d hd
    · rw [List.mem_singleton.1 hd]
      decide
  · cases hread

theorem numeric?_eq (s : List Char) :
    numeric? (bytes ('&' :: s)) =
      .ok ((readNumeric s).map fun found => (found.1, found.2 + 1)) := by
  unfold readNumeric
  split
  · next s =>
    rw [numeric?, isPrefixOf_bytes, if_pos (by simp [List.isPrefixOf])]
    exact digits?_eq ['&', '#', 'x'] rfl 16 6 s
  · next s =>
    rw [numeric?, isPrefixOf_bytes, isPrefixOf_bytes, if_pos (by simp [List.isPrefixOf])]
    exact digits?_eq ['&', '#', 'X'] rfl 16 6 s
  · next s hx hX =>
    have hhex : ¬ (['&', '#', 'x'].isPrefixOf ('&' :: '#' :: s) ||
        ['&', '#', 'X'].isPrefixOf ('&' :: '#' :: s)) = true := by
      cases s with
      | nil => decide
      | cons c s =>
        have hx : c ≠ 'x' := fun h => hx s (by rw [h])
        have hX : c ≠ 'X' := fun h => hX s (by rw [h])
        simp [List.isPrefixOf, hx.symm, hX.symm]
    rw [numeric?, isPrefixOf_bytes, isPrefixOf_bytes, if_neg hhex, isPrefixOf_bytes,
      if_pos (by simp [List.isPrefixOf])]
    exact digits?_eq ['&', '#'] rfl 10 7 s
  · next hmark =>
    have hnone : ∀ more, (['&', '#'] ++ more).isPrefixOf ('&' :: s) = false := by
      intro more
      cases s with
      | nil => rfl
      | cons c s =>
        have hc : c ≠ '#' := fun h => hmark s (by rw [h])
        simp [List.isPrefixOf, hc.symm]
    have hx := hnone ['x']
    have hX := hnone ['X']
    have hmark := hnone []
    simp only [List.cons_append, List.nil_append] at hx hX hmark
    simp [numeric?, hx, hX, hmark]

theorem readNumeric_plain {s : List Char} {c : Char} {n : Nat}
    (hread : readNumeric s = some (c, n)) :
    ∃ written rest, s = written ++ rest ∧ written.length = n ∧ IsPlain written := by
  have hfront : ∀ (front s : List Char) (base limit : Nat), IsPlain front →
      readDigits base limit front.length s = some (c, n) →
        ∃ written rest, front ++ s = written ++ rest ∧ written.length = n ∧ IsPlain written := by
    intro front s base limit hplain hdigits
    obtain ⟨written, rest, rfl, rfl, hwritten⟩ := readDigits_plain hdigits
    exact ⟨front ++ written, rest, by simp, by simp, List.forall_mem_append.2 ⟨hplain, hwritten⟩⟩
  unfold readNumeric at hread
  split at hread
  · next s => exact hfront ['#', 'x'] s 16 6 (by decide) hread
  · next s => exact hfront ['#', 'X'] s 16 6 (by decide) hread
  · next s _ _ => exact hfront ['#'] s 10 7 (by decide) hread
  · cases hread

theorem agrees_textReference : Agrees textReference? readTextReference where
  eq s := by
    unfold textReference? readTextReference
    rw [listed?_eq (by decide), numeric?_eq]
    cases readListed namedTextReferences s <;> rfl
  plain s c n hread := by
    unfold readTextReference at hread
    split at hread
    · next found hfound => exact readListed_plain (by decide) (hfound.trans hread)
    · exact readNumeric_plain hread

end HtmlTemplate.Markup.Scan
