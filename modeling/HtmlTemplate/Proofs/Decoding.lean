import HtmlTemplate.Proofs.Scan.References
import Mathlib.Data.List.Forall2
import Mathlib.Data.List.Induction
import Mathlib.Data.Nat.Digits.Defs
import Mathlib.Tactic.IntervalCases

/-!
# Decoding as a rewriting

The references that stand for a character are described by how they are written, and decoding by a
relation (`Rewrites`): where a reference begins its character is written and the rest is rewritten
from behind it, elsewhere one character is copied. A reader that finds exactly the references
(`ReadsExactly`) decodes along this relation and no other way, whatever the references are. What is
left is that the two readers find exactly the references of attribute values and of texts.
-/

namespace HtmlTemplate.Markup

/-! ### The references -/

/-- A reference of a table: `&` and what the table lists, the semicolon included. -/
def Listed (table : List (String × Char)) (written : List Char) (c : Char) : Prop :=
  ∃ entry ∈ table, written = '&' :: entry.1.toList ∧ c = entry.2

/-- The references of attribute values. -/
def AttributeReference (lineFeeds : Bool) : List Char → Char → Prop :=
  Listed (attributeReferences ++ if lineFeeds then lineFeedReferences else [])

/-- A digit and its value; a letter may be a capital. -/
def IsDigit (base : Nat) (c : Char) (value : Nat) : Prop :=
  value < base ∧ (c = Nat.digitChar value ∨ c = (Nat.digitChar value).toUpper)

/-- Digits that write a number, the last of them its ones. -/
def WritesNumber (base : Nat) (digits : List Char) (n : Nat) : Prop :=
  ∃ values, List.Forall₂ (IsDigit base) digits.reverse values ∧ Nat.ofDigits base values = n

/-- A decimal or hexadecimal reference to a character. -/
inductive NumericReference : List Char → Char → Prop
  | decimal {digits c} : digits ≠ [] → digits.length ≤ 7 → WritesNumber 10 digits c.toNat →
      NumericReference ('&' :: '#' :: (digits ++ [';'])) c
  | hexadecimal {mark digits c} : mark = 'x' ∨ mark = 'X' → digits ≠ [] → digits.length ≤ 6 →
      WritesNumber 16 digits c.toNat → NumericReference ('&' :: '#' :: mark :: (digits ++ [';'])) c

/-- The references of texts. -/
def TextReference (written : List Char) (c : Char) : Prop :=
  Listed namedTextReferences written c ∨ NumericReference written c

/-! ### Rewriting from left to right -/

/-- One pass from left to right: a reference is replaced by its character, a character that no
reference begins at is copied. -/
inductive Rewrites (ref : List Char → Char → Prop) : List Char → List Char → Prop
  | nil : Rewrites ref [] []
  | reference {written c rest out} : ref written c → Rewrites ref rest out →
      Rewrites ref (written ++ rest) (c :: out)
  | copy {c rest out} : (∀ written d, ref written d → ¬ written <+: c :: rest) →
      Rewrites ref rest out → Rewrites ref (c :: rest) (c :: out)

/-- A reference that begins in the first text and ends in the second. -/
def Straddles (ref : List Char → Char → Prop) (s t : List Char) : Prop :=
  ∃ front back c, front ≠ [] ∧ back ≠ [] ∧ front <:+ s ∧ back <+: t ∧ ref (front ++ back) c

/-- What one piece of a text becomes. -/
inductive Becomes (ref : List Char → Char → Prop) : List Char → List Char → Prop
  | reference {written c} : ref written c → Becomes ref written [c]
  | copied (c) : Becomes ref [c] [c]

section

variable {ref : List Char → Char → Prop} {s t out out' : List Char}

/-- Each piece of the text is rewritten by itself, so that no part of what a reference stands for is
read again and everything else is kept. -/
theorem Rewrites.exists_pieces (h : Rewrites ref s out) :
    ∃ pieces : List (List Char × List Char), s = pieces.flatMap Prod.fst ∧
      out = pieces.flatMap Prod.snd ∧ ∀ piece ∈ pieces, Becomes ref piece.1 piece.2 := by
  induction h with
  | nil => exact ⟨[], rfl, rfl, by simp⟩
  | @reference written c rest out href _ ih =>
    obtain ⟨pieces, rfl, rfl, hpieces⟩ := ih
    exact ⟨(written, [c]) :: pieces, rfl, rfl, List.forall_mem_cons.2 ⟨.reference href, hpieces⟩⟩
  | @copy c rest out _ _ ih =>
    obtain ⟨pieces, rfl, rfl, hpieces⟩ := ih
    exact ⟨([c], [c]) :: pieces, rfl, rfl, List.forall_mem_cons.2 ⟨.copied c, hpieces⟩⟩

theorem Rewrites.append (hs : Rewrites ref s out) (ht : Rewrites ref t out')
    (hcut : ¬ Straddles ref s t) : Rewrites ref (s ++ t) (out ++ out') := by
  have hsuffix : ∀ front {rest}, ¬ Straddles ref (front ++ rest) t → ¬ Straddles ref rest t :=
    fun _ _ hcut ⟨x, y, c, hx, hy, hxs, hyt, href⟩ =>
      hcut ⟨x, y, c, hx, hy, hxs.trans (List.suffix_append _ _), hyt, href⟩
  induction hs with
  | nil => exact ht
  | reference href _ ih =>
    rw [List.append_assoc]
    exact .reference href (ih (hsuffix _ hcut))
  | @copy c rest out hnone _ ih =>
    refine .copy (fun written d href hprefix => ?_) (ih (hsuffix [c] hcut))
    obtain hshort | ⟨back, rfl⟩ :=
      List.prefix_or_prefix_of_prefix hprefix (List.prefix_append (c :: rest) t)
    · exact hnone written d href hshort
    · refine hcut ⟨c :: rest, back, d, by simp, ?_, List.suffix_refl _, ?_, href⟩
      · rintro rfl
        exact hnone _ d href (by simp)
      · exact (List.prefix_append_right_inj (c :: rest)).1 hprefix

/-- A reader that finds exactly the references, behind their `&`. -/
structure ReadsExactly (read : ReferenceReader) (ref : List Char → Char → Prop) : Prop where
  eq_some_iff : ∀ s c n, read s = some (c, n) ↔
    ∃ written rest, s = written ++ rest ∧ written.length = n ∧ ref ('&' :: written) c
  exists_eq_cons : ∀ written c, ref written c → ∃ tail, written = '&' :: tail

variable {read : ReferenceReader}

theorem ReadsExactly.decodeFrom_eq (hread : ReadsExactly read ref) (h : Rewrites ref s out)
    (done : List Char) : decodeFrom read done s = done.reverse ++ out := by
  induction h generalizing done with
  | nil => simp [decodeFrom]
  | @reference written c rest out href _ ih =>
    obtain ⟨tail, rfl⟩ := hread.exists_eq_cons written c href
    have hfound : read (tail ++ rest) = some (c, tail.length) :=
      (hread.eq_some_iff _ _ _).2 ⟨tail, rest, rfl, rfl, href⟩
    rw [List.cons_append, decodeFrom]
    simp [hfound, ih]
  | @copy c rest out hnone _ ih =>
    have hcopy : decodeFrom read done (c :: rest) = decodeFrom read (c :: done) rest := by
      rw [decodeFrom]
      split
      · next hamp =>
        obtain rfl : c = '&' := by simpa using hamp
        split
        · next d n hfound =>
          obtain ⟨written, behind, rfl, -, href⟩ := (hread.eq_some_iff _ _ _).1 hfound
          exact absurd (List.prefix_append ('&' :: written) behind) (hnone _ d href)
        · rfl
      · rfl
    rw [hcopy, ih]
    simp

theorem ReadsExactly.exists_rewrites (hread : ReadsExactly read ref) (s : List Char) :
    ∃ out, Rewrites ref s out := by
  have hcopied : ∀ c rest, (c = '&' → read rest = none) →
      ∀ written d, ref written d → ¬ written <+: c :: rest := by
    intro c rest hnone written d href hprefix
    obtain ⟨tail, rfl⟩ := hread.exists_eq_cons written d href
    obtain ⟨rfl, behind, rfl⟩ := List.cons_prefix_cons.1 hprefix
    have hfound := (hread.eq_some_iff _ _ _).2 ⟨tail, behind, rfl, rfl, href⟩
    rw [hnone rfl] at hfound
    cases hfound
  generalize hdone : ([] : List Char) = done
  clear hdone
  fun_induction decodeFrom read done s with
  | case1 done => exact ⟨[], .nil⟩
  | case2 done c rest hamp d n hfound ih =>
    obtain rfl : c = '&' := by simpa using hamp
    obtain ⟨written, behind, rfl, rfl, href⟩ := (hread.eq_some_iff _ _ _).1 hfound
    obtain ⟨out, hout⟩ := ih
    rw [List.drop_left] at hout
    exact ⟨d :: out, .reference href hout⟩
  | case3 done c rest hamp hnone ih =>
    obtain ⟨out, hout⟩ := ih
    exact ⟨c :: out, .copy (hcopied c rest fun _ => hnone) hout⟩
  | case4 done c rest hamp ih =>
    obtain ⟨out, hout⟩ := ih
    exact ⟨c :: out, .copy (hcopied c rest fun h => absurd h (by simpa using hamp)) hout⟩

/-- A decoder that rewrites a text and does nothing else. -/
structure IsRewriting (decode : List Char → List Char) (ref : List Char → Char → Prop) : Prop where
  eq_iff : ∀ s out, decode s = out ↔ Rewrites ref s out
  exists_pieces : ∀ s, ∃ pieces : List (List Char × List Char), s = pieces.flatMap Prod.fst ∧
    decode s = pieces.flatMap Prod.snd ∧ ∀ piece ∈ pieces, Becomes ref piece.1 piece.2
  append : ∀ s t, ¬ Straddles ref s t → decode (s ++ t) = decode s ++ decode t

theorem ReadsExactly.isRewriting (hread : ReadsExactly read ref) :
    IsRewriting (decodeFrom read []) ref := by
  have heq : ∀ s out, Rewrites ref s out → decodeFrom read [] s = out := fun s out h =>
    hread.decodeFrom_eq h []
  have hself : ∀ s, Rewrites ref s (decodeFrom read [] s) := by
    intro s
    obtain ⟨out, hout⟩ := hread.exists_rewrites s
    rwa [heq s out hout]
  exact {
    eq_iff := fun s out => ⟨fun h => h ▸ hself s, heq s out⟩
    exists_pieces := fun s => (hself s).exists_pieces
    append := fun s t hcut => heq _ _ ((hself s).append (hself t) hcut) }

end

/-! ### Listed references -/

/-- A table in which no entry begins with another one is read exactly. -/
theorem readListed_eq_some_iff {table : List (String × Char)}
    (htable : ∀ entry ∈ table, ∀ other ∈ table,
      entry.1.toList <+: other.1.toList → entry = other)
    (s : List Char) (c : Char) (n : Nat) :
    readListed table s = some (c, n) ↔
      ∃ written rest, s = written ++ rest ∧ written.length = n ∧
        Listed table ('&' :: written) c := by
  constructor
  · intro hread
    obtain ⟨entry, hfind, heq⟩ := Option.map_eq_some_iff.1 hread
    obtain ⟨rfl, rfl⟩ := Prod.mk.inj heq
    have hbegin : entry.1.toList.isPrefixOf s = true := by
      have := List.find?_some hfind
      exact this
    obtain ⟨rest, hrest⟩ := List.isPrefixOf_iff_prefix.1 hbegin
    exact ⟨entry.1.toList, rest, hrest.symm, String.length_toList, entry,
      List.mem_of_find?_eq_some hfind, rfl, rfl⟩
  · rintro ⟨written, rest, rfl, rfl, entry, hentry, hwritten, rfl⟩
    obtain rfl : written = entry.1.toList := (List.cons.inj hwritten).2
    obtain ⟨other, hother⟩ : ∃ other,
        (table.find? fun entry' => entry'.1.toList.isPrefixOf (entry.1.toList ++ rest)) =
          some other :=
      Option.isSome_iff_exists.1 (List.find?_isSome.2 ⟨entry, hentry, by simp⟩)
    have hmem := List.mem_of_find?_eq_some hother
    have hbegin : other.1.toList.isPrefixOf (entry.1.toList ++ rest) = true := by
      have := List.find?_some hother
      exact this
    obtain rfl : other = entry := by
      obtain h | h := List.prefix_or_prefix_of_prefix (List.isPrefixOf_iff_prefix.1 hbegin)
        (List.prefix_append entry.1.toList rest)
      · exact htable other hmem entry hentry h
      · exact (htable entry hentry other hmem h).symm
    rw [readListed, hother, String.length_toList]
    rfl

theorem readAttributeReference_eq (lineFeeds : Bool) :
    readAttributeReference lineFeeds =
      readListed (attributeReferences ++ if lineFeeds then lineFeedReferences else []) := by
  funext s
  unfold readAttributeReference readListed
  rw [List.find?_append]
  cases attributeReferences.find? fun entry => entry.1.toList.isPrefixOf s with
  | some entry => rfl
  | none => cases lineFeeds <;> rfl

theorem reads_attributeReference (lineFeeds : Bool) :
    ReadsExactly (readAttributeReference lineFeeds) (AttributeReference lineFeeds) where
  eq_some_iff := by
    rw [readAttributeReference_eq]
    exact readListed_eq_some_iff (by cases lineFeeds <;> decide)
  exists_eq_cons := by
    rintro written c ⟨entry, -, rfl, -⟩
    exact ⟨_, rfl⟩

/-! ### Numeric references -/

theorem digitValue?_eq_some_iff {base : Nat} (hbase : base ≤ 16) (c : Char) (value : Nat) :
    digitValue? base c = some value ↔ IsDigit base c value := by
  have hbelow : digitValue? base c = some value ↔ value < base ∧ digitValue? 16 c = some value := by
    simp only [digitValue?]
    grind
  rw [hbelow]
  refine and_congr_right fun hvalue => ⟨fun h => ?_, ?_⟩
  · have hascii : c.toNat < 128 := by
      by_contra hc
      have hle : ∀ d : Char, d.toNat < 128 → ¬ c ≤ d := fun d hd hcd =>
        hc (Nat.lt_of_le_of_lt hcd hd)
      have hdigit : c.isDigit = false := by
        refine Bool.eq_false_iff.2 fun hdigit => ?_
        have halphanum : c.isAlphanum = true := by simp [Char.isAlphanum, hdigit]
        have := Text.toNat_le_of_isAlphanum halphanum
        omega
      simp [digitValue?, hdigit, hle] at h
    have hall : ∀ n : Fin 128, ∀ value < 16, digitValue? 16 (Char.ofNat n) = some value →
        Char.ofNat n = Nat.digitChar value ∨ Char.ofNat n = (Nat.digitChar value).toUpper := by
      decide +kernel
    have hc := Text.forall_ascii (P := fun c => ∀ value < 16, digitValue? 16 c = some value →
      c = Nat.digitChar value ∨ c = (Nat.digitChar value).toUpper) hall c hascii
    exact hc value (by omega) h
  · have hlt : value < 16 := by omega
    rintro (rfl | rfl) <;> clear hbelow <;> interval_cases value <;> decide

theorem WritesNumber.concat_iff {base : Nat} {digits : List Char} {c : Char} {n : Nat} :
    WritesNumber base (digits ++ [c]) n ↔
      ∃ m value, WritesNumber base digits m ∧ IsDigit base c value ∧ m * base + value = n := by
  simp only [WritesNumber, List.reverse_append, List.reverse_singleton, List.singleton_append,
    List.forall₂_cons_left_iff]
  constructor
  · rintro ⟨_, ⟨value, values, hvalue, hvalues, rfl⟩, rfl⟩
    exact ⟨_, value, ⟨values, hvalues, rfl⟩, hvalue, by
      rw [Nat.ofDigits_cons, Nat.mul_comm, Nat.add_comm]⟩
  · rintro ⟨_, value, ⟨values, hvalues, rfl⟩, hvalue, rfl⟩
    exact ⟨_, ⟨value, values, hvalue, hvalues, rfl⟩, by
      rw [Nat.ofDigits_cons, Nat.mul_comm, Nat.add_comm]⟩

theorem ofDigits?_eq_some_iff {base : Nat} (hbase : base ≤ 16) (digits : List Char) (n : Nat) :
    ofDigits? base digits = some n ↔ WritesNumber base digits n := by
  induction digits using List.reverseRecOn generalizing n with
  | nil => simp [ofDigits?, WritesNumber, eq_comm]
  | append_singleton digits c ih =>
    have hstep : ofDigits? base (digits ++ [c]) = some n ↔
        ∃ m value, ofDigits? base digits = some m ∧ digitValue? base c = some value ∧
          m * base + value = n := by
      simp only [ofDigits?, List.foldl_append, List.foldl_cons, List.foldl_nil]
      split <;> simp_all
    rw [hstep, WritesNumber.concat_iff]
    simp only [ih, digitValue?_eq_some_iff hbase]

theorem charOfScalar?_eq_some_iff (n : Nat) (c : Char) :
    charOfScalar? n = some c ↔ c.toNat = n := by
  unfold charOfScalar?
  by_cases h : n.isValidChar
  · rw [dif_pos h, Option.some.injEq]
    refine ⟨?_, fun hc => Char.toNat_inj.1 hc.symm⟩
    rintro rfl
    rfl
  · rw [dif_neg h]
    refine ⟨nofun, ?_⟩
    rintro rfl
    exact absurd c.valid h

theorem IsDigit.isAlphanum {base value : Nat} {c : Char} (hbase : base ≤ 16)
    (h : IsDigit base c value) : c.isAlphanum = true := by
  obtain ⟨hvalue, h⟩ := h
  have hlt : value < 16 := by omega
  obtain rfl | rfl := h <;> interval_cases value <;> decide

theorem WritesNumber.exists_isDigit {base n : Nat} {digits : List Char}
    (h : WritesNumber base digits n) : ∀ c ∈ digits, ∃ value, IsDigit base c value := by
  obtain ⟨values, hvalues, -⟩ := h
  have hall := (List.forall₂_and_left (p := fun c => ∃ value, IsDigit base c value) _ _).1
    (hvalues.imp fun c value h => ⟨⟨value, h⟩, h⟩)
  exact fun c hc => hall.1 c (List.mem_reverse.2 hc)

/-- What follows the mark of a numeric reference is read exactly. -/
theorem readDigits_eq_some_iff {base : Nat} (hbase : base ≤ 16) (limit skipped : Nat)
    (s : List Char) (c : Char) (n : Nat) :
    readDigits base limit skipped s = some (c, n) ↔
      ∃ digits rest, s = digits ++ ';' :: rest ∧ n = skipped + digits.length + 1 ∧
        digits ≠ [] ∧ digits.length ≤ limit ∧ WritesNumber base digits c.toNat := by
  constructor
  · intro hread
    obtain ⟨rest, hrest⟩ := Scan.leadingDigits_prefix limit s
    rw [Scan.readDigits_eq rfl hrest.symm] at hread
    split at hread
    · cases hread
    next hcount =>
    split at hread
    · next hhead =>
      obtain ⟨behind, rfl⟩ := List.head?_eq_some_iff.1 hhead
      obtain ⟨d, hd, heq⟩ := Option.map_eq_some_iff.1 hread
      obtain ⟨rfl, rfl⟩ := Prod.mk.inj heq
      obtain ⟨m, hm, hscalar⟩ := Option.bind_eq_some_iff.1 hd
      obtain rfl := (charOfScalar?_eq_some_iff m d).1 hscalar
      rw [not_or, Nat.not_lt] at hcount
      exact ⟨_, behind, hrest.symm, rfl, fun h => hcount.1 (by rw [h]; rfl), hcount.2,
        (ofDigits?_eq_some_iff hbase _ _).1 hm⟩
    · cases hread
  · rintro ⟨digits, rest, rfl, rfl, hne, hlimit, hdigits⟩
    have hleading : Scan.leadingDigits limit (digits ++ ';' :: rest) = digits := by
      have halphanum : ∀ d ∈ digits, d.isAlphanum = true := fun d hd =>
        have ⟨_, hvalue⟩ := hdigits.exists_isDigit d hd
        hvalue.isAlphanum hbase
      rw [Scan.leadingDigits, ← List.take_takeWhile, List.takeWhile_append_of_pos halphanum,
        List.takeWhile_cons_of_neg (by decide), List.append_nil,
        List.take_of_length_le (Nat.le_succ_of_le hlimit)]
    have hcount : ¬ (digits.length = 0 ∨ limit < digits.length) := by
      have := List.length_pos_iff.2 hne
      omega
    rw [Scan.readDigits_eq hleading rfl, if_neg hcount, List.head?_cons, if_pos rfl,
      (ofDigits?_eq_some_iff hbase _ _).2 hdigits, Option.bind_some,
      (charOfScalar?_eq_some_iff _ _).2 rfl]
    rfl

theorem readNumeric_hexadecimal {mark : Char} (hmark : mark = 'x' ∨ mark = 'X') (s : List Char) :
    readNumeric ('#' :: mark :: s) = readDigits 16 6 2 s := by
  obtain rfl | rfl := hmark <;> rfl

theorem readNumeric_decimal {s : List Char}
    (h : ∀ mark, s.head? = some mark → mark ≠ 'x' ∧ mark ≠ 'X') :
    readNumeric ('#' :: s) = readDigits 10 7 1 s := by
  unfold readNumeric
  split
  · next heq => exact absurd rfl (h 'x' (by rw [(List.cons.inj heq).2]; rfl)).1
  · next heq => exact absurd rfl (h 'X' (by rw [(List.cons.inj heq).2]; rfl)).2
  · next heq => rw [(List.cons.inj heq).2]
  · next hother => exact absurd rfl (hother s)

theorem reads_numericReference : ReadsExactly readNumeric NumericReference where
  eq_some_iff s c n := by
    constructor
    · intro hread
      unfold readNumeric at hread
      split at hread
      · obtain ⟨digits, rest, rfl, rfl, hne, hlimit, hdigits⟩ :=
          (readDigits_eq_some_iff (by decide) _ _ _ _ _).1 hread
        exact ⟨'#' :: 'x' :: (digits ++ [';']), rest, by simp, by simp; omega,
          .hexadecimal (.inl rfl) hne hlimit hdigits⟩
      · obtain ⟨digits, rest, rfl, rfl, hne, hlimit, hdigits⟩ :=
          (readDigits_eq_some_iff (by decide) _ _ _ _ _).1 hread
        exact ⟨'#' :: 'X' :: (digits ++ [';']), rest, by simp, by simp; omega,
          .hexadecimal (.inr rfl) hne hlimit hdigits⟩
      · obtain ⟨digits, rest, rfl, rfl, hne, hlimit, hdigits⟩ :=
          (readDigits_eq_some_iff (by decide) _ _ _ _ _).1 hread
        exact ⟨'#' :: (digits ++ [';']), rest, by simp, by simp; omega,
          .decimal hne hlimit hdigits⟩
      · cases hread
    · rintro ⟨written, rest, rfl, rfl, href⟩
      cases href with
      | @decimal digits _ hne hlimit hdigits =>
        obtain ⟨d, more, rfl⟩ := List.exists_cons_of_ne_nil hne
        have hmark : d ≠ 'x' ∧ d ≠ 'X' := by
          obtain ⟨value, hlt, h⟩ := hdigits.exists_isDigit d (by simp)
          obtain rfl | rfl := h <;> interval_cases value <;> decide
        rw [List.cons_append, readNumeric_decimal (by simpa using hmark)]
        exact (readDigits_eq_some_iff (by decide) _ _ _ _ _).2
          ⟨d :: more, rest, by simp, by simp; omega, hne, hlimit, hdigits⟩
      | @hexadecimal mark digits _ hmark hne hlimit hdigits =>
        rw [List.cons_append, List.cons_append, readNumeric_hexadecimal hmark]
        exact (readDigits_eq_some_iff (by decide) _ _ _ _ _).2
          ⟨digits, rest, by simp, by simp; omega, hne, hlimit, hdigits⟩
  exists_eq_cons := by
    rintro written c (_ | _) <;> exact ⟨_, rfl⟩

/-- No named reference begins as a numeric one. -/
theorem readListed_of_numericReference {written rest : List Char} {c : Char}
    (h : NumericReference ('&' :: written) c) :
    readListed namedTextReferences (written ++ rest) = none := by
  have hmark : ∀ s, readListed namedTextReferences ('#' :: s) = none := by
    intro s
    simp [readListed, namedTextReferences, List.isPrefixOf]
  cases h <;> exact hmark _

theorem reads_textReference : ReadsExactly readTextReference TextReference where
  eq_some_iff s c n := by
    have hnamed : readListed namedTextReferences s = some (c, n) ↔ _ :=
      readListed_eq_some_iff (by decide) s c n
    have hnumeric := reads_numericReference.eq_some_iff s c n
    constructor
    · intro hread
      unfold readTextReference at hread
      split at hread
      · next found hfound =>
        obtain ⟨written, rest, hs, hn, href⟩ := hnamed.1 (hfound.trans hread)
        exact ⟨written, rest, hs, hn, .inl href⟩
      · obtain ⟨written, rest, hs, hn, href⟩ := hnumeric.1 hread
        exact ⟨written, rest, hs, hn, .inr href⟩
    · rintro ⟨written, rest, rfl, hn, href | href⟩
      · rw [readTextReference, hnamed.2 ⟨written, rest, rfl, hn, href⟩]
      · rw [readTextReference, readListed_of_numericReference href]
        exact hnumeric.2 ⟨written, rest, rfl, hn, href⟩
  exists_eq_cons := by
    rintro written c (⟨entry, -, rfl, -⟩ | href)
    · exact ⟨_, rfl⟩
    · exact reads_numericReference.exists_eq_cons written c href

/-! ### The decoders -/

/-- Attribute values and texts are rewritten in one pass from left to right, and decoding by the
offsets of the `&` computes the same without breaking off. -/
theorem isRewriting_decode :
    (∀ lineFeeds, IsRewriting (decodeValue lineFeeds) (AttributeReference lineFeeds)) ∧
    IsRewriting (fun s => (decodeContent (String.ofList s)).toList) TextReference ∧
    (∀ lineFeeds s, Scan.decode (Scan.attributeReference? lineFeeds) s =
      .ok (decodeValue lineFeeds s)) ∧
    ∀ s, Scan.decode Scan.textReference? s = .ok (decodeContent (String.ofList s)).toList := by
  have hcontent : ∀ s,
      (decodeContent (String.ofList s)).toList = decodeFrom readTextReference [] s := by
    simp [decodeContent]
  refine ⟨fun lineFeeds => (reads_attributeReference lineFeeds).isRewriting, ?_,
    fun lineFeeds => (Scan.agrees_attributeReference lineFeeds).decode_eq, ?_⟩
  · simpa only [hcontent] using reads_textReference.isRewriting
  · simpa only [hcontent] using Scan.agrees_textReference.decode_eq

example : decodeContent "&amp;lt;&#x9;" = "&lt;\t" := by cbv

end HtmlTemplate.Markup
