import HtmlTemplate.Proofs.Scan.Tags

/-!
# Start tags by offsets

The matchers of attributes give offsets into the text behind the attributes before, which are
shifted to offsets into the tag. Offsets describe an attribute (`AttributeOffsets.Describe`) if
slices at them give its name and its value. An attribute has at least one byte, so the loop over the
attributes ends in the rounds that it is given (`finds_attributes?`).
-/

namespace HtmlTemplate.Markup.Scan

open Text

/-! ### Names of attributes -/

def isWordByte (b : UInt8) : Bool := isAlphanumByte b || b == '_'.toUInt8 || b == '-'.toUInt8

theorem sameTest_word : SameTest isWordByte isWordPart :=
  (sameTest_alphanum.or (sameTest_eq (a := '_') (by decide))).or
    (sameTest_eq (a := '-') (by decide))

def isMarkByte (b : UInt8) : Bool := b == '@'.toUInt8 || b == ':'.toUInt8 || b == '#'.toUInt8

theorem sameTest_mark : SameTest isMarkByte fun c => c == '@' || c == ':' || c == '#' :=
  ((sameTest_eq (a := '@') (by decide)).or (sameTest_eq (a := ':') (by decide))).or
    (sameTest_eq (a := '#') (by decide))

/-- The length of what may stand before the bracket of an argument. -/
def bracketPrefix? (s : List Char) : Checked (Option Nat) :=
  if (bytes ['v', '-']).isPrefixOf (bytes s) then do
    let word := ((← bytesFrom (bytes s) 2).takeWhile isWordByte).length
    return if word = 0 ∨ (bytes s)[2 + word]? ≠ some ':'.toUInt8 then none else some (2 + word + 1)
  else .ok (if (bytes s).head?.any isMarkByte then some 1 else none)

/-- The same with the bracket. -/
def bracketOpening? (s : List Char) : Checked (Option Nat) := do
  match ← bracketPrefix? s with
  | none => return none
  | some n => return if (bytes s)[n]? = some '['.toUInt8 then some (n + 1) else none

/-- What stands behind an opening bracket, up to a `=`. -/
def bracketSegment (s : List Char) (inner : Nat) : Checked (List UInt8) := do
  let behind ← bytesFrom (bytes s) inner
  let most ← subtract (bytes s).length inner
  bytesBetween (bytes s) inner (inner + (firstByte? '='.toUInt8 behind).getD most)

/-- Where the name ends whose bracket is closed before an offset. -/
def bracketedNameStop (s : List Char) (after : Nat) : Checked Nat := do
  let rest ← sliceFrom s after
  let most ← subtract (extent s) after
  return after + (charOffset? (fun c => !isAttributeNamePart c) rest).getD most

/-- The length of the name of an attribute whose argument is in brackets. -/
def bracketedName? (s : List Char) : Checked (Option Nat) := do
  match ← bracketOpening? s with
  | none => return none
  | some inner =>
    let segment ← bracketSegment s inner
    if segment.isEmpty then return none
    else
      match firstByte? ']'.toUInt8 (segment.drop 1) with
      | none => return none
      | some n => return some (← bracketedNameStop s (inner + (1 + n) + 1))

/-- The length of the name of a plain attribute. -/
def plainName? (s : List Char) : Checked (Option Nat) :=
  let n := (charOffset? (fun c => !isAttributeNamePart c) s).getD (extent s)
  .ok (if n = 0 then none else some n)

/-- What may stand before the bracket, if a `v-` begins it: `v-`, a word and a colon. -/
theorem bracketPrefix?_word (rest : List Char) :
    bracketPrefix? ('v' :: '-' :: rest) =
      .ok (if rest.takeWhile isWordPart = [] ∨ (rest.dropWhile isWordPart).head? ≠ some ':' then
          none
        else some (extent ('v' :: '-' :: rest.takeWhile isWordPart) + 1)) := by
  have hbegin : ['v', '-'].isPrefixOf ('v' :: '-' :: rest) = true := by simp
  have hrest : bytesFrom (bytes ('v' :: '-' :: rest)) 2 = .ok (bytes rest) :=
    bytesFrom_eq (t := ['v', '-']) rfl rfl
  have hsplit := List.takeWhile_append_dropWhile (p := isWordPart) (l := rest)
  generalize hword : rest.takeWhile isWordPart = word at *
  generalize rest.dropWhile isWordPart = behind at *
  have hextent : extent ('v' :: '-' :: word) = 2 + extent word := by
    rw [extent_cons_of_ascii (by decide), extent_cons_of_ascii (by decide)]
    omega
  have hcolon : (bytes ('v' :: '-' :: rest))[2 + extent word]? = some ':'.toUInt8 ↔
      behind.head? = some ':' :=
    byte_eq_iff (by decide) (t := 'v' :: '-' :: word) (by simpa using hsplit) hextent
  have hempty : extent word = 0 ↔ word = [] := by
    constructor
    · intro h
      by_contra hne
      exact Nat.ne_of_gt (extent_pos hne) h
    · rintro rfl
      rfl
  unfold bracketPrefix?
  simp only [isPrefixOf_bytes, hbegin, if_true, hrest, ok_bind, sameTest_word.takeWhile_bytes,
    length_bytes, hword, ne_eq, hcolon, hempty, hextent]
  rfl

theorem readBracketOpening?_word (rest : List Char) :
    readBracketOpening? ('v' :: '-' :: rest) =
      if rest.takeWhile isWordPart = [] ∨ (rest.dropWhile isWordPart).head? ≠ some ':' then none
      else if ((rest.dropWhile isWordPart).drop 1).head? = some '[' then
        some ('v' :: '-' :: rest.takeWhile isWordPart ++ [':', '['],
          (rest.dropWhile isWordPart).drop 2)
      else none := by
  unfold readBracketOpening?
  simp only
  generalize rest.takeWhile isWordPart = word
  generalize rest.dropWhile isWordPart = behind
  cases word with
  | nil => simp
  | cons c word =>
    match behind with
    | [] => simp
    | d :: behind =>
      by_cases hd : d = ':'
      · subst hd
        match behind with
        | [] => simp
        | e :: after =>
          by_cases he : e = '['
          · simp [he]
          · simp [he]
      · simp [hd]

/-- The bracket is looked for behind what stands before it. -/
theorem bracketOpening?_of_mark {s mark behind : List Char} (happend : mark ++ behind = s)
    (hbegin : bracketPrefix? s = .ok (some (extent mark))) :
    bracketOpening? s =
      .ok (if behind.head? = some '[' then some (extent mark + 1) else none) := by
  rw [bracketOpening?, hbegin, ok_bind]
  simp only [byte_eq_iff (a := '[') (by decide) happend rfl]
  rfl

theorem bracketOpening?_word (rest : List Char) :
    bracketOpening? ('v' :: '-' :: rest) =
      .ok ((readBracketOpening? ('v' :: '-' :: rest)).map fun found => extent found.1) := by
  have hsplit := List.takeWhile_append_dropWhile (p := isWordPart) (l := rest)
  have hbegin := bracketPrefix?_word rest
  rw [readBracketOpening?_word]
  generalize rest.takeWhile isWordPart = word at *
  generalize rest.dropWhile isWordPart = behind at *
  by_cases hnone : word = [] ∨ behind.head? ≠ some ':'
  · rw [if_pos hnone] at hbegin ⊢
    rw [bracketOpening?, hbegin]
    rfl
  · rw [if_neg hnone] at hbegin ⊢
    obtain ⟨after, rfl⟩ := List.head?_eq_some_iff.1 (not_not.1 (not_or.1 hnone).2)
    have hmark : ∀ more, extent ('v' :: '-' :: word ++ ':' :: more) =
        extent ('v' :: '-' :: word) + 1 + extent more := by
      intro more
      rw [extent_append, extent_cons_of_ascii (by decide) more]
      omega
    have happend : ('v' :: '-' :: word ++ [':']) ++ after = 'v' :: '-' :: rest := by
      simpa using hsplit
    rw [bracketOpening?_of_mark happend (by rw [hbegin, hmark]; rfl), List.drop_succ_cons,
      List.drop_zero]
    split
    · rw [Option.map_some, hmark, hmark]
      rfl
    · rfl

theorem readBracketOpening?_of_not_word {c : Char} {t : List Char}
    (h : ['v', '-'].isPrefixOf (c :: t) = false) :
    readBracketOpening? (c :: t) =
      if (c == '@' || c == ':' || c == '#') = true ∧ t.head? = some '[' then
        some ([c, '['], t.drop 1)
      else none := by
  unfold readBracketOpening?
  split
  · next heq =>
    obtain ⟨rfl, rfl⟩ := List.cons.inj heq
    simp at h
  · next heq =>
    obtain ⟨rfl, rfl⟩ := List.cons.inj heq
    simp
  · next hother =>
    rw [if_neg]
    rintro ⟨-, hbracket⟩
    obtain ⟨after, rfl⟩ := List.head?_eq_some_iff.1 hbracket
    exact hother c after rfl

theorem bracketOpening?_eq (s : List Char) :
    bracketOpening? s = .ok ((readBracketOpening? s).map fun found => extent found.1) := by
  by_cases hword : ['v', '-'].isPrefixOf s = true
  · obtain ⟨rest, rfl⟩ := List.isPrefixOf_iff_prefix.1 hword
    exact bracketOpening?_word rest
  have hword := Bool.eq_false_iff.2 hword
  cases s with
  | nil => rfl
  | cons c t =>
    have hbegin : bracketPrefix? (c :: t) =
        .ok (if c == '@' || c == ':' || c == '#' then some 1 else none) := by
      unfold bracketPrefix?
      rw [isPrefixOf_bytes, hword, sameTest_mark.head?_bytes]
      rfl
    rw [readBracketOpening?_of_not_word hword]
    by_cases hc : (c == '@' || c == ':' || c == '#') = true
    · have hascii : c.toNat < 128 := by
        simp only [Bool.or_eq_true, beq_iff_eq] at hc
        rcases hc with (rfl | rfl) | rfl <;> decide
      have hone : extent [c] = 1 := extent_cons_of_ascii hascii []
      have htwo : extent [c, '['] = extent [c] + 1 := by
        rw [extent_cons_of_ascii hascii, hone]
        rfl
      rw [if_pos hc, ← hone] at hbegin
      rw [bracketOpening?_of_mark (List.singleton_append : [c] ++ t = c :: t) hbegin]
      simp only [hc, true_and]
      split
      · rw [Option.map_some, htwo]
      · rfl
    · rw [if_neg hc] at hbegin
      rw [bracketOpening?, hbegin, if_neg (by simp [hc])]
      rfl

/-- Where the first `]` is in a text, if no `=` comes before it. -/
theorem firstByte?_closing (s : List Char) :
    firstByte? ']'.toUInt8 (bytes (s.takeWhile (· != '='))) =
      match s.dropWhile fun c => c != ']' && c != '=' with
      | ']' :: _ => some (extent (s.takeWhile fun c => c != ']' && c != '='))
      | _ => none := by
  rw [firstByte?_eq_charOffset? (by decide)]
  induction s with
  | nil => rfl
  | cons c s ih =>
    by_cases hsign : c = '='
    · subst hsign
      rfl
    by_cases hclose : c = ']'
    · subst hclose
      rfl
    have hpass : (c != ']' && c != '=') = true := by simp [hsign, hclose]
    rw [List.takeWhile_cons, List.takeWhile_cons, List.dropWhile_cons, if_pos hpass, if_pos hpass,
      if_pos (by simpa using hsign), charOffset?, if_neg (by simpa using hclose), ih]
    split <;> rfl

/-- The bytes of a character but the first are not of ASCII. -/
theorem firstByte?_drop_one {a : Char} (ha : a.toNat < 128) (c : Char) (s : List Char) :
    firstByte? a.toUInt8 ((bytes (c :: s)).drop 1) =
      (firstByte? a.toUInt8 (bytes s)).map (· + (c.utf8Size - 1)) := by
  obtain ⟨b, more, hbytes⟩ := exists_utf8EncodeChar c
  have hlength : more.length = c.utf8Size - 1 := by
    rw [← String.length_utf8EncodeChar, hbytes, List.length_cons, Nat.add_sub_cancel]
  have hnone : more.findIdx? (· == a.toUInt8) = none := by
    rw [List.findIdx?_eq_none_iff]
    intro d hd
    by_cases hc : c.toNat < 128
    · rw [utf8EncodeChar_of_ascii hc] at hbytes
      simp [(List.cons.inj hbytes).2.symm] at hd
    · have hmem : d ∈ String.utf8EncodeChar c := by simp [hbytes, hd]
      exact (sameTest_eq ha).byte d (le_of_mem_utf8EncodeChar (Nat.le_of_not_lt hc) hmem)
  rw [bytes_cons, hbytes, List.cons_append, List.drop_succ_cons, List.drop_zero, firstByte?,
    List.findIdx?_append, hnone, Option.none_or, hlength]
  rfl

theorem bracketSegment_eq {s opening rest : List Char} (happend : opening ++ rest = s) :
    bracketSegment s (extent opening) = .ok (bytes (rest.takeWhile (· != '='))) := by
  have hdiff : subtract (bytes s).length (extent opening) = .ok (extent rest) := by
    rw [length_bytes, ← happend, extent_append, Nat.add_comm, subtract_add]
  rw [bracketSegment, bytesFrom_eq happend rfl, ok_bind, hdiff, ok_bind,
    firstByte?_getD (by decide)]
  refine bytesBetween_eq (v := rest.dropWhile (· != '=')) ?_ rfl rfl
  rw [List.takeWhile_append_dropWhile, happend]

theorem bracketedNameStop_eq {s front rest : List Char} (happend : front ++ rest = s) :
    bracketedNameStop s (extent front) =
      .ok (extent (front ++ rest.takeWhile isAttributeNamePart)) := by
  have hdiff : subtract (extent s) (extent front) = .ok (extent rest) := by
    rw [← happend, extent_append, Nat.add_comm, subtract_add]
  rw [bracketedNameStop, sliceFrom_eq happend rfl, ok_bind, hdiff, ok_bind, charOffset?_getD,
    extent_append]
  simp only [Bool.not_not]
  rfl

/-- The bracket is closed by the first `]` behind its first character. -/
theorem firstByte?_segment {c : Char} (hc : c ≠ '=') (inner : List Char) :
    firstByte? ']'.toUInt8 ((bytes ((c :: inner).takeWhile (· != '='))).drop 1) =
      match inner.dropWhile fun c => c != ']' && c != '=' with
      | ']' :: _ =>
        some (extent (inner.takeWhile fun c => c != ']' && c != '=') + (c.utf8Size - 1))
      | _ => none := by
  rw [List.takeWhile_cons_of_pos (by simpa using hc), firstByte?_drop_one (by decide),
    firstByte?_closing]
  split <;> rfl

theorem bracketedName?_eq (s : List Char) :
    bracketedName? s = .ok ((readBracketedName? s).map fun found => extent found.1) := by
  unfold bracketedName? readBracketedName?
  rw [bracketOpening?_eq]
  cases hopening : readBracketOpening? s with
  | none => rfl
  | some found =>
    obtain ⟨opening, rest⟩ := found
    have happend := readBracketOpening?_append hopening
    simp only [Option.map_some, ok_bind, bracketSegment_eq happend, isEmpty_bytes]
    cases rest with
    | nil => rfl
    | cons c inner =>
      by_cases hc : c = '='
      · subst hc
        rfl
      have htake : ((c :: inner).takeWhile (· != '=')).isEmpty = false := by
        rw [List.takeWhile_cons_of_pos (by simpa using hc)]
        rfl
      have hinner :=
        List.takeWhile_append_dropWhile (p := fun c => c != ']' && c != '=') (l := inner)
      simp only [htake, firstByte?_segment hc, Bool.false_eq_true, if_false, beq_iff_eq, if_neg hc]
      generalize inner.takeWhile (fun c => c != ']' && c != '=') = argument at hinner ⊢
      generalize inner.dropWhile (fun c => c != ']' && c != '=') = behind at hinner ⊢
      by_cases hclose : behind.head? = some ']'
      · obtain ⟨after, rfl⟩ := List.head?_eq_some_iff.1 hclose
        have hwhole : opening ++ c :: argument ++ [']'] ++ after = s := by
          rw [← happend, ← hinner]
          simp
        have hafter : extent opening + (1 + (extent argument + (c.utf8Size - 1))) + 1 =
            extent (opening ++ c :: argument ++ [']']) := by
          have hone : extent [']'] = 1 := rfl
          have := c.utf8Size_pos
          simp only [extent_append, extent_cons c, hone]
          omega
        simp only [hafter, bracketedNameStop_eq hwhole, ok_bind]
        simp
      · cases behind with
        | nil => rfl
        | cons d _ =>
          have hd : d ≠ ']' := by simpa using hclose
          simp [hd]

theorem plainName?_eq (s : List Char) :
    plainName? s = .ok ((readPlainName? s).map fun found => extent found.1) := by
  unfold plainName? readPlainName?
  simp only [charOffset?_getD, Bool.not_not]
  cases s.takeWhile isAttributeNamePart with
  | nil => rfl
  | cons c name =>
    have hne : extent (c :: name) ≠ 0 := Nat.ne_of_gt (extent_pos (by simp))
    rw [if_neg hne]
    rfl

/-! ### Attributes -/

/-- Where an attribute is: its first byte, blanks included, the length of the blanks, the ends of
its name and of its value, and the offset behind it. -/
structure AttributeOffsets where
  start : Nat
  blanks : Nat
  name : Nat × Nat
  value : Option (Nat × Nat)
  stop : Nat
  deriving DecidableEq, Repr

def AttributeOffsets.shift (a : AttributeOffsets) (n : Nat) : AttributeOffsets where
  start := n + a.start
  blanks := a.blanks
  name := (n + a.name.1, n + a.name.2)
  value := a.value.map fun v => (n + v.1, n + v.2)
  stop := n + a.stop

/-- The text of the value, which is empty if there is none. -/
def AttributeOffsets.valueIn (a : AttributeOffsets) (s : List Char) : Checked (List Char) :=
  match a.value with
  | some v => slice s v.1 v.2
  | none => .ok []

/-- The attribute whose name ends at an offset. -/
def finishAttribute (s : List Char) (blanks nameStop : Nat) : Checked AttributeOffsets := do
  match ← assignment? (← sliceFrom s nameStop) with
  | some v =>
    return ⟨0, blanks, (blanks, nameStop), some (nameStop + v.start, nameStop + v.stop),
      nameStop + v.after⟩
  | none => return ⟨0, blanks, (blanks, nameStop), none, nameStop⟩

/-- The attribute that a text begins with, by a matcher of names. -/
def attributeBy? (name? : List Char → Checked (Option Nat)) (s : List Char) :
    Checked (Option AttributeOffsets) := do
  let blanks ← blankLength s
  match ← name? (← sliceFrom s blanks) with
  | none => return none
  | some n => return some (← finishAttribute s blanks (blanks + n))

def attribute? (s : List Char) : Checked (Option AttributeOffsets) := do
  match ← attributeBy? bracketedName? s with
  | some a => return some a
  | none => attributeBy? plainName? s

/-- Offsets into a text give the attribute that stands at an offset. -/
structure AttributeOffsets.Describe (s : List Char) (n : Nat) (a : AttributeOffsets)
    (r : RawAttribute) : Prop where
  start : a.start = n
  blanks : a.blanks = extent r.gap
  name : slice s a.name.1 a.name.2 = .ok r.name
  value : a.valueIn s = .ok (r.value.getD [])
  stop : a.stop = n + extent r.source

/-- Offsets into a text are shifted to offsets into the text with something before it. -/
theorem AttributeOffsets.Describe.shift {s : List Char} {n : Nat} {a : AttributeOffsets}
    {r : RawAttribute} (h : a.Describe s n r) (before : List Char) :
    (a.shift (extent before)).Describe (before ++ s) (extent before + n) r where
  start := congrArg (extent before + ·) h.start
  blanks := h.blanks
  name := (slice_append_add before s _ _).trans h.name
  value := by
    rw [← h.value]
    unfold valueIn AttributeOffsets.shift
    cases a.value with
    | none => rfl
    | some v => exact slice_append_add before s v.1 v.2
  stop := by
    rw [AttributeOffsets.shift, h.stop, Nat.add_assoc]

/-- What a reader of attributes makes of a name and what follows it. -/
def attributeOf (gap name rest : List Char) : RawAttribute × List Char :=
  match readAssignment? rest with
  | some ((assignment, value), after) => (⟨gap, name, assignment, value⟩, after)
  | none => (⟨gap, name, [], none⟩, rest)

theorem describe_finishAttribute {s gap name rest : List Char} (h : gap ++ (name ++ rest) = s) :
    ∃ a, finishAttribute s (extent gap) (extent gap + extent name) = .ok a ∧
      a.Describe s 0 (attributeOf gap name rest).1 := by
  have hname : slice s (extent gap) (extent gap + extent name) = .ok name := slice_eq h rfl rfl
  have hrest : sliceFrom s (extent gap + extent name) = .ok rest :=
    sliceFrom_eq (t := gap ++ name) (by rw [List.append_assoc, h]) (extent_append gap name)
  have hassignment := finds_assignment? rest
  unfold finishAttribute attributeOf
  rw [hrest, ok_bind]
  cases hread : readAssignment? rest with
  | none =>
    rw [hread] at hassignment
    rw [show assignment? rest = .ok none from hassignment]
    refine ⟨_, rfl, rfl, rfl, hname, rfl, ?_⟩
    simp [RawAttribute.source]
  | some found =>
    obtain ⟨⟨assignment, value⟩, after⟩ := found
    rw [hread] at hassignment
    obtain ⟨v, hv, hslice, hafter⟩ := hassignment
    rw [hv]
    refine ⟨_, rfl, rfl, rfl, hname, ?_, ?_⟩
    · have hshift := slice_append_add (gap ++ name) rest v.start v.stop
      rw [List.append_assoc, h, extent_append] at hshift
      exact hshift.trans hslice
    · simp only [RawAttribute.source, extent_append, extent_nil] at hafter ⊢
      omega

theorem finds_attributeBy? {name? : List Char → Checked (Option Nat)}
    {readName? : List Char → Option (List Char × List Char)}
    (hname : ∀ s, name? s = .ok ((readName? s).map fun found => extent found.1))
    (happend : ∀ s name rest, readName? s = some (name, rest) → name ++ rest = s) (s : List Char) :
    Finds (fun a found => a.Describe s 0 found.1) (attributeBy? name? s)
      ((readName? (dropBlanks s)).map fun found =>
        attributeOf (leadingBlanks s) found.1 found.2) := by
  have hblanks := leadingBlanks_append_dropBlanks s
  unfold attributeBy?
  rw [blankLength_eq, ok_bind, sliceFrom_eq hblanks rfl, ok_bind, hname]
  cases hread : readName? (dropBlanks s) with
  | none => rfl
  | some found =>
    have hwhole : leadingBlanks s ++ (found.1 ++ found.2) = s := by
      rw [happend _ _ _ hread, hblanks]
    obtain ⟨a, ha, hdescribe⟩ := describe_finishAttribute hwhole
    simp only [Option.map_some, ok_bind, ha]
    exact ⟨a, rfl, hdescribe⟩

theorem readAttribute?_eq (s : List Char) :
    readAttribute? s = (readAttributeName? (dropBlanks s)).map fun found =>
      attributeOf (leadingBlanks s) found.1 found.2 := by
  unfold readAttribute? attributeOf
  cases readAttributeName? (dropBlanks s) with
  | none => rfl
  | some found =>
    obtain ⟨name, rest⟩ := found
    simp only [Option.map_some]
    cases readAssignment? rest <;> rfl

theorem finds_attribute? (s : List Char) :
    Finds (fun a found => a.Describe s 0 found.1) (attribute? s) (readAttribute? s) := by
  have hbracketed := finds_attributeBy? bracketedName?_eq
    (fun _ _ _ h => (readBracketedName?_append h).1) s
  have hplain := finds_attributeBy? plainName?_eq (fun _ _ _ h => (readPlainName?_append h).1) s
  rw [readAttribute?_eq]
  unfold attribute? readAttributeName?
  cases hread : readBracketedName? (dropBlanks s) with
  | none =>
    rw [hread] at hbracketed
    rw [show attributeBy? bracketedName? s = .ok none from hbracketed]
    exact hplain
  | some found =>
    rw [hread] at hbracketed
    obtain ⟨a, ha, hdescribe⟩ := hbracketed
    rw [ha]
    exact ⟨a, rfl, hdescribe⟩

/-! ### The end of a start tag -/

/-- Blanks, perhaps `/`, and `>`: whether there is a `/`, and the length. -/
def tagClose? (s : List Char) : Checked (Option (Bool × Nat)) := do
  let blanks ← blankLength s
  let rest ← bytesFrom (bytes s) blanks
  return if (bytes ['>']).isPrefixOf rest then some (false, blanks + 1)
    else if (bytes ['/', '>']).isPrefixOf rest then some (true, blanks + 2)
    else none

theorem tagClose?_eq (s : List Char) :
    tagClose? s =
      .ok ((readTagClose? s).map fun found => (found.1.slash, extent found.1.source)) := by
  unfold tagClose? readTagClose?
  rw [blankLength_eq, ok_bind, bytesFrom_eq (leadingBlanks_append_dropBlanks s) rfl, ok_bind,
    isPrefixOf_bytes, isPrefixOf_bytes]
  generalize dropBlanks s = rest
  by_cases hclose : ['>'].isPrefixOf rest = true
  · obtain ⟨after, rfl⟩ := List.isPrefixOf_iff_prefix.1 hclose
    rw [if_pos hclose]
    simp only [List.singleton_append, Option.map_some, TagClose.source, extent_append]
    rfl
  by_cases hslash : ['/', '>'].isPrefixOf rest = true
  · obtain ⟨after, rfl⟩ := List.isPrefixOf_iff_prefix.1 hslash
    rw [if_neg hclose, if_pos hslash]
    simp only [List.cons_append, List.nil_append, Option.map_some, TagClose.source, extent_append]
    rfl
  rw [if_neg hclose, if_neg hslash]
  split
  · simp at hclose
  · simp at hslash
  · rfl

/-! ### Start tags -/

/-- Where the parts of a start tag are, and its length. -/
structure StartTagOffsets where
  name : Nat × Nat
  attributes : List AttributeOffsets
  slash : Bool
  length : Nat
  deriving DecidableEq, Repr

/-- The attributes from an offset on and the end of the tag. -/
def attributes? (s : List Char) (nameLength : Nat) :
    Nat → Nat → List AttributeOffsets → Checked (Option StartTagOffsets)
  | 0, _, _ => .error .rounds
  | rounds + 1, i, found => do
    let rest ← sliceFrom s i
    match ← tagClose? rest with
    | some (slash, n) => return some ⟨(1, 1 + nameLength), found, slash, i + n⟩
    | none =>
      match ← attribute? rest with
      | none => return none
      | some a =>
        require (0 < a.stop)
        let a := a.shift i
        require (isBoundary s a.stop = true)
        attributes? s nameLength rounds a.stop (found ++ [a])

/-- The length of the name after `<`. -/
def startTagName? : List Char → Checked (Option Nat)
  | '<' :: s => name? s
  | _ => .ok none

/-- A complete start tag. It is given as many rounds as it has bytes. -/
def startTag? (s : List Char) : Checked (Option StartTagOffsets) := do
  match ← startTagName? s with
  | none => return none
  | some n => attributes? s n (extent s) (1 + n) []

/-- Offsets into a text give attributes that stand one after the other from an offset on. -/
def DescribeFrom (s : List Char) : Nat → List AttributeOffsets → List RawAttribute → Prop
  | _, [], [] => True
  | n, a :: more, r :: rest => a.Describe s n r ∧ DescribeFrom s (n + extent r.source) more rest
  | _, _, _ => False

structure StartTagOffsets.Describe (s : List Char) (m : StartTagOffsets) (t : StartTag) : Prop where
  name : slice s m.name.1 m.name.2 = .ok t.name
  attributes : DescribeFrom s (1 + extent t.name) m.attributes t.attributes
  slash : m.slash = t.close.slash
  length : m.length = extent t.source

/-- An attribute that was found has bytes, and the offset behind it is a boundary. -/
theorem attribute?_of_readAttribute? {t : List Char} {r : RawAttribute} {rest : List Char}
    (h : readAttribute? t = some (r, rest)) :
    ∃ a, attribute? t = .ok (some a) ∧ a.Describe t 0 r ∧ 0 < a.stop ∧ r.source ++ rest = t := by
  have hfinds := finds_attribute? t
  rw [h] at hfinds
  obtain ⟨a, ha, hdescribe⟩ := hfinds
  have happend := readAttribute?_append h
  refine ⟨a, ha, hdescribe, ?_, happend.1⟩
  have hpos := extent_pos happend.2
  simp only [hdescribe.stop, RawAttribute.source, extent_append]
  omega

theorem readAttributes?_eq (t : List Char) :
    readAttributes? t =
      match readTagClose? t with
      | some (close, rest) => some (([], close), rest)
      | none =>
        match readAttribute? t with
        | some (r, rest) =>
          (readAttributes? rest).map fun read => ((r :: read.1.1, read.1.2), read.2)
        | none => none := by
  fun_cases readAttributes? t with
  | case1 close rest hclose => simp [hclose]
  | case2 hclose hattribute => simp [hclose, hattribute]
  | case3 hclose r rest hattribute _ more close after hmore => simp [hclose, hattribute, hmore]
  | case4 hclose r rest hattribute _ hmore => simp [hclose, hattribute, hmore]

/-- The attributes of a start tag are found in the rounds that they are given. -/
theorem finds_attributes? (before t : List Char) (nameLength : Nat) {rounds : Nat}
    (hrounds : extent t < rounds) (found : List AttributeOffsets) :
    Finds (fun m read => ∃ more, m = ⟨(1, 1 + nameLength), found ++ more, read.1.2.slash,
          extent before + extent (read.1.1.flatMap RawAttribute.source ++ read.1.2.source)⟩ ∧
        DescribeFrom (before ++ t) (extent before) more read.1.1)
      (attributes? (before ++ t) nameLength rounds (extent before) found) (readAttributes? t) := by
  induction rounds generalizing before t found with
  | zero => omega
  | succ rounds ih =>
    rw [attributes?, readAttributes?_eq, sliceFrom_append, ok_bind, tagClose?_eq]
    cases hclose : readTagClose? t with
    | some read => exact ⟨_, rfl, [], by simp, trivial⟩
    | none =>
      cases hattribute : readAttribute? t with
      | none =>
        have hnone := finds_attribute? t
        rw [hattribute] at hnone
        rw [show attribute? t = .ok none from hnone]
        rfl
      | some read =>
        obtain ⟨r, rest⟩ := read
        obtain ⟨a, ha, hdescribe, hpos, happend⟩ := attribute?_of_readAttribute? hattribute
        have hextent : extent r.source + extent rest = extent t := by
          rw [← extent_append, happend]
        have hsource : a.stop = extent r.source := by rw [hdescribe.stop, Nat.zero_add]
        have hstop : extent (before ++ r.source) = (a.shift (extent before)).stop := by
          rw [AttributeOffsets.shift, hsource, extent_append]
        have hwhole : before ++ r.source ++ rest = before ++ t := by
          rw [List.append_assoc, happend]
        have hboundary : isBoundary (before ++ t) (a.shift (extent before)).stop = true := by
          rw [← hstop, ← hwhole, isBoundary_append]
        have hmore := ih (before ++ r.source) rest (by omega) (found ++ [a.shift (extent before)])
        rw [hstop, hwhole] at hmore
        rw [ha]
        simp only [Option.map_none, ok_bind, require_of hpos, require_of hboundary]
        cases hread : readAttributes? rest with
        | none =>
          rw [hread] at hmore
          exact hmore
        | some read =>
          rw [hread] at hmore
          obtain ⟨m, hm, more, rfl, hdescribes⟩ := hmore
          refine ⟨_, hm, a.shift (extent before) :: more, ?_, hdescribe.shift before, ?_⟩
          · simp [← hstop, Nat.add_assoc]
          · rw [← hstop, extent_append] at hdescribes
            exact hdescribes

theorem finds_startTag? (s : List Char) :
    Finds (fun m found => m.Describe s found.1) (startTag? s) (readStartTag? s) := by
  unfold startTag? startTagName?
  split
  · next s =>
    rw [name?_eq, readStartTag?]
    cases hname : readName? s with
    | none => simp [Finds]
    | some found =>
      obtain ⟨name, rest⟩ := found
      have happend := readName?_append hname
      have hopening : extent ('<' :: name) = 1 + extent name := by
        rw [extent_cons_of_ascii (by decide), Nat.add_comm]
      have hrounds : extent rest < extent ('<' :: s) := by
        rw [← happend, extent_cons_of_ascii (by decide), extent_append]
        omega
      have hattributes := finds_attributes? ('<' :: name) rest (extent name) hrounds []
      rw [List.cons_append, happend, hopening] at hattributes
      simp only [Option.map_some, ok_bind]
      cases hread : readAttributes? rest with
      | none =>
        rw [hread] at hattributes
        exact hattributes
      | some read =>
        obtain ⟨⟨attributes, close⟩, after⟩ := read
        rw [hread] at hattributes
        obtain ⟨m, hm, more, rfl, hdescribe⟩ := hattributes
        refine ⟨_, hm, ?_, hdescribe, rfl, ?_⟩
        · exact slice_eq (t := ['<']) (by rw [happend]; rfl) rfl rfl
        · simp (disch := decide) only [StartTag.source, extent_append, extent_cons_of_ascii]
          omega
  · simp [readStartTag?, Finds]

end HtmlTemplate.Markup.Scan
