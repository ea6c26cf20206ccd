import HtmlTemplate.Markup.RawText
import HtmlTemplate.Proofs.Coverage
import HtmlTemplate.Proofs.Scan.Attributes

/-!
# Runs of text and raw text by offsets

A run of text ends at the first `<` that begins a construct. Whether a `>` follows is told from the
last `>` of the rest of the markup, which answers as the last `>` of all of it does (`textEnd_eq`).
The end tag of raw text is looked for at every `<` (`rawClose?_eq`), and the wrappers in raw text
are cut out between marks, each time from a shorter rest (`unwrapAll_eq`).
-/

namespace HtmlTemplate.Markup.Scan

open Text

/-! ### The end of a run of text -/

/-- Whether a text begins like a construct, if it is known whether a `>` follows an offset. -/
def isStructural (s : List Char) (closesAfter : Nat → Bool) : Checked Bool := do
  let endTag ← endTagName? s
  if endTag.any fun name => closesAfter (2 + name) then return true
  else if (← startTagName? s).isSome then return true
  else return ['<', '!', '-', '-'].isPrefixOf s || ['<', '!', '['].isPrefixOf s

/-- The first offset among several at which a text begins like a construct, or its end. -/
def textEndAmong (s : List Char) (lastGt : Option Nat) : List Nat → Checked Nat
  | [] => .ok (extent s)
  | lt :: more => do
    let found ← isStructural (← sliceFrom s lt) fun n => lastGt.any (lt + n ≤ ·)
    if found then return lt else textEndAmong s lastGt more

/-- The length of the run of text that a text begins with. -/
def textEnd (s : List Char) : Checked Nat :=
  textEndAmong s (lastByte? '>'.toUInt8 (bytes s)) (byteOffsets '<'.toUInt8 (bytes s))

theorem readName?_of_not_isNameStart {c : Char} (h : isNameStart c = false) (s : List Char) :
    readName? (c :: s) = none := by
  simp [readName?, readSimpleName?, h]

theorem isStructural_eq (lastGt : Option Nat) (position : Nat) (s : List Char) :
    isStructural ('<' :: s) (fun n => lastGt.any (position + n ≤ ·)) =
      .ok (beginsConstruct lastGt position ('<' :: s)) := by
  have hstart : startTagName? ('<' :: s) = .ok ((readName? s).map fun found => extent found.1) :=
    name?_eq s
  unfold isStructural
  rw [hstart]
  match s with
  | [] => rfl
  | c :: s =>
    by_cases hslash : c = '/'
    · subst hslash
      have hend : endTagName? ('<' :: '/' :: s) =
          .ok ((readName? s).map fun found => extent found.1) :=
        name?_eq s
      rw [hend, readName?_of_not_isNameStart (by decide) s]
      cases hread : readName? s with
      | none => simp [beginsConstruct, hread, List.isPrefixOf]
      | some found =>
        simp only [beginsConstruct, hread, List.isPrefixOf, Nat.add_assoc]
        cases hgt : lastGt.any (position + (2 + extent found.1) ≤ ·) <;> simp [hgt]
    by_cases hmark : c = '!'
    · subst hmark
      rw [readName?_of_not_isNameStart (by decide) s]
      simp [beginsConstruct, endTagName?, List.isPrefixOf]
    · have hbang : ('!' == c) = false := beq_eq_false_iff_ne.2 (Ne.symm hmark)
      cases hread : readName? (c :: s) <;>
        simp [beginsConstruct, endTagName?, hslash, hmark, hbang, hread, List.isPrefixOf]

theorem textEndAmong_eq (before t : List Char) (lastGt : Option Nat) :
    textEndAmong (before ++ t) lastGt (byteOffsetsFrom '<'.toUInt8 (extent before) (bytes t)) =
      .ok (extent before + extent (readText lastGt (extent before) t).1) := by
  induction t generalizing before with
  | nil =>
    rw [List.append_nil]
    rfl
  | cons c t ih =>
    have hmore := ih (before ++ [c])
    have hone : extent (before ++ [c]) = extent before + c.utf8Size := by simp
    rw [List.append_assoc, List.singleton_append, hone] at hmore
    rw [readText, splitBefore_cons, byteOffsetsFrom_bytes_cons (by decide)]
    by_cases hc : c = '<'
    · subst hc
      rw [if_pos rfl, textEndAmong, sliceFrom_append, ok_bind, isStructural_eq, ok_bind]
      split
      · rfl
      · rw [hmore, extent_cons, Nat.add_assoc]
        rfl
    · have hother : beginsConstruct lastGt (extent before) (c :: t) = false := by
        simp [beginsConstruct, hc]
      rw [if_neg hc, hother, hmore, if_neg Bool.false_ne_true, extent_cons, Nat.add_assoc]
      rfl

/-! ### The last `>` -/

/-- Whether a `>` follows a place is the same for the text and for the markup that it ends. -/
theorem lastClose_any (before s : List Char) (n : Nat) :
    (lastClose (before ++ s)).any (extent before + n ≤ ·) = (lastClose s).any (n ≤ ·) := by
  have hshift : byteOffsetsFrom '>'.toUInt8 (extent before) (bytes s) =
      (byteOffsets '>'.toUInt8 (bytes s)).map (extent before + ·) :=
    byteOffsetsFrom_add _ (extent before) 0 (bytes s)
  rw [← lastByte?_bytes, ← lastByte?_bytes, lastByte?, lastByte?, byteOffsets, bytes_append,
    byteOffsetsFrom_append, length_bytes, Nat.zero_add, hshift, List.getLast?_append,
    List.getLast?_map]
  cases (byteOffsets '>'.toUInt8 (bytes s)).getLast? with
  | some m => simp
  | none =>
    cases hbefore : (byteOffsetsFrom '>'.toUInt8 0 (bytes before)).getLast? with
    | none => rfl
    | some m =>
      have hm := lt_of_mem_byteOffsetsFrom (List.mem_of_getLast? hbefore)
      rw [length_bytes] at hm
      simp
      omega

theorem beginsConstruct_append (before s t : List Char) (position : Nat) :
    beginsConstruct (lastClose (before ++ s)) (extent before + position) t =
      beginsConstruct (lastClose s) position t := by
  unfold beginsConstruct
  split
  · split
    · next name _ _ =>
      have := lastClose_any before s (position + 2 + extent name)
      simpa only [Nat.add_assoc] using this
    · rfl
  all_goals rfl

theorem splitBefore_congr {p q : Nat → List Char → Bool} {m : Nat}
    (h : ∀ n t, p (m + n) t = q n t) (n : Nat) (s : List Char) :
    splitBefore p (m + n) s = splitBefore q n s := by
  induction s generalizing n with
  | nil => rfl
  | cons c s ih => rw [splitBefore_cons, splitBefore_cons, h, Nat.add_assoc, ih]

/-- The length of a run of text does not depend on what stands before it. -/
theorem textEnd_eq (before s : List Char) :
    textEnd s = .ok (extent (readText (lastClose (before ++ s)) (extent before) s).1) := by
  have hlocal := textEndAmong_eq [] s (lastByte? '>'.toUInt8 (bytes s))
  rw [List.nil_append, extent_nil, Nat.zero_add, lastByte?_bytes] at hlocal
  have hglobal :
      readText (lastClose (before ++ s)) (extent before) s = readText (lastClose s) 0 s :=
    splitBefore_congr (fun n t => beginsConstruct_append before s t n) 0 s
  rw [textEnd, lastByte?_bytes, hglobal]
  exact hlocal

/-! ### The end tag of raw text -/

def isAsciiBlankByte (b : UInt8) : Bool :=
  b == ' '.toUInt8 || b == '\t'.toUInt8 || b == '\n'.toUInt8 || b == '\x0c'.toUInt8 ||
    b == '\r'.toUInt8

/-- What may stand behind the name in an end tag of raw text. -/
def endsRawNameByte (b : UInt8) : Bool := b == '>'.toUInt8 || b == '/'.toUInt8 || isAsciiBlankByte b

theorem sameTest_endsRawName :
    SameTest endsRawNameByte fun c => c == '>' || c == '/' || isAsciiBlank c :=
  ((sameTest_eq (a := '>') (by decide)).or (sameTest_eq (a := '/') (by decide))).or
    (((((sameTest_eq (a := ' ') (by decide)).or (sameTest_eq (a := '\t') (by decide))).or
      (sameTest_eq (a := '\n') (by decide))).or (sameTest_eq (a := '\x0c') (by decide))).or
      (sameTest_eq (a := '\r') (by decide)))

/-- Whether the end tag of a name begins at the offset of a `<`. -/
def beginsRawClose (bs name : List UInt8) (lt : Nat) : Checked Bool := do
  let after := lt + 2 + name.length
  let candidate ← bytesBetween bs lt after
  if (← byteAt candidate 1) ≠ '/'.toUInt8 then return false
  else if !eqIgnoringByteCase (← bytesFrom candidate 2) name then return false
  else return bs[after]?.any endsRawNameByte

/-- The ends of the first end tag of a name among those whose `<` is at some offsets. -/
def rawCloseAmong (bs name : List UInt8) : List Nat → Checked (Option (Nat × Nat))
  | [] => .ok none
  | lt :: more =>
    let after := lt + 2 + name.length
    if bs.length < after then .ok none
    else do
      if ← beginsRawClose bs name lt then
        match firstByte? '>'.toUInt8 (← bytesFrom bs after) with
        | none => return none
        | some gt => return some (lt, after + gt + 1)
      else rawCloseAmong bs name more

/-- The ends of the end tag that closes a raw-text element. -/
def rawClose? (s name : List Char) : Checked (Option (Nat × Nat)) :=
  rawCloseAmong (bytes s) (bytes name) (byteOffsets '<'.toUInt8 (bytes s))

/-- An end tag of raw text begins a text exactly if its name, in any case of letters, and a
character that ends the name stand behind `</`. -/
theorem readRawCloseOpening?_eq_some_iff {name s opening rest : List Char} :
    readRawCloseOpening? name s = some (opening, rest) ↔
      ∃ written, opening = '<' :: '/' :: written ∧ s = opening ++ rest ∧
        eqIgnoringAsciiCase written name = true ∧
        (rest.head?.any fun c => c == '>' || c == '/' || isAsciiBlank c) = true := by
  constructor
  · intro h
    have happend := readRawCloseOpening?_append h
    unfold readRawCloseOpening? at h
    split at h
    · split at h
      · next written c after hname =>
        split at h
        · next hc =>
          obtain ⟨rfl, rfl⟩ := by simpa using h
          exact ⟨written, rfl, happend.symm,
            eqIgnoringAsciiCase_of_stripNameIgnoringCase? hname, hc⟩
        · cases h
      · cases h
    · cases h
  · rintro ⟨written, rfl, rfl, hname, hend⟩
    rw [eqIgnoringAsciiCase, beq_iff_eq] at hname
    have hstrip := stripNameIgnoringCase?_of_map_toLower hname.symm rest
    cases rest with
    | nil => cases hend
    | cons c rest =>
      rw [List.head?_cons, Option.any_some] at hend
      simp only [readRawCloseOpening?, List.cons_append, hstrip, hend, if_true]

theorem extent_le_of_readRawCloseOpening? {name s opening rest : List Char}
    (h : readRawCloseOpening? name s = some (opening, rest)) :
    extent opening = 2 + extent name ∧ 2 + extent name ≤ extent s := by
  obtain ⟨written, rfl, rfl, hname, -⟩ := readRawCloseOpening?_eq_some_iff.1 h
  have hopening : extent ('<' :: '/' :: written) = 2 + extent name := by
    rw [extent_cons_of_ascii (by decide), extent_cons_of_ascii (by decide),
      extent_eq_of_eqIgnoringAsciiCase hname]
    omega
  rw [extent_append, hopening]
  omega

theorem isSome_readRawCloseOpening? {name written : List Char}
    (h : eqIgnoringAsciiCase written name = true) (rest : List Char) :
    (readRawCloseOpening? name ('<' :: '/' :: written ++ rest)).isSome =
      rest.head?.any fun c => c == '>' || c == '/' || isAsciiBlank c := by
  rw [Bool.eq_iff_iff, Option.isSome_iff_exists]
  constructor
  · rintro ⟨⟨opening, rest'⟩, hread⟩
    obtain ⟨written', rfl, happend, hname, hend⟩ := readRawCloseOpening?_eq_some_iff.1 hread
    have hextent : extent ('<' :: '/' :: written) = extent ('<' :: '/' :: written') := by
      rw [extent_cons, extent_cons, extent_cons, extent_cons, extent_eq_of_eqIgnoringAsciiCase h,
        extent_eq_of_eqIgnoringAsciiCase hname]
    obtain ⟨-, rfl⟩ := append_inj_of_extent_eq happend hextent
    exact hend
  · intro hend
    exact ⟨_, readRawCloseOpening?_eq_some_iff.2 ⟨written, rfl, rfl, h, hend⟩⟩

/-- The bytes that are looked at from a `<` on. -/
theorem rawCandidate_eq (before t name : List Char)
    (hlong : 2 + extent name ≤ extent ('<' :: t)) :
    bytesBetween (bytes (before ++ '<' :: t)) (extent before) (extent before + 2 + extent name) =
      .ok ('<'.toUInt8 :: (bytes t).take (extent name + 1)) := by
  have hlength : extent before + 2 + extent name - extent before = extent name + 1 + 1 := by omega
  have hstop : extent before + 2 + extent name ≤ (bytes (before ++ '<' :: t)).length := by
    rw [length_bytes, extent_append]
    omega
  rw [bytesBetween, if_pos ⟨by omega, hstop⟩, bytes_append, List.drop_left' (length_bytes before),
    hlength, bytes_cons, utf8EncodeChar_of_ascii (by decide), List.singleton_append,
    List.take_succ_cons]

theorem beginsRawClose_slash (before v name : List Char)
    (hlong : 2 + extent name ≤ extent ('<' :: '/' :: v)) :
    beginsRawClose (bytes (before ++ '<' :: '/' :: v)) (bytes name) (extent before) =
      .ok (readRawCloseOpening? name ('<' :: '/' :: v)).isSome := by
  have hv : bytes ('/' :: v) = '/'.toUInt8 :: bytes v := by
    rw [bytes_cons, utf8EncodeChar_of_ascii (by decide), List.singleton_append]
  have hat : byteAt ('<'.toUInt8 :: (bytes ('/' :: v)).take (extent name + 1)) 1 =
      .ok '/'.toUInt8 :=
    byteAt_eq (by rw [hv]; rfl)
  have htwo : bytesFrom ('<'.toUInt8 :: (bytes ('/' :: v)).take (extent name + 1)) 2 =
      .ok ((bytes v).take (extent name)) := by
    rw [hv, List.take_succ_cons, bytesFrom, if_pos (by simp)]
    rfl
  rw [beginsRawClose, length_bytes, rawCandidate_eq before ('/' :: v) name hlong, ok_bind, hat,
    ok_bind, if_neg (not_not.2 rfl), htwo, ok_bind]
  by_cases hname : eqIgnoringByteCase ((bytes v).take (extent name)) (bytes name) = true
  · obtain ⟨written, rest, rfl, hwritten⟩ := (eqIgnoringByteCase_take_iff name).1 hname
    have hafter : (bytes (before ++ '<' :: '/' :: (written ++ rest)))[extent before + 2 +
        extent name]? = (bytes rest).head? := by
      refine getElem?_bytes_eq (t := before ++ '<' :: '/' :: written) (by simp) ?_
      simp (disch := decide) only [extent_append, extent_cons_of_ascii,
        extent_eq_of_eqIgnoringAsciiCase hwritten]
      omega
    have hread := isSome_readRawCloseOpening? hwritten rest
    rw [List.cons_append, List.cons_append] at hread
    rw [hname, hafter, sameTest_endsRawName.head?_bytes, hread]
    rfl
  · have hnone : readRawCloseOpening? name ('<' :: '/' :: v) = none := by
      rw [Option.eq_none_iff_forall_ne_some]
      rintro ⟨opening, rest⟩ hread
      obtain ⟨written, rfl, happend, hwritten, -⟩ := readRawCloseOpening?_eq_some_iff.1 hread
      refine hname ((eqIgnoringByteCase_take_iff name).2 ⟨written, rest, ?_, hwritten⟩)
      simpa using happend
    rw [Bool.eq_false_iff.2 hname, hnone]
    rfl

theorem beginsRawClose_eq (before t name : List Char)
    (hlong : 2 + extent name ≤ extent ('<' :: t)) :
    beginsRawClose (bytes (before ++ '<' :: t)) (bytes name) (extent before) =
      .ok (readRawCloseOpening? name ('<' :: t)).isSome := by
  cases t with
  | nil =>
    rw [extent_cons_of_ascii (by decide), extent_nil] at hlong
    omega
  | cons c v =>
    by_cases hc : c = '/'
    · subst hc
      exact beginsRawClose_slash before v name hlong
    · obtain ⟨b, tail, hbytes⟩ := exists_utf8EncodeChar c
      have hcons : bytes (c :: v) = b :: (tail ++ bytes v) := by
        rw [bytes_cons, hbytes, List.cons_append]
      have hslash : b ≠ '/'.toUInt8 := by
        intro h
        have := head?_bytes_eq_iff (a := '/') (by decide) (s := c :: v)
        simp [hcons, h, hc] at this
      have hat : byteAt ('<'.toUInt8 :: (bytes (c :: v)).take (extent name + 1)) 1 = .ok b :=
        byteAt_eq (by rw [hcons]; rfl)
      have hnone : readRawCloseOpening? name ('<' :: c :: v) = none := by
        simp [readRawCloseOpening?, hc]
      rw [beginsRawClose, length_bytes, rawCandidate_eq before (c :: v) name hlong, ok_bind, hat,
        ok_bind, if_pos hslash, hnone]
      rfl

/-- The ends of the end tag that closes a raw-text element, in the text that it stands in. -/
def closeIn (name s : List Char) : Option (Nat × Nat) :=
  let raw := readRawExtent name s
  if raw.endTag = [] then none
  else some (extent raw.content, extent raw.content + extent raw.endTag)

theorem closeIn_cons (name : List Char) (c : Char) (t : List Char) :
    closeIn name (c :: t) =
      match readRawCloseOpening? name (c :: t) with
      | some (opening, rest) =>
        (firstByte? '>'.toUInt8 (bytes rest)).map fun gt => (0, extent opening + gt + 1)
      | none => (closeIn name t).map fun ends => (c.utf8Size + ends.1, c.utf8Size + ends.2) := by
  unfold closeIn readRawExtent
  rw [splitBefore_cons, splitBefore_position _ (0 + c.utf8Size) 0]
  cases hread : readRawCloseOpening? name (c :: t) with
  | some found =>
    obtain ⟨opening, rest⟩ := found
    simp only [Option.isSome_some, if_true, hread, firstByte?_bytes (a := '>') (by decide)]
    cases hrest : rest.dropWhile (· != '>') with
    | nil => rfl
    | cons gt after =>
      obtain rfl := eq_of_dropWhile_ne hrest
      have hne : opening ++ rest.takeWhile (· != '>') ++ ['>'] ≠ [] := by simp
      simp only [if_neg hne, Option.map_some, extent_append, extent_nil, Nat.zero_add]
      rfl
  | none =>
    simp only [Option.isSome_none, Bool.false_eq_true, if_false]
    cases readRawCloseOpening? name
        (splitBefore (fun _ s => (readRawCloseOpening? name s).isSome) 0 t).2 with
    | none => rfl
    | some found =>
      obtain ⟨opening, rest⟩ := found
      cases hrest : rest.dropWhile (· != '>') with
      | nil => simp [hrest]
      | cons gt after => simp [hrest, Nat.add_assoc]

/-- No end tag is found in a text that is too short for it. -/
theorem closeIn_eq_none_of_lt {name s : List Char} (h : extent s < 2 + extent name) :
    closeIn name s = none := by
  induction s with
  | nil => rfl
  | cons c t ih =>
    have hnone : readRawCloseOpening? name (c :: t) = none := by
      rw [Option.eq_none_iff_forall_ne_some]
      intro found hfound
      have := (extent_le_of_readRawCloseOpening? hfound).2
      omega
    rw [extent_cons] at h
    rw [closeIn_cons, hnone, ih (by omega)]
    rfl

theorem rawCloseAmong_eq (before t name : List Char) :
    rawCloseAmong (bytes (before ++ t)) (bytes name)
        (byteOffsetsFrom '<'.toUInt8 (extent before) (bytes t)) =
      .ok ((closeIn name t).map fun ends => (extent before + ends.1, extent before + ends.2)) := by
  induction t generalizing before with
  | nil => rfl
  | cons c t ih =>
    have hmore := ih (before ++ [c])
    have hone : extent (before ++ [c]) = extent before + c.utf8Size := by simp
    have hshift : (closeIn name t).map (fun ends => (extent before + c.utf8Size + ends.1,
        extent before + c.utf8Size + ends.2)) =
          ((closeIn name t).map fun ends => (c.utf8Size + ends.1, c.utf8Size + ends.2)).map
            fun ends => (extent before + ends.1, extent before + ends.2) := by
      rw [Option.map_map]
      simp only [Function.comp_def, Nat.add_assoc]
    rw [List.append_assoc, List.singleton_append, hone, hshift] at hmore
    rw [byteOffsetsFrom_bytes_cons (by decide)]
    by_cases hc : c = '<'
    · subst hc
      rw [if_pos rfl, rawCloseAmong, length_bytes, length_bytes, extent_append]
      by_cases hshort : extent ('<' :: t) < 2 + extent name
      · rw [if_pos (by omega), closeIn_eq_none_of_lt hshort]
        rfl
      · rw [if_neg (by omega), beginsRawClose_eq before t name (by omega), ok_bind, closeIn_cons]
        cases hread : readRawCloseOpening? name ('<' :: t) with
        | none => exact hmore
        | some found =>
          obtain ⟨opening, rest⟩ := found
          have hopening := (extent_le_of_readRawCloseOpening? hread).1
          have hafter : bytesFrom (bytes (before ++ '<' :: t)) (extent before + 2 + extent name) =
              .ok (bytes rest) := by
            refine bytesFrom_eq (t := before ++ opening) ?_ ?_
            · rw [List.append_assoc, readRawCloseOpening?_append hread]
            · rw [extent_append, hopening, Nat.add_assoc]
          simp only [Option.isSome_some, if_true, hafter, ok_bind, hopening]
          cases firstByte? '>'.toUInt8 (bytes rest) with
          | none => rfl
          | some gt => simp [Nat.add_assoc]
    · have hnone : readRawCloseOpening? name (c :: t) = none := by
        simp [readRawCloseOpening?, hc]
      rw [if_neg hc, hmore, closeIn_cons, hnone]

/-- The end tag of a raw-text element is found where it is read. -/
theorem rawClose?_eq (s name : List Char) :
    rawClose? s name = .ok (closeIn name s) := by
  have h := rawCloseAmong_eq [] s name
  simp only [List.nil_append, extent_nil, Nat.zero_add] at h
  rw [rawClose?, byteOffsets, h]
  simp

/-! ### Wrappers in raw text -/

/-- Takes every pair of an opening mark and the next closing mark out of a text. -/
def unwrap (opening closing : List Char) : Nat → List Char → List Char → Checked (List Char)
  | 0, _, _ => .error .rounds
  | rounds + 1, out, rest =>
    match firstMark? opening (bytes rest) with
    | none => .ok (out ++ rest)
    | some start => do
      let inner := start + extent opening
      match firstMark? closing (bytes (← sliceFrom rest inner)) with
      | none => return out ++ rest
      | some stop =>
        let before ← sliceTo rest start
        let kept ← slice rest inner (inner + stop)
        let rest ← sliceFrom rest (inner + stop + extent closing)
        unwrap opening closing rounds (out ++ before ++ kept) rest

/-- A text without the wrappers of comments and of character data. -/
def unwrapAll (s : List Char) : Checked (List Char) := do
  let once ← unwrap ['<', '!', '-', '-'] ['-', '-', '>'] (extent s + 1) [] s
  unwrap ['<', '!', '[', 'C', 'D', 'A', 'T', 'A', '['] [']', ']', '>'] (extent once + 1) [] once

theorem unwrap_eq {a b : Char} (ha : a.toNat < 128) (hb : b.toNat < 128)
    (opening closing : List Char) {rounds : Nat} (out rest : List Char)
    (hrounds : extent rest < rounds) :
    unwrap (a :: opening) (b :: closing) rounds out rest =
      .ok (unwrapFrom (a :: opening) (b :: closing) (by simp) out.reverse rest) := by
  induction rounds generalizing out rest with
  | zero => omega
  | succ rounds ih =>
    rw [unwrap, firstMark?_bytes ha]
    fun_cases unwrapFrom (a :: opening) (b :: closing) (by simp) out.reverse rest with
    | case1 h => simp [h]
    | case2 before inner h hinner =>
      have hafter : sliceFrom rest (extent before + extent (a :: opening)) = .ok inner :=
        sliceFrom_eq (cut?_append h) (extent_append before _)
      simp only [h, Option.map_some, hafter, ok_bind, firstMark?_bytes hb, hinner, Option.map_none,
        pure_eq_ok, List.reverse_reverse]
    | case3 before inner h kept after hinner _ _ =>
      have happend := cut?_append h
      have hkept := cut?_append hinner
      have hwhole : before ++ (a :: opening) ++ (kept ++ (b :: closing ++ after)) = rest := by
        rw [← happend, ← hkept, List.append_assoc kept]
      have hopening : extent (before ++ (a :: opening)) = extent before + extent (a :: opening) :=
        extent_append before _
      have hclosing : extent (before ++ (a :: opening) ++ kept ++ (b :: closing)) =
          extent before + extent (a :: opening) + extent kept + extent (b :: closing) := by
        rw [extent_append, extent_append, hopening]
      have hinnerAt : sliceFrom rest (extent before + extent (a :: opening)) = .ok inner :=
        sliceFrom_eq happend hopening
      have hbeforeAt : sliceTo rest (extent before) = .ok before := by
        rw [← happend, List.append_assoc, sliceTo_append]
      have hkeptAt : slice rest (extent before + extent (a :: opening))
          (extent before + extent (a :: opening) + extent kept) = .ok kept :=
        slice_eq hwhole hopening (by rw [hopening])
      have hafterAt : sliceFrom rest (extent before + extent (a :: opening) + extent kept +
          extent (b :: closing)) = .ok after :=
        sliceFrom_eq (by simpa using hwhole) hclosing
      have hshorter : extent after < rounds := by
        have hextent := congrArg extent hwhole
        have hpos := extent_pos (s := a :: opening) (by simp)
        simp only [extent_append] at hextent
        omega
      simp only [h, Option.map_some, hinnerAt, ok_bind, firstMark?_bytes hb, hinner, hbeforeAt,
        hkeptAt, hafterAt, ih _ _ hshorter, List.reverse_append]

theorem unwrapAll_eq (s : List Char) :
    unwrapAll s = .ok (unwrapCharacterData (unwrapComments s)) := by
  rw [unwrapAll, unwrap_eq (by decide) (by decide) _ _ _ _ (Nat.lt_succ_self _), ok_bind,
    unwrap_eq (by decide) (by decide) _ _ _ _ (Nat.lt_succ_self _)]
  rfl

end HtmlTemplate.Markup.Scan
