import HtmlTemplate.Proofs.Names
import HtmlTemplate.Proofs.Scan.Offsets

/-!
# Names, end tags and values by offsets

A matcher looks at a text from an offset on and gives lengths and offsets where the reader of the
trace gives texts. Each is shown to find what its reader finds (`Finds`): a length is the extent of
what was read, and two offsets are the ends of it. Since the reader's parts are pieces of the text,
every slice on the way is one of a first part, and no check fails.
-/

namespace HtmlTemplate.Markup.Scan

open Text

/-- A matcher, which gives offsets, and a reader, which gives texts, find the same: both nothing, or
both something in relation. -/
def Finds {α β : Type} (R : α → β → Prop) (x : Checked (Option α)) : Option β → Prop
  | none => x = .ok none
  | some b => ∃ a, x = .ok (some a) ∧ R a b

/-! ### Names -/

/-- The length of the name without a colon that a text begins with, or 0. -/
def simpleNameLength : List Char → Nat
  | [] => 0
  | c :: s =>
    if isNameStart c then c.utf8Size + (charOffset? (fun c => !isNamePart c) s).getD (extent s)
    else 0

/-- The length of the name or the two names with a colon between that a text begins with, or 0. -/
def nameLength (s : List Char) : Checked Nat :=
  let first := simpleNameLength s
  if first = 0 then .ok 0
  else if (bytes s)[first]? = some ':'.toUInt8 then do
    let second := simpleNameLength (← sliceFrom s (first + 1))
    return if 0 < second then first + 1 + second else first
  else .ok first

def name? (s : List Char) : Checked (Option Nat) := do
  let n ← nameLength s
  return if 0 < n then some n else none

/-- The length of the blanks that a text begins with. -/
def blankLength (s : List Char) : Checked Nat := subtract (extent s) (extent (dropBlanks s))

theorem simpleNameLength_eq (s : List Char) :
    simpleNameLength s = (readSimpleName? s).elim 0 fun found => extent found.1 := by
  cases s with
  | nil => rfl
  | cons c s =>
    rw [simpleNameLength, readSimpleName?, charOffset?_getD]
    simp only [Bool.not_not]
    split <;> rfl

theorem nameLength_eq (s : List Char) :
    nameLength s = .ok ((readName? s).elim 0 fun found => extent found.1) := by
  unfold nameLength readName?
  rw [simpleNameLength_eq]
  cases hfirst : readSimpleName? s with
  | none => rfl
  | some found =>
    obtain ⟨name, rest⟩ := found
    have happend := readSimpleName?_append hfirst
    have hpos := extent_pos (readSimpleName?_ne_nil hfirst)
    have hne : extent name ≠ 0 := by omega
    simp only [Option.elim_some, if_neg hne, byte_eq_iff (a := ':') (by decide) happend rfl]
    by_cases hc : rest.head? = some ':'
    · obtain ⟨rest, rfl⟩ := List.head?_eq_some_iff.1 hc
      have hslice : sliceFrom s (extent name + 1) = .ok rest :=
        sliceFrom_eq (t := name ++ [':']) (by simpa using happend) (by rw [extent_append]; rfl)
      rw [if_pos hc, hslice, ok_bind, simpleNameLength_eq]
      cases hsecond : readSimpleName? rest with
      | none => simp [hsecond]
      | some found =>
        have hpos := extent_pos (readSimpleName?_ne_nil hsecond)
        have hone : (':' : Char).utf8Size = 1 := rfl
        simp [hsecond, hpos, hone, Nat.add_assoc]
    · rw [if_neg hc]
      cases rest with
      | nil => rfl
      | cons c rest =>
        have hc : c ≠ ':' := by simpa using hc
        simp [hc]

theorem name?_eq (s : List Char) :
    name? s = .ok ((readName? s).map fun found => extent found.1) := by
  rw [name?, nameLength_eq]
  cases hname : readName? s with
  | none => rfl
  | some found =>
    have hpos := extent_pos (readName?_ne_nil hname)
    simp [hpos]

theorem blankLength_eq (s : List Char) : blankLength s = .ok (extent (leadingBlanks s)) := by
  have h := congrArg extent (leadingBlanks_append_dropBlanks s)
  rw [extent_append] at h
  rw [blankLength, ← h, subtract_add]

/-! ### End tags -/

/-- The length of the name after `</`. -/
def endTagName? : List Char → Checked (Option Nat)
  | '<' :: '/' :: s => name? s
  | _ => .ok none

structure EndTagOffsets where
  nameLength : Nat
  length : Nat
  deriving DecidableEq, Repr

/-- `</name` and anything up to the next `>`. -/
def endTag? (s : List Char) : Checked (Option EndTagOffsets) := do
  match ← endTagName? s with
  | none => return none
  | some name =>
    let after := 2 + name
    match firstByte? '>'.toUInt8 (← bytesFrom (bytes s) after) with
    | none => return none
    | some gt => return some ⟨name, after + gt + 1⟩

theorem endTag?_eq (s : List Char) :
    endTag? s = .ok ((readEndTag? s).map fun t => ⟨extent t.found, extent t.source⟩) := by
  unfold endTag? endTagName?
  split
  · next s =>
    rw [name?_eq, readEndTag?]
    cases hname : readName? s with
    | none => simp
    | some found =>
      obtain ⟨name, after⟩ := found
      have hopening : extent ('<' :: '/' :: name) = 2 + extent name := by
        simp (disch := decide) only [extent_cons_of_ascii]
        omega
      have hafter : bytesFrom (bytes ('<' :: '/' :: s)) (2 + extent name) = .ok (bytes after) :=
        bytesFrom_eq (t := '<' :: '/' :: name) (by simp [readName?_append hname]) hopening
      simp only [ok_bind, Option.map_some, hafter, firstByte?_bytes (a := '>') (by decide)]
      cases hrest : after.dropWhile (· != '>') with
      | nil => simp
      | cons gt rest =>
        obtain rfl := eq_of_dropWhile_ne hrest
        have hsource : extent ('<' :: '/' :: name ++ after.takeWhile (· != '>') ++ ['>']) =
            2 + extent name + extent (after.takeWhile (· != '>')) + 1 := by
          rw [extent_append, extent_append, hopening]
          rfl
        simp only [Option.map_some, hsource, pure_eq_ok]
  · simp [readEndTag?]

/-! ### Values of attributes -/

/-- Where the text of a value is, and the offset behind the value. -/
structure ValueOffsets where
  start : Nat
  stop : Nat
  after : Nat
  deriving DecidableEq, Repr

/-- The value whose opening quote is at an offset. Closing quotes that are repeated belong to it. -/
def quotedValue? (s : List Char) (i : Nat) (quote : UInt8) : Checked (Option ValueOffsets) := do
  let start := i + 1
  match firstByte? quote (← bytesFrom (bytes s) start) with
  | none => return none
  | some n =>
    let close := start + n
    let quotes := (← bytesFrom (bytes s) close).takeWhile (· == quote)
    return some ⟨start, close, close + quotes.length⟩

/-- The value without quotes at an offset. -/
def bareValue? (s : List Char) (i : Nat) : Checked (Option ValueOffsets) := do
  let rest ← sliceFrom s i
  let n := (charOffset? (fun c => !isBareValuePart c) rest).getD (extent rest)
  return if 0 < n then some ⟨i, i + n, i + n⟩ else none

def valueAt? (s : List Char) (i : Nat) : Checked (Option ValueOffsets) :=
  match (bytes s)[i]? with
  | none => .ok none
  | some b =>
    if b = '"'.toUInt8 ∨ b = '\''.toUInt8 then quotedValue? s i b else bareValue? s i

/-- `=` with a value, blanks allowed before and after the sign. -/
def assignment? (s : List Char) : Checked (Option ValueOffsets) := do
  let blanks ← blankLength s
  if (bytes s)[blanks]? = some '='.toUInt8 then
    let i := blanks + 1
    valueAt? s (i + (← blankLength (← sliceFrom s i)))
  else return none

/-- Offsets into a text fit the value that was read behind a first part of it. -/
def ValueOffsets.Fits (before t : List Char) (v : ValueOffsets)
    (found : (List Char × List Char) × List Char) : Prop :=
  slice (before ++ t) v.start v.stop = .ok found.1.2 ∧ v.after = extent before + extent found.1.1

theorem ascii_of_isQuote {c : Char} (h : isQuote c = true) : c.toNat < 128 := by
  rw [isQuote, Bool.or_eq_true, beq_iff_eq, beq_iff_eq] at h
  rcases h with rfl | rfl <;> decide

theorem finds_quotedValue? (before : List Char) {q : Char} (hq : isQuote q = true)
    (rest : List Char) :
    Finds (ValueOffsets.Fits before (q :: rest))
      (quotedValue? (before ++ q :: rest) (extent before) q.toUInt8) (readValue? (q :: rest)) := by
  have hascii := ascii_of_isQuote hq
  have hstart : extent (before ++ [q]) = extent before + 1 := by
    rw [extent_append, extent_cons_of_ascii hascii, extent_nil]
  have hrest : bytesFrom (bytes (before ++ q :: rest)) (extent before + 1) = .ok (bytes rest) :=
    bytesFrom_eq (by simp) hstart
  unfold quotedValue? readValue?
  simp only [hq, if_true, hrest, ok_bind, firstByte?_bytes hascii]
  cases hclose : rest.dropWhile (· != q) with
  | nil => rfl
  | cons c after =>
    obtain rfl := eq_of_dropWhile_ne hclose
    have hvalue := List.takeWhile_append_dropWhile (p := (· != c)) (l := rest)
    rw [hclose] at hvalue
    have hopen : extent (before ++ c :: rest.takeWhile (· != c)) =
        extent before + 1 + extent (rest.takeWhile (· != c)) := by
      rw [extent_append, extent_cons_of_ascii hascii]
      omega
    have hbehind : bytesFrom (bytes (before ++ c :: rest))
        (extent before + 1 + extent (rest.takeWhile (· != c))) = .ok (bytes (c :: after)) :=
      bytesFrom_eq (by simp [hvalue]) hopen
    simp only [hbehind, ok_bind, (sameTest_eq hascii).takeWhile_bytes, length_bytes]
    refine ⟨_, rfl, slice_eq (t := before ++ [c]) (v := c :: after) (by simp [hvalue]) hstart
      (by rw [hstart]), ?_⟩
    simp only [List.takeWhile_cons, beq_self_eq_true, if_true, extent_append,
      extent_cons_of_ascii hascii]
    omega

theorem finds_bareValue? (before : List Char) {q : Char} (hq : isQuote q = false)
    (rest : List Char) :
    Finds (ValueOffsets.Fits before (q :: rest))
      (bareValue? (before ++ q :: rest) (extent before)) (readValue? (q :: rest)) := by
  unfold bareValue? readValue?
  simp only [hq, Bool.false_eq_true, if_false, sliceFrom_append, ok_bind, charOffset?_getD,
    Bool.not_not]
  cases hvalue : (q :: rest).takeWhile isBareValuePart with
  | nil => simp [Finds]
  | cons c value =>
    have hpos : 0 < extent (c :: value) := extent_pos (by simp)
    have happend := List.takeWhile_append_dropWhile (p := isBareValuePart) (l := q :: rest)
    rw [hvalue] at happend
    simp only [if_pos hpos]
    exact ⟨_, rfl, slice_eq (by rw [happend]) rfl rfl, rfl⟩

theorem finds_valueAt? (before t : List Char) :
    Finds (ValueOffsets.Fits before t) (valueAt? (before ++ t) (extent before)) (readValue? t) := by
  unfold valueAt?
  rw [getElem?_bytes_append]
  cases t with
  | nil => rfl
  | cons q rest =>
    obtain ⟨b, more, hbytes⟩ := exists_utf8EncodeChar q
    have hmem : b ∈ String.utf8EncodeChar q := by simp [hbytes]
    have hquote : (b = '"'.toUInt8 ∨ b = '\''.toUInt8) ↔ isQuote q = true := by
      rw [isQuote, Bool.or_eq_true,
        ← (sameTest_eq (a := '"') (by decide)).of_mem_utf8EncodeChar hmem,
        ← (sameTest_eq (a := '\'') (by decide)).of_mem_utf8EncodeChar hmem, beq_iff_eq, beq_iff_eq]
    simp only [bytes_cons, hbytes, List.cons_append, List.head?_cons, hquote]
    split
    · next hq =>
      rw [utf8EncodeChar_of_ascii (ascii_of_isQuote hq), List.mem_singleton] at hmem
      rw [hmem]
      exact finds_quotedValue? before hq rest
    · next hq => exact finds_bareValue? before (Bool.eq_false_iff.2 hq) rest

theorem finds_assignment? (s : List Char) :
    Finds (ValueOffsets.Fits [] s) (assignment? s) (readAssignment? s) := by
  have hblanks := leadingBlanks_append_dropBlanks s
  unfold assignment? readAssignment?
  simp only [blankLength_eq, ok_bind, byte_eq_iff (a := '=') (by decide) hblanks rfl]
  by_cases hsign : (dropBlanks s).head? = some '='
  · obtain ⟨rest, hrest⟩ := List.head?_eq_some_iff.1 hsign
    rw [hrest] at hblanks
    have hbehind : sliceFrom s (extent (leadingBlanks s) + 1) = .ok rest :=
      sliceFrom_eq (t := leadingBlanks s ++ ['=']) (by simpa using hblanks)
        (by rw [extent_append]; rfl)
    have hmore := leadingBlanks_append_dropBlanks rest
    have hvalue := finds_valueAt? (leadingBlanks s ++ '=' :: leadingBlanks rest) (dropBlanks rest)
    have hwhole : leadingBlanks s ++ '=' :: leadingBlanks rest ++ dropBlanks rest = s := by
      simpa [hmore] using hblanks
    have hat : extent (leadingBlanks s ++ '=' :: leadingBlanks rest) =
        extent (leadingBlanks s) + 1 + extent (leadingBlanks rest) := by
      rw [extent_append, extent_cons_of_ascii (by decide)]
      omega
    rw [hwhole, hat] at hvalue
    rw [if_pos hsign]
    simp only [hbehind, ok_bind, hrest]
    cases hread : readValue? (dropBlanks rest) with
    | none =>
      rw [hread] at hvalue
      exact hvalue
    | some found =>
      rw [hread] at hvalue
      obtain ⟨v, hv, hslice, hafter⟩ := hvalue
      rw [hwhole] at hslice
      refine ⟨v, hv, hslice, ?_⟩
      simp only [extent_append, extent_nil, Nat.zero_add] at hafter hat ⊢
      omega
  · rw [if_neg hsign]
    cases hd : dropBlanks s with
    | nil => rfl
    | cons c t =>
      rw [hd] at hsign
      have hc : c ≠ '=' := by simpa using hsign
      simp [Finds, hc]

end HtmlTemplate.Markup.Scan
