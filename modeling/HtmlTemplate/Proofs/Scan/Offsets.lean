import HtmlTemplate.Markup.Construct
import HtmlTemplate.Proofs.Scan.Bytes

/-!
# Offsets into texts

Computations with byte offsets that are checked as they go: a slice has its ends between characters
and in order, a byte that is looked up is there, no difference is below zero, every assertion holds.
What is not so breaks the computation off with a `Fault`. An offset that is the extent of what
stands before is always between characters (`sliceFrom_append`, `slice_append`), and a search among
the bytes gives such an offset (`firstByte?_bytes`, `firstMark?_bytes`).
-/

namespace HtmlTemplate.Text

/-- What breaks a computation with offsets off. -/
inductive Fault where
  /-- A slice whose ends are out of range, out of order or inside a character. -/
  | slice
  /-- A byte past the end. -/
  | index
  /-- A difference below zero. -/
  | difference
  /-- An assertion that does not hold. -/
  | assertion
  /-- A loop that has not ended after as many rounds as it is given. -/
  | rounds
  deriving DecidableEq, Repr

/-- A computation that may break off. -/
abbrev Checked (α : Type) := Except Fault α

@[simp] theorem ok_bind {α β : Type} (a : α) (f : α → Checked β) : (Except.ok a >>= f) = f a := rfl

@[simp] theorem pure_eq_ok {α : Type} (a : α) : (pure a : Checked α) = .ok a := rfl

/-- Breaks off unless an assertion holds. -/
def require (p : Prop) [Decidable p] : Checked Unit := if p then .ok () else .error .assertion

@[simp] theorem require_of {p : Prop} [Decidable p] (h : p) : require p = .ok () := if_pos h

/-- The difference of two offsets. -/
def subtract (m n : Nat) : Checked Nat := if n ≤ m then .ok (m - n) else .error .difference

@[simp] theorem subtract_add (m n : Nat) : subtract (m + n) n = .ok m := by
  simp [subtract]

/-! ### Slices of texts -/

/-- Cuts a text at a byte offset, which must be between characters. -/
def cutAt? : List Char → Nat → Option (List Char × List Char)
  | s, 0 => some ([], s)
  | [], _ + 1 => none
  | c :: s, n + 1 =>
    if c.utf8Size ≤ n + 1 then
      (cutAt? s (n + 1 - c.utf8Size)).map fun parts => (c :: parts.1, parts.2)
    else none

def isBoundary (s : List Char) (n : Nat) : Bool := (cutAt? s n).isSome

def sliceFrom (s : List Char) (n : Nat) : Checked (List Char) :=
  match cutAt? s n with
  | some (_, t) => .ok t
  | none => .error .slice

def sliceTo (s : List Char) (n : Nat) : Checked (List Char) :=
  match cutAt? s n with
  | some (t, _) => .ok t
  | none => .error .slice

def slice (s : List Char) (start stop : Nat) : Checked (List Char) :=
  if start ≤ stop then do sliceTo (← sliceFrom s start) (stop - start) else .error .slice

theorem cutAt?_zero (s : List Char) : cutAt? s 0 = some ([], s) := by
  cases s <;> rfl

/-- Offsets into a text are offsets into what follows a first part of it. -/
theorem cutAt?_append_add (s t : List Char) (n : Nat) :
    cutAt? (s ++ t) (extent s + n) = (cutAt? t n).map fun parts => (s ++ parts.1, parts.2) := by
  induction s with
  | nil => simp
  | cons c s ih =>
    have := c.utf8Size_pos
    obtain ⟨m, hm⟩ : ∃ m, extent (c :: s) + n = m + 1 := ⟨extent (c :: s) + n - 1, by simp; omega⟩
    have hrest : m + 1 - c.utf8Size = extent s + n := by
      rw [← hm, extent_cons]
      omega
    have hle : c.utf8Size ≤ m + 1 := by
      rw [← hm, extent_cons]
      omega
    rw [List.cons_append, hm, cutAt?, if_pos hle, hrest, ih]
    cases cutAt? t n <;> rfl

theorem cutAt?_append (s t : List Char) : cutAt? (s ++ t) (extent s) = some (s, t) := by
  have := cutAt?_append_add s t 0
  simpa [cutAt?_zero] using this

theorem eq_of_cutAt? {s t u : List Char} {n : Nat} (h : cutAt? s n = some (t, u)) :
    s = t ++ u ∧ n = extent t := by
  fun_induction cutAt? s n generalizing t u with
  | case1 s =>
    obtain ⟨rfl, rfl⟩ := by simpa using h
    exact ⟨rfl, rfl⟩
  | case2 => cases h
  | case3 c s n hle ih =>
    obtain ⟨⟨t', u'⟩, hcut, heq⟩ := Option.map_eq_some_iff.1 h
    obtain ⟨rfl, rfl⟩ := Prod.mk.inj heq
    obtain ⟨rfl, hn⟩ := ih hcut
    refine ⟨rfl, ?_⟩
    rw [extent_cons, ← hn]
    omega
  | case4 => cases h

theorem isBoundary_iff {s : List Char} {n : Nat} :
    isBoundary s n = true ↔ ∃ t u, s = t ++ u ∧ n = extent t := by
  rw [isBoundary, Option.isSome_iff_exists]
  constructor
  · rintro ⟨⟨t, u⟩, h⟩
    exact ⟨t, u, eq_of_cutAt? h⟩
  · rintro ⟨t, u, rfl, rfl⟩
    exact ⟨_, cutAt?_append t u⟩

@[simp] theorem isBoundary_append (s t : List Char) : isBoundary (s ++ t) (extent s) = true :=
  isBoundary_iff.2 ⟨s, t, rfl, rfl⟩

/-- The boundaries of a text are its valid positions. -/
theorem isBoundary_iff_isValid {s : String} {n : Nat} :
    isBoundary s.toList n = true ↔ (String.Pos.Raw.mk n).IsValid s := by
  rw [isBoundary_iff, String.Pos.Raw.isValid_iff_exists_append]
  constructor
  · rintro ⟨t, u, h, hn⟩
    refine ⟨String.ofList t, String.ofList u, ?_, ?_⟩
    · rw [← String.ofList_append, ← h, String.ofList_toList]
    · rw [hn, extent_ofList]
      rfl
  · rintro ⟨t, u, rfl, hn⟩
    refine ⟨t.toList, u.toList, String.toList_append, ?_⟩
    rw [extent_toList]
    exact congrArg String.Pos.Raw.byteIdx hn

@[simp] theorem sliceFrom_append (s t : List Char) : sliceFrom (s ++ t) (extent s) = .ok t := by
  rw [sliceFrom, cutAt?_append]

@[simp] theorem sliceTo_append (s t : List Char) : sliceTo (s ++ t) (extent s) = .ok s := by
  rw [sliceTo, cutAt?_append]

theorem sliceFrom_eq {s t u : List Char} {n : Nat} (h : t ++ u = s) (hn : extent t = n) :
    sliceFrom s n = .ok u := by
  rw [← h, ← hn, sliceFrom_append]

theorem sliceFrom_append_add (s t : List Char) (n : Nat) :
    sliceFrom (s ++ t) (extent s + n) = sliceFrom t n := by
  unfold sliceFrom
  rw [cutAt?_append_add]
  cases cutAt? t n <;> rfl

theorem slice_append_add (s t : List Char) (start stop : Nat) :
    slice (s ++ t) (extent s + start) (extent s + stop) = slice t start stop := by
  have hle : extent s + start ≤ extent s + stop ↔ start ≤ stop := by omega
  have hdiff : extent s + stop - (extent s + start) = stop - start := by omega
  simp only [slice, hle, hdiff, sliceFrom_append_add]

@[simp] theorem slice_append (s t u : List Char) :
    slice (s ++ (t ++ u)) (extent s) (extent s + extent t) = .ok t := by
  have := slice_append_add s (t ++ u) 0 (extent t)
  rw [Nat.add_zero] at this
  rw [this, slice, if_pos (Nat.zero_le _), Nat.sub_zero, sliceFrom, cutAt?_zero]
  exact sliceTo_append t u

theorem slice_eq {s t u v : List Char} {start stop : Nat} (h : t ++ (u ++ v) = s)
    (hstart : extent t = start) (hstop : extent t + extent u = stop) :
    slice s start stop = .ok u := by
  rw [← h, ← hstart, ← hstop, slice_append]

/-! ### Slices of bytes -/

def bytesFrom (bs : List UInt8) (n : Nat) : Checked (List UInt8) :=
  if n ≤ bs.length then .ok (bs.drop n) else .error .slice

def bytesBetween (bs : List UInt8) (start stop : Nat) : Checked (List UInt8) :=
  if start ≤ stop ∧ stop ≤ bs.length then .ok ((bs.drop start).take (stop - start))
  else .error .slice

def byteAt (bs : List UInt8) (n : Nat) : Checked UInt8 :=
  match bs[n]? with
  | some b => .ok b
  | none => .error .index

theorem byteAt_eq {bs : List UInt8} {n : Nat} {b : UInt8} (h : bs[n]? = some b) :
    byteAt bs n = .ok b := by
  rw [byteAt, h]

theorem bytesFrom_append (s t : List Char) :
    bytesFrom (bytes (s ++ t)) (extent s) = .ok (bytes t) := by
  rw [bytesFrom, if_pos (by simp), bytes_append, List.drop_left' (length_bytes s)]

theorem bytesFrom_eq {s t u : List Char} {n : Nat} (h : t ++ u = s) (hn : extent t = n) :
    bytesFrom (bytes s) n = .ok (bytes u) := by
  rw [← h, ← hn, bytesFrom_append]

theorem bytesBetween_append (s t u : List Char) :
    bytesBetween (bytes (s ++ (t ++ u))) (extent s) (extent s + extent t) = .ok (bytes t) := by
  rw [bytesBetween, if_pos (by simp), bytes_append, List.drop_left' (length_bytes s), bytes_append,
    Nat.add_sub_cancel_left, List.take_left' (length_bytes t)]

theorem bytesBetween_eq {s t u v : List Char} {start stop : Nat} (h : t ++ (u ++ v) = s)
    (hstart : extent t = start) (hstop : extent t + extent u = stop) :
    bytesBetween (bytes s) start stop = .ok (bytes u) := by
  rw [← h, ← hstart, ← hstop, bytesBetween_append]

theorem getElem?_bytes_append (s t : List Char) :
    (bytes (s ++ t))[extent s]? = (bytes t).head? := by
  rw [bytes_append, List.getElem?_append_right (by simp), length_bytes, Nat.sub_self,
    List.head?_eq_getElem?]

theorem getElem?_bytes_eq {s t u : List Char} {n : Nat} (h : t ++ u = s) (hn : extent t = n) :
    (bytes s)[n]? = (bytes u).head? := by
  rw [← h, ← hn, getElem?_bytes_append]

/-- The first byte passes a test if the first character does. -/
theorem SameTest.head?_bytes {p : UInt8 → Bool} {q : Char → Bool} (h : SameTest p q)
    (s : List Char) : (bytes s).head?.any p = s.head?.any q := by
  cases s with
  | nil => rfl
  | cons c s =>
    obtain ⟨b, more, hbytes⟩ := exists_utf8EncodeChar c
    rw [bytes_cons, hbytes]
    exact h.of_mem_utf8EncodeChar (by simp [hbytes])

/-- A text begins with a character of ASCII if its bytes do. -/
theorem head?_bytes_eq_iff {a : Char} (ha : a.toNat < 128) {s : List Char} :
    (bytes s).head? = some a.toUInt8 ↔ s.head? = some a := by
  have h := (sameTest_eq ha).head?_bytes s
  rw [Bool.eq_iff_iff, Option.any_eq_true, Option.any_eq_true] at h
  simpa [Option.mem_def] using h

theorem byte_eq_iff {a : Char} (ha : a.toNat < 128) {s t u : List Char} {n : Nat} (h : t ++ u = s)
    (hn : extent t = n) : (bytes s)[n]? = some a.toUInt8 ↔ u.head? = some a := by
  rw [getElem?_bytes_eq h hn, head?_bytes_eq_iff ha]

/-! ### Searches -/

/-- The offset of the first character that passes a test. -/
def charOffset? (p : Char → Bool) : List Char → Option Nat
  | [] => none
  | c :: s => if p c then some 0 else (charOffset? p s).map (c.utf8Size + ·)

/-- The offset of the first byte with a value. -/
def firstByte? (b : UInt8) (bs : List UInt8) : Option Nat := bs.findIdx? (· == b)

def byteOffsetsFrom (b : UInt8) (position : Nat) : List UInt8 → List Nat
  | [] => []
  | c :: bs =>
    if c == b then position :: byteOffsetsFrom b (position + 1) bs
    else byteOffsetsFrom b (position + 1) bs

/-- The offsets of all bytes with a value. -/
def byteOffsets (b : UInt8) (bs : List UInt8) : List Nat := byteOffsetsFrom b 0 bs

/-- The offset of the last byte with a value. -/
def lastByte? (b : UInt8) (bs : List UInt8) : Option Nat := (byteOffsets b bs).getLast?

/-- The offset of the first occurrence of a mark. -/
def firstMark? (mark : List Char) : List UInt8 → Option Nat
  | [] => none
  | b :: bs =>
    if (bytes mark).isPrefixOf (b :: bs) then some 0 else (firstMark? mark bs).map (1 + ·)

theorem charOffset?_eq (p : Char → Bool) (s : List Char) :
    charOffset? p s =
      match s.dropWhile fun c => !p c with
      | [] => none
      | _ :: _ => some (extent (s.takeWhile fun c => !p c)) := by
  induction s with
  | nil => rfl
  | cons c s ih =>
    rw [charOffset?, List.dropWhile_cons, List.takeWhile_cons]
    cases hc : p c with
    | true => rfl
    | false =>
      rw [ih]
      simp only [Bool.not_false, if_true, Bool.false_eq_true, if_false, extent_cons]
      cases s.dropWhile fun c => !p c <;> rfl

/-- The offset where a test first passes, or the end, is the extent of what does not pass. -/
theorem charOffset?_getD (p : Char → Bool) (s : List Char) :
    (charOffset? p s).getD (extent s) = extent (s.takeWhile fun c => !p c) := by
  rw [charOffset?_eq]
  have := List.takeWhile_append_dropWhile (p := fun c => !p c) (l := s)
  split
  · next h =>
    rw [h, List.append_nil] at this
    rw [this]
    rfl
  · rfl

theorem SameTest.findIdx?_bytes {p : UInt8 → Bool} {q : Char → Bool} (h : SameTest p q)
    (s : List Char) : (bytes s).findIdx? p = charOffset? q s := by
  induction s with
  | nil => rfl
  | cons c s ih =>
    rw [bytes_cons, List.findIdx?_append, String.length_utf8EncodeChar, ih, charOffset?]
    cases hc : q c with
    | true =>
      obtain ⟨b, more, hbytes⟩ := exists_utf8EncodeChar c
      have hb : p b = q c := h.of_mem_utf8EncodeChar (by simp [hbytes])
      simp [hbytes, List.findIdx?_cons, hb, hc]
    | false =>
      have hnone : (String.utf8EncodeChar c).findIdx? p = none := by
        rw [List.findIdx?_eq_none_iff]
        intro b hb
        rw [h.of_mem_utf8EncodeChar hb, hc]
      simp [hnone, Nat.add_comm]

theorem byteOffsetsFrom_add (b : UInt8) (m n : Nat) (bs : List UInt8) :
    byteOffsetsFrom b (m + n) bs = (byteOffsetsFrom b n bs).map (m + ·) := by
  induction bs generalizing n with
  | nil => rfl
  | cons c bs ih =>
    rw [byteOffsetsFrom, byteOffsetsFrom, Nat.add_assoc, ih]
    split <;> rfl

theorem byteOffsetsFrom_append (b : UInt8) (n : Nat) (bs cs : List UInt8) :
    byteOffsetsFrom b n (bs ++ cs) =
      byteOffsetsFrom b n bs ++ byteOffsetsFrom b (n + bs.length) cs := by
  induction bs generalizing n with
  | nil => rfl
  | cons c bs ih =>
    have hlength : n + (c :: bs).length = n + 1 + bs.length := by simp; omega
    rw [List.cons_append, byteOffsetsFrom, byteOffsetsFrom, ih, hlength]
    split <;> rfl

theorem lt_of_mem_byteOffsetsFrom {b : UInt8} {n m : Nat} {bs : List UInt8}
    (h : m ∈ byteOffsetsFrom b n bs) : m < n + bs.length := by
  induction bs generalizing n with
  | nil => cases h
  | cons c bs ih =>
    have hmore : m ∈ byteOffsetsFrom b (n + 1) bs → m < n + (c :: bs).length := by
      intro h
      have := ih h
      simp only [List.length_cons]
      omega
    rw [byteOffsetsFrom] at h
    split at h
    · obtain rfl | h := List.mem_cons.1 h
      · simp
      · exact hmore h
    · exact hmore h

theorem byteOffsetsFrom_eq_nil {b : UInt8} {bs : List UInt8} (h : ∀ c ∈ bs, (c == b) = false)
    (n : Nat) : byteOffsetsFrom b n bs = [] := by
  induction bs generalizing n with
  | nil => rfl
  | cons c bs ih =>
    rw [byteOffsetsFrom, h c (by simp), ih fun d hd => h d (by simp [hd])]
    rfl

section

variable {a : Char} (ha : a.toNat < 128)
include ha

theorem firstByte?_eq_charOffset? (s : List Char) :
    firstByte? a.toUInt8 (bytes s) = charOffset? (· == a) s :=
  (sameTest_eq ha).findIdx?_bytes s

theorem firstByte?_bytes (s : List Char) :
    firstByte? a.toUInt8 (bytes s) =
      match s.dropWhile (· != a) with
      | [] => none
      | _ :: _ => some (extent (s.takeWhile (· != a))) := by
  rw [firstByte?_eq_charOffset? ha]
  exact charOffset?_eq _ s

theorem firstByte?_getD (s : List Char) :
    (firstByte? a.toUInt8 (bytes s)).getD (extent s) = extent (s.takeWhile (· != a)) := by
  rw [firstByte?_eq_charOffset? ha]
  exact charOffset?_getD _ s

theorem byteOffsetsFrom_bytes_cons (position : Nat) (c : Char) (s : List Char) :
    byteOffsetsFrom a.toUInt8 position (bytes (c :: s)) =
      if c = a then position :: byteOffsetsFrom a.toUInt8 (position + c.utf8Size) (bytes s)
      else byteOffsetsFrom a.toUInt8 (position + c.utf8Size) (bytes s) := by
  split
  · next hc =>
    subst hc
    rw [bytes_cons, utf8EncodeChar_of_ascii ha, List.singleton_append, byteOffsetsFrom,
      if_pos (by simp), utf8Size_of_ascii ha]
  · next hc =>
    rw [bytes_cons, byteOffsetsFrom_append,
      byteOffsetsFrom_eq_nil (ne_of_mem_utf8EncodeChar ha hc), List.nil_append,
      String.length_utf8EncodeChar]

end

/-- The last `>` among the bytes is the last one in the text. -/
theorem lastCloseFrom_eq (position : Nat) (found : Option Nat) (s : List Char) :
    Markup.lastCloseFrom position found s =
      (byteOffsetsFrom '>'.toUInt8 position (bytes s)).getLast?.or found := by
  induction s generalizing position found with
  | nil => rfl
  | cons c s ih =>
    rw [Markup.lastCloseFrom, ih, byteOffsetsFrom_bytes_cons (a := '>') (by decide)]
    by_cases hc : c = '>'
    · simp only [hc, beq_self_eq_true, if_true, List.getLast?_cons]
      cases (byteOffsetsFrom '>'.toUInt8 (position + ('>' : Char).utf8Size) (bytes s)).getLast? <;>
        rfl
    · simp [hc]

theorem lastByte?_bytes (s : List Char) : lastByte? '>'.toUInt8 (bytes s) = Markup.lastClose s := by
  rw [Markup.lastClose, lastCloseFrom_eq, Option.or_none]
  rfl

/-! ### Marks -/

theorem splitBeforeFrom_eq (p : Nat → List Char → Bool) (passed : List Char) (position : Nat)
    (s : List Char) :
    splitBeforeFrom p passed position s =
      (passed.reverse ++ (splitBefore p position s).1, (splitBefore p position s).2) := by
  have h : ∀ passed, splitBeforeFrom p passed position s =
      (passed.reverse ++ (splitBeforeFrom p [] position s).1,
        (splitBeforeFrom p [] position s).2) := by
    induction s generalizing position with
    | nil => simp [splitBeforeFrom]
    | cons c s ih =>
      intro passed
      unfold splitBeforeFrom
      split
      · simp
      · rw [ih _ (c :: passed), ih _ [c]]
        simp
  exact h passed

theorem splitBefore_cons (p : Nat → List Char → Bool) (position : Nat) (c : Char) (s : List Char) :
    splitBefore p position (c :: s) =
      if p position (c :: s) then ([], c :: s)
      else
        (c :: (splitBefore p (position + c.utf8Size) s).1,
          (splitBefore p (position + c.utf8Size) s).2) := by
  rw [splitBefore, splitBeforeFrom]
  split
  · rfl
  · rw [splitBeforeFrom_eq]
    rfl

theorem splitBefore_position (f : List Char → Bool) (m n : Nat) (s : List Char) :
    splitBefore (fun _ => f) m s = splitBefore (fun _ => f) n s := by
  induction s generalizing m n with
  | nil => rfl
  | cons c s ih => rw [splitBefore_cons, splitBefore_cons, ih]

theorem cut?_cons (mark : List Char) (c : Char) (s : List Char) :
    cut? mark (c :: s) =
      if mark.isPrefixOf (c :: s) then some ([], (c :: s).drop mark.length)
      else (cut? mark s).map fun parts => (c :: parts.1, parts.2) := by
  unfold cut?
  rw [splitBefore_cons, splitBefore_position _ (0 + c.utf8Size) 0]
  by_cases h : mark.isPrefixOf (c :: s) = true
  · rw [if_pos h, if_pos h]
  · rw [if_neg h, if_neg h]
    rcases splitBefore (fun _ rest => mark.isPrefixOf rest) 0 s with ⟨before, _ | ⟨d, rest⟩⟩ <;> rfl

/-- No mark begins at a byte that is not its first one. -/
theorem firstMark?_append_of_ne {a : Char} (ha : a.toNat < 128) (mark : List Char)
    {bs : List UInt8} (h : ∀ b ∈ bs, (b == a.toUInt8) = false) (cs : List UInt8) :
    firstMark? (a :: mark) (bs ++ cs) = (firstMark? (a :: mark) cs).map (bs.length + ·) := by
  induction bs with
  | nil => simp
  | cons b bs ih =>
    have hb : a.toUInt8 ≠ b := by
      have := h b (by simp)
      rw [beq_eq_false_iff_ne] at this
      exact this.symm
    rw [List.cons_append, firstMark?, bytes_cons, utf8EncodeChar_of_ascii ha,
      if_neg (by simp [hb]), ih fun b hb => h b (by simp [hb]), Option.map_map, List.length_cons]
    congr 1
    funext n
    simp only [Function.comp_apply]
    omega

/-- The first place of a mark among the bytes is the first one in the text. -/
theorem firstMark?_bytes {a : Char} (ha : a.toNat < 128) (mark s : List Char) :
    firstMark? (a :: mark) (bytes s) = (cut? (a :: mark) s).map fun parts => extent parts.1 := by
  induction s with
  | nil => rfl
  | cons c s ih =>
    have hcut : ((cut? (a :: mark) s).map fun parts => (c :: parts.1, parts.2)).map
        (fun parts => extent parts.1) =
          (firstMark? (a :: mark) (bytes s)).map (c.utf8Size + ·) := by
      rw [ih, Option.map_map, Option.map_map]
      rfl
    rw [cut?_cons]
    by_cases hc : c = a
    · subst hc
      have hbegin : (bytes (c :: mark)).isPrefixOf (c.toUInt8 :: bytes s) =
          (c :: mark).isPrefixOf (c :: s) := by
        rw [← isPrefixOf_bytes, bytes_cons c s, utf8EncodeChar_of_ascii ha, List.singleton_append]
      rw [bytes_cons, utf8EncodeChar_of_ascii ha, List.singleton_append, firstMark?, hbegin]
      split
      · rfl
      · rw [hcut, utf8Size_of_ascii ha]
    · rw [if_neg (by simp [List.isPrefixOf, Ne.symm hc]), hcut, bytes_cons,
        firstMark?_append_of_ne ha mark (ne_of_mem_utf8EncodeChar ha hc),
        String.length_utf8EncodeChar]

end HtmlTemplate.Text
