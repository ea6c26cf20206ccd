import HtmlTemplate.CodeFrame
import Mathlib.Data.List.Range

/-!
# The lines of a source

A source is its lines one after the other, each with its line end: a line feed, or a carriage return
and a line feed (`laid_lines`). They are numbered from one, and each begins where the one before it
stops. The characters outside of line ends are those of the lines, at the offsets at which they
stand in the source (`Laid.textOffsets_eq`).
-/

namespace HtmlTemplate.CodeFrame

open Text

/-! ### Offsets of characters -/

/-- The offsets at which the characters of a text begin, the first at the given one. -/
def offsetsFrom (offset : Nat) : List Char → List Nat
  | [] => []
  | c :: rest => offset :: offsetsFrom (offset + c.utf8Size) rest

theorem le_of_mem_offsetsFrom {offset o : Nat} {s : List Char} (h : o ∈ offsetsFrom offset s) :
    offset ≤ o := by
  induction s generalizing offset with
  | nil => cases h
  | cons c rest ih =>
    rcases List.mem_cons.1 h with rfl | h
    · exact Nat.le_refl _
    · exact Nat.le_of_add_right_le (ih h)

/-- No character begins before the first one does. -/
theorem countP_offsetsFrom_eq_zero {offset bound : Nat} (h : bound ≤ offset) (s : List Char) :
    (offsetsFrom offset s).countP (· < bound) = 0 := by
  rw [List.countP_eq_zero]
  intro o ho
  simpa using Nat.le_trans h (le_of_mem_offsetsFrom ho)

theorem pairwise_offsetsFrom (offset : Nat) (s : List Char) :
    (offsetsFrom offset s).Pairwise (· < ·) := by
  induction s generalizing offset with
  | nil => exact .nil
  | cons c rest ih =>
    refine List.pairwise_cons.2 ⟨fun o ho => ?_, ih _⟩
    exact Nat.lt_of_lt_of_le (Nat.lt_add_of_pos_right c.utf8Size_pos) (le_of_mem_offsetsFrom ho)

theorem lt_of_mem_offsetsFrom {offset o : Nat} {s : List Char} (h : o ∈ offsetsFrom offset s) :
    o < offset + extent s := by
  induction s generalizing offset with
  | nil => cases h
  | cons c rest ih =>
    have hsize := c.utf8Size_pos
    rw [extent_cons]
    rcases List.mem_cons.1 h with rfl | h
    · omega
    · have := ih h
      omega

@[simp] theorem length_offsetsFrom (offset : Nat) (s : List Char) :
    (offsetsFrom offset s).length = s.length := by
  induction s generalizing offset with
  | nil => rfl
  | cons c rest ih => rw [offsetsFrom, List.length_cons, List.length_cons, ih]

/-- The offsets of the characters of a line. -/
def Line.offsets (l : Line) : List Nat := offsetsFrom l.start l.text

/-- The character is part of a line end, before the given ones. -/
def endsLine (c : Char) (rest : List Char) : Bool :=
  c == '\n' || c == '\r' && rest.head? == some '\n'

/-- The offsets of the characters that are not part of a line end. -/
def textOffsets (offset : Nat) : List Char → List Nat
  | [] => []
  | c :: rest =>
    if endsLine c rest then textOffsets (offset + c.utf8Size) rest
    else offset :: textOffsets (offset + c.utf8Size) rest

/-! ### Lines -/

/-- What stands behind the text of a line other than the last, and how many bytes that is. A
carriage return before a line feed is part of the line end. -/
inductive LineEnd (text : List Char) : List Char → Nat → Prop where
  | lineFeed (h : text.getLast? ≠ some '\r') : LineEnd text ['\n'] 1
  | carriageReturn : LineEnd text ['\r', '\n'] 2

theorem LineEnd.extent_eq {text ending : List Char} {bytes : Nat} (h : LineEnd text ending bytes) :
    extent ending = bytes := by
  cases h <;> rfl

/-- The text consists of these lines, the first with the given number and at the given offset. -/
inductive Laid : Nat → Nat → List Char → List Line → Prop where
  | last (number start : Nat) {text : List Char} (htext : '\n' ∉ text) :
    Laid number start text [⟨number, start, text, 1⟩]
  | next {number start bytes : Nat} {text ending rest : List Char} {lines : List Line}
      (htext : '\n' ∉ text) (hending : LineEnd text ending bytes)
      (hrest : Laid (number + 1) (start + extent text + bytes) rest lines) :
    Laid number start (text ++ ending ++ rest) (⟨number, start, text, bytes⟩ :: lines)

/-- The line that stops at a line feed, with the characters before it in reverse. -/
theorem laid_beforeLineFeed {number start : Nat} {begun rest : List Char} {lines : List Line}
    (hbegun : '\n' ∉ begun)
    (hrest : Laid (number + 1) (Line.beforeLineFeed number start begun).stop rest lines) :
    Laid number start (begun.reverse ++ '\n' :: rest)
      (Line.beforeLineFeed number start begun :: lines) := by
  unfold Line.beforeLineFeed at hrest ⊢
  split at hrest
  · next text =>
    have htext : '\n' ∉ text.reverse := by simpa using fun h => hbegun (by simp [h])
    simpa using Laid.next htext .carriageReturn hrest
  · next hreturn =>
    have htext : '\n' ∉ begun.reverse := by simpa using hbegun
    have hlast : begun.reverse.getLast? ≠ some '\r' := by
      rw [List.getLast?_reverse]
      cases begun with
      | nil => simp
      | cons c text => simpa using fun hc => hreturn text (by rw [hc])
    simpa using Laid.next htext (.lineFeed hlast) hrest

theorem laid_linesFrom (number start : Nat) {begun : List Char} (hbegun : '\n' ∉ begun)
    (rest : List Char) :
    Laid number start (begun.reverse ++ rest) (linesFrom number start begun rest) := by
  induction rest generalizing number start begun with
  | nil => simpa [linesFrom] using Laid.last number start (by simpa using hbegun)
  | cons c rest ih =>
    rw [linesFrom]
    split
    · next hc =>
      obtain rfl := eq_of_beq hc
      exact laid_beforeLineFeed hbegun (ih (number + 1) _ List.not_mem_nil)
    · next hc =>
      have hbegun' : '\n' ∉ c :: begun := by
        rw [List.mem_cons, not_or]
        exact ⟨fun h => hc (beq_iff_eq.2 h.symm), hbegun⟩
      simpa using ih number start hbegun'

/-- A source consists of its lines. -/
theorem laid_lines (source : String) : Laid 1 0 source.toList (lines source) :=
  laid_linesFrom 1 0 List.not_mem_nil source.toList

namespace Laid

variable {number start : Nat} {s : List Char} {lines : List Line}

/-- Lines are numbered one after the other. -/
theorem numbers (h : Laid number start s lines) :
    lines.map Line.number = List.range' number lines.length := by
  induction h with
  | last => rfl
  | next _ _ _ ih => rw [List.map_cons, ih, List.length_cons, List.range'_succ]

theorem pairwise_number_lt (h : Laid number start s lines) :
    lines.Pairwise fun l m => l.number < m.number :=
  List.pairwise_map.1 (h.numbers ▸ List.pairwise_lt_range')

/-- Lines begin no earlier than the first one. -/
theorem start_le (h : Laid number start s lines) : ∀ l ∈ lines, start ≤ l.start := by
  induction h with
  | last => simp
  | next _ _ _ ih =>
    rw [List.forall_mem_cons]
    refine ⟨Nat.le_refl _, fun l hl => ?_⟩
    have := ih l hl
    omega

/-- A line stops no later than the lines behind it begin. -/
theorem pairwise_stop_le (h : Laid number start s lines) :
    lines.Pairwise fun l m => l.stop ≤ m.start := by
  induction h with
  | last => simp
  | next _ _ hrest ih => exact List.pairwise_cons.2 ⟨hrest.start_le, ih⟩

theorem pairwise_start_le (h : Laid number start s lines) :
    lines.Pairwise fun l m => l.start ≤ m.start :=
  h.pairwise_stop_le.imp fun hstop =>
    Nat.le_trans (Nat.le_trans (Nat.le_add_right _ _) (Nat.le_add_right _ _)) hstop

theorem lineFeed_notMem (h : Laid number start s lines) : ∀ l ∈ lines, '\n' ∉ l.text := by
  induction h with
  | last _ _ htext => simpa using htext
  | next htext _ _ ih => exact List.forall_mem_cons.2 ⟨htext, ih⟩

/-- Every offset in a text is on one of its lines; the lines before that one stop no later. -/
theorem exists_line (h : Laid number start s lines) {offset : Nat} (hstart : start ≤ offset)
    (hoffset : offset ≤ start + extent s) :
    ∃ before first later, lines = before ++ first :: later ∧
      (∀ l ∈ before, l.stop ≤ offset) ∧ first.start ≤ offset ∧ offset < first.stop := by
  induction h with
  | @last number start text htext =>
    exact ⟨[], _, [], rfl, by simp, hstart, Nat.lt_succ_of_le hoffset⟩
  | @next number start bytes text ending rest lines htext hending hrest ih =>
    by_cases hstop : offset < start + extent text + bytes
    · exact ⟨[], _, lines, rfl, by simp, hstart, hstop⟩
    · rw [extent_append, extent_append, hending.extent_eq] at hoffset
      obtain ⟨before, first, later, hlines, hbefore, hfirst⟩ :=
        ih (Nat.le_of_not_lt hstop) (by omega)
      refine ⟨_ :: before, first, later, by rw [hlines, List.cons_append], ?_, hfirst⟩
      exact List.forall_mem_cons.2 ⟨Nat.le_of_not_lt hstop, hbefore⟩

end Laid

/-! ### The characters of the lines -/

/-- The characters of a text before which no line end begins are not part of one. -/
theorem textOffsets_append {text rest : List Char} (htext : '\n' ∉ text)
    (hrest : text.getLast? ≠ some '\r' ∨ rest.head? ≠ some '\n') (offset : Nat) :
    textOffsets offset (text ++ rest) =
      offsetsFrom offset text ++ textOffsets (offset + extent text) rest := by
  induction text generalizing offset with
  | nil => rfl
  | cons c text ih =>
    obtain ⟨hfeed, htext⟩ := List.ne_and_not_mem_of_not_mem_cons htext
    have hreturn : c = '\r' → (text ++ rest).head? ≠ some '\n' := by
      rintro rfl
      cases text with
      | nil => simpa using hrest
      | cons d text => exact fun h => htext (by simp [Option.some.inj h])
    have hc : endsLine c (text ++ rest) = false := by
      simpa [endsLine, hfeed.symm] using hreturn
    have hrest' : text.getLast? ≠ some '\r' ∨ rest.head? ≠ some '\n' := by
      cases text with
      | nil => simp
      | cons d text => simpa using hrest
    rw [List.cons_append, textOffsets, hc, if_neg Bool.false_ne_true, ih htext hrest', extent_cons,
      Nat.add_assoc]
    rfl

theorem textOffsets_of_lineFeed_notMem {text : List Char} (htext : '\n' ∉ text) (offset : Nat) :
    textOffsets offset text = offsetsFrom offset text := by
  have happend := @textOffsets_append text [] htext (.inr (by simp)) offset
  simpa [textOffsets] using happend

/-- The characters outside of line ends are those of the lines. -/
theorem Laid.textOffsets_eq {number start : Nat} {s : List Char} {lines : List Line}
    (h : Laid number start s lines) : textOffsets start s = lines.flatMap Line.offsets := by
  induction h with
  | last _ _ htext => simp [textOffsets_of_lineFeed_notMem htext, Line.offsets]
  | next htext hending _ ih =>
    rw [List.flatMap_cons, ← ih, List.append_assoc]
    cases hending with
    | lineFeed hlast => exact textOffsets_append htext (.inl hlast) _
    | carriageReturn => exact textOffsets_append htext (.inr (by simp)) _

end HtmlTemplate.CodeFrame
