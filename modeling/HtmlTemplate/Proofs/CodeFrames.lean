import HtmlTemplate.Proofs.SourceLines

/-!
# What a code frame shows

The frame for a range is put together from the rows for the lines that it shows (`frame_eq`): the
line itself and, for a line that the range reaches, a row of marks below it. The carets of that row
are counted from a fixed column, so they stand below the characters of the range as long as the
number of the line has at most three digits (`aligned_iff`).
-/

namespace HtmlTemplate.CodeFrame

open Text

/-! ### Marks -/

/-- The marks under a line: one for each character that begins before the end of the range, a caret
if it does not begin before the range. -/
def Line.marks (start stop : Nat) (l : Line) : List Char :=
  (l.offsets.takeWhile (· < stop)).map fun o => if start ≤ o then '^' else ' '

/-- The row with the marks under a line. -/
def Line.underline (start stop : Nat) (l : Line) : String :=
  "   |  " ++ String.ofList (l.marks start stop)

theorem charsBefore_eq (offset start : Nat) (text : List Char) :
    Line.charsBefore (offset - start) text = (offsetsFrom start text).countP (· < offset) := by
  induction text generalizing start with
  | nil => rfl
  | cons c rest ih =>
    rw [Line.charsBefore, offsetsFrom, List.countP_cons, ← ih, Nat.sub_sub]
    split
    · next h =>
      have hrest : Line.charsBefore (offset - (start + c.utf8Size)) rest = 0 := by
        rw [ih]
        exact countP_offsetsFrom_eq_zero (by omega) rest
      simp [hrest]
      omega
    · next h => simp [Nat.lt_of_sub_ne_zero h]

theorem marksFrom_eq {start stop : Nat} (hle : start ≤ stop) (offset : Nat) (text : List Char) :
    ((offsetsFrom offset text).takeWhile (· < stop)).map (fun o => if start ≤ o then '^' else ' ') =
      List.replicate ((offsetsFrom offset text).countP (· < start)) ' ' ++
        List.replicate ((offsetsFrom offset text).countP (· < stop) -
          (offsetsFrom offset text).countP (· < start)) '^' := by
  induction text generalizing offset with
  | nil => rfl
  | cons c rest ih =>
    have hbehind : ∀ bound ≤ offset,
        (offsetsFrom (offset + c.utf8Size) rest).countP (· < bound) = 0 := fun _ hbound =>
      countP_offsetsFrom_eq_zero (Nat.le_trans hbound (Nat.le_add_right _ _)) rest
    rw [offsetsFrom, List.countP_cons, List.countP_cons, List.takeWhile_cons]
    by_cases hstart : offset < start
    · have hstop : offset < stop := Nat.lt_of_lt_of_le hstart hle
      simp [hstart, hstop, ih, List.replicate_succ]
    · have hzero := hbehind start (Nat.le_of_not_lt hstart)
      have ihrest := ih (offset + c.utf8Size)
      rw [hzero] at ihrest ⊢
      by_cases hstop : offset < stop
      · simp [hstart, hstop, ihrest, List.replicate_succ, Nat.le_of_not_lt hstart]
      · simp [hstart, hstop, hbehind stop (Nat.le_of_not_lt hstop)]

theorem caretRow_eq {start stop : Nat} (hle : start ≤ stop) (l : Line) :
    caretRow (l.column start) (l.column stop - l.column start) = l.underline start stop := by
  rw [caretRow, Line.underline, Line.marks, Line.offsets, marksFrom_eq hle, Line.column,
    Line.column, charsBefore_eq, charsBefore_eq, spaces, carets, String.append_assoc,
    String.ofList_append]

/-- No character behind one that begins at the end of the range or later is in the range. -/
theorem not_mem_range_of_le {start stop offset : Nat} (h : stop ≤ offset) {s : List Char} {o : Nat}
    (ho : o ∈ offsetsFrom offset s) : ¬ (start ≤ o ∧ o < stop) :=
  fun hrange => Nat.not_lt_of_le (Nat.le_trans h (le_of_mem_offsetsFrom ho)) hrange.2

/-- The columns with a caret are those of the characters in the range. -/
theorem getElem?_marks (start stop : Nat) (l : Line) (k : Nat) :
    (l.marks start stop)[k]? = some '^' ↔
      ∃ o, l.offsets[k]? = some o ∧ start ≤ o ∧ o < stop := by
  rw [Line.marks, Line.offsets]
  generalize l.start = offset
  induction l.text generalizing offset k with
  | nil => simp [offsetsFrom]
  | cons c rest ih =>
    rw [offsetsFrom, List.takeWhile_cons]
    by_cases hstop : offset < stop
    · cases k with
      | zero => simp [hstop]
      | succ k => simpa [hstop] using ih k (offset + c.utf8Size)
    · refine iff_of_false (by simp [hstop]) ?_
      rintro ⟨o, ho, hrange⟩
      exact not_mem_range_of_le (Nat.le_of_not_lt hstop) (s := c :: rest) (List.mem_of_getElem? ho)
        hrange

theorem takeWhile_eq_filter {α : Type} {p : α → Bool} {s : List α}
    (h : s.Pairwise fun a b => p b → p a) : s.takeWhile p = s.filter p := by
  induction s with
  | nil => rfl
  | cons a s ih =>
    obtain ⟨hhead, htail⟩ := List.pairwise_cons.1 h
    cases ha : p a with
    | true => rw [List.takeWhile_cons_of_pos ha, List.filter_cons_of_pos ha, ih htail]
    | false =>
      have hnone : s.filter p = [] :=
        List.filter_eq_nil_iff.2 fun b hb hpb => by simp [hhead b hb hpb] at ha
      rw [List.takeWhile_cons_of_neg (by simp [ha]), List.filter_cons_of_neg (by simp [ha]), hnone]

/-- There are as many carets as characters in the range. -/
theorem count_marks (start stop : Nat) (l : Line) :
    (l.marks start stop).count '^' = l.offsets.countP fun o => start ≤ o ∧ o < stop := by
  have hsorted : l.offsets.Pairwise fun o p => decide (p < stop) → decide (o < stop) :=
    (pairwise_offsetsFrom l.start l.text).imp fun hlt hstop =>
      decide_eq_true (Nat.lt_trans hlt (of_decide_eq_true hstop))
  rw [Line.marks, takeWhile_eq_filter hsorted, List.count, List.countP_map, List.countP_filter]
  refine List.countP_congr fun o _ => ?_
  by_cases hstart : start ≤ o <;> simp [hstart]

/-! ### The rows for a line -/

/-- The range begins on the line, which is `first` then, or goes on to the line. -/
def Line.Underlined (l first : Line) (stop : Nat) : Prop :=
  l.number = first.number ∨ first.number < l.number ∧ l.start < stop

instance (l first : Line) (stop : Nat) : Decidable (l.Underlined first stop) :=
  inferInstanceAs (Decidable (_ ∨ _))

/-- The rows for a line, where the range begins on the line `first`. -/
def Line.rows (l first : Line) (start stop : Nat) : List String :=
  if l.Underlined first stop then [l.row, l.underline start stop] else [l.row]

theorem firstRows_eq {start stop : Nat} (hle : start ≤ stop) (first : Line) :
    firstRows start stop first = first.rows first start stop := by
  have hwidth : (if first.stop < stop then first.text.length - first.column start
      else first.column stop - first.column start) = first.column stop - first.column start := by
    split
    · next hstop =>
      have hall : first.column stop = first.text.length := by
        rw [Line.column, charsBefore_eq, ← length_offsetsFrom first.start first.text,
          List.countP_eq_length]
        intro o ho
        have := lt_of_mem_offsetsFrom ho
        simp only [Line.stop] at hstop
        simp
        omega
      rw [hall]
    · rfl
  rw [firstRows, hwidth, caretRow_eq hle, Line.rows, if_pos (.inl rfl)]

theorem laterRows_eq {start stop : Nat} (hle : start ≤ stop) {first l : Line}
    (hnumber : first.number < l.number) (hstart : start ≤ l.start) :
    laterRows stop l = l.rows first start stop := by
  have hcolumn : l.column start = 0 := by
    rw [Line.column, charsBefore_eq, countP_offsetsFrom_eq_zero hstart]
  have hunderlined : l.Underlined first stop ↔ l.start < stop := by
    rw [Line.Underlined, and_iff_right hnumber, or_iff_right (Nat.ne_of_gt hnumber)]
  rw [laterRows, Line.rows, ← caretRow_eq hle, hcolumn, Nat.sub_zero]
  exact if_congr hunderlined.symm rfl rfl

theorem rows_of_lt {start stop : Nat} {l first : Line} (hnumber : l.number < first.number) :
    l.rows first start stop = [l.row] :=
  if_neg fun h => h.elim (Nat.ne_of_lt hnumber) fun h => Nat.lt_asymm hnumber h.1

/-! ### The lines that are shown -/

theorem number_eq {source : String} {k : Nat} {l : Line} (h : (lines source)[k]? = some l) :
    l.number = k + 1 := by
  have hnumbers := congrArg (·[k]?) (laid_lines source).numbers
  have hk := (List.getElem?_eq_some_iff.1 h).1
  simp only [List.getElem?_map, h, Option.map_some, List.getElem?_range' hk] at hnumbers
  have := Option.some.inj hnumbers
  omega

/-- Lines with greater numbers begin no earlier. -/
theorem start_le_start {source : String} {l m : Line} (hl : l ∈ lines source)
    (hm : m ∈ lines source) (h : l.number ≤ m.number) : l.start ≤ m.start := by
  obtain ⟨j, hj⟩ := List.mem_iff_getElem?.1 hl
  obtain ⟨k, hk⟩ := List.mem_iff_getElem?.1 hm
  rw [number_eq hj, number_eq hk] at h
  obtain hlt | rfl := Nat.lt_or_eq_of_le (Nat.le_of_succ_le_succ h)
  · obtain ⟨hjlt, rfl⟩ := List.getElem?_eq_some_iff.1 hj
    obtain ⟨hklt, rfl⟩ := List.getElem?_eq_some_iff.1 hk
    exact List.pairwise_iff_getElem.1 (laid_lines source).pairwise_start_le j k hjlt hklt hlt
  · rw [Option.some.inj (hj.symm.trans hk)]

/-- The line is shown in a frame for a range that begins on the line `first` and ends before
`stop`. -/
def Line.Shown (source : String) (stop : Nat) (l first : Line) : Prop :=
  first.number - context ≤ l.number ∧
    (l.number ≤ first.number + context ∨
      ∃ m ∈ lines source, m.start < stop ∧ l.number ≤ m.number)

instance (source : String) (stop : Nat) (l first : Line) : Decidable (l.Shown source stop first) :=
  inferInstanceAs (Decidable (_ ∧ (_ ∨ _)))

theorem Line.Underlined.shown {source : String} {stop : Nat} {l first : Line}
    (h : l.Underlined first stop) (hl : l ∈ lines source) : l.Shown source stop first := by
  obtain hnumber | ⟨hnumber, hstart⟩ := h
  · rw [Line.Shown, hnumber]
    exact ⟨Nat.sub_le _ _, .inl (Nat.le_add_right _ _)⟩
  · have hlower : first.number - context ≤ l.number :=
      Nat.le_trans (Nat.sub_le _ _) (Nat.le_of_lt hnumber)
    exact ⟨hlower, .inr ⟨l, hl, hstart, Nat.le_refl _⟩⟩

/-- The lines that a frame shows. -/
def shownLines (source : String) (stop : Nat) (first : Line) : List Line :=
  (lines source).filter (·.Shown source stop first)

/-- The lines of a source around that on which a range begins. -/
structure Splits (source : String) (start : Nat) (before : List Line) (first : Line)
    (later : List Line) : Prop where
  lines_eq : lines source = before ++ first :: later
  stop_le : ∀ l ∈ before, l.stop ≤ start
  start_le : first.start ≤ start
  lt_stop : start < first.stop

theorem exists_splits {source : String} {start : Nat} (h : start ≤ extent source.toList) :
    ∃ before first later, Splits source start before first later := by
  obtain ⟨before, first, later, hlines, hbefore, hstart, hstop⟩ :=
    (laid_lines source).exists_line (Nat.zero_le start) (by rwa [Nat.zero_add])
  exact ⟨before, first, later, hlines, hbefore, hstart, hstop⟩

namespace Splits

variable {source : String} {start : Nat} {before later : List Line} {first : Line}
  (h : Splits source start before first later)
include h

theorem number_first : first.number = before.length + 1 :=
  number_eq (by rw [h.lines_eq, List.getElem?_append_right (Nat.le_refl _), Nat.sub_self]; rfl)

theorem number_before {k : Nat} {l : Line} (hl : before[k]? = some l) : l.number = k + 1 :=
  number_eq (by rw [h.lines_eq, List.getElem?_append_left (List.getElem?_eq_some_iff.1 hl).1, hl])

theorem number_later {k : Nat} {l : Line} (hl : later[k]? = some l) :
    l.number = first.number + 1 + k := by
  have hindex : (lines source)[before.length + (k + 1)]? = some l := by
    rw [h.lines_eq, List.getElem?_append_right (Nat.le_add_right _ _), Nat.add_sub_cancel_left,
      List.getElem?_cons_succ, hl]
  rw [number_eq hindex, h.number_first]
  omega

theorem number_before_lt {l : Line} (hl : l ∈ before) : l.number < first.number := by
  obtain ⟨k, hk⟩ := List.mem_iff_getElem?.1 hl
  have := (List.getElem?_eq_some_iff.1 hk).1
  rw [h.number_before hk, h.number_first]
  omega

theorem lt_number_later {l : Line} (hl : l ∈ later) : first.number < l.number := by
  obtain ⟨k, hk⟩ := List.mem_iff_getElem?.1 hl
  rw [h.number_later hk]
  omega

theorem mem_first : first ∈ lines source := by
  rw [h.lines_eq]
  exact List.mem_append_right _ List.mem_cons_self

theorem mem_later {l : Line} (hl : l ∈ later) : l ∈ lines source := by
  rw [h.lines_eq]
  exact List.mem_append_right _ (List.mem_cons_of_mem _ hl)

theorem start_le_later {l : Line} (hl : l ∈ later) : start ≤ l.start := by
  have hpairwise := (laid_lines source).pairwise_stop_le
  rw [h.lines_eq] at hpairwise
  have hstop := List.rel_of_pairwise_cons (List.pairwise_append.1 hpairwise).2.1 hl
  exact Nat.le_of_lt (Nat.lt_of_lt_of_le h.lt_stop hstop)

/-- Of the lines before the range, the last two are shown. -/
theorem filter_before (stop : Nat) :
    before.filter (·.Shown source stop first) = before.drop (before.length - context) := by
  have hdropped : (before.take (before.length - context)).filter
      (·.Shown source stop first) = [] := by
    rw [List.filter_eq_nil_iff]
    intro l hl
    obtain ⟨k, hk⟩ := List.mem_iff_getElem?.1 hl
    have hlt := (List.getElem?_eq_some_iff.1 hk).1
    rw [List.length_take] at hlt
    rw [List.getElem?_take_of_lt (by omega)] at hk
    rw [decide_eq_true_iff]
    intro hshown
    have hlower := hshown.1
    rw [h.number_before hk, h.number_first] at hlower
    omega
  have hkept : (before.drop (before.length - context)).filter (·.Shown source stop first) =
      before.drop (before.length - context) := by
    rw [List.filter_eq_self]
    intro l hl
    obtain ⟨k, hk⟩ := List.mem_iff_getElem?.1 hl
    rw [List.getElem?_drop] at hk
    have := (List.getElem?_eq_some_iff.1 hk).1
    rw [decide_eq_true_iff, Line.Shown, h.number_before hk, h.number_first]
    exact ⟨by omega, .inl (by omega)⟩
  conv_lhs => rw [← List.take_append_drop (before.length - context) before]
  rw [List.filter_append, hdropped, hkept, List.nil_append]

/-- Of the lines behind, two are shown and those that begin before the end of the range. -/
theorem shown_later_iff (stop : Nat) {l : Line} (hl : l ∈ later) :
    l.Shown source stop first ↔ l.number ≤ first.number + context ∨ l.start < stop := by
  have hlower : first.number - context ≤ l.number :=
    Nat.le_trans (Nat.sub_le _ _) (Nat.le_of_lt (h.lt_number_later hl))
  rw [Line.Shown, and_iff_right hlower]
  refine or_congr_right ⟨?_, fun hstart => ⟨l, h.mem_later hl, hstart, Nat.le_refl _⟩⟩
  rintro ⟨m, hm, hstart, hle⟩
  exact Nat.lt_of_le_of_lt (start_le_start (h.mem_later hl) hm hle) hstart

theorem filter_later (stop : Nat) :
    later.filter (·.Shown source stop first) =
      later.takeWhile fun l => l.number ≤ first.number + context || l.start < stop := by
  have hsublist : later.Sublist (lines source) := by
    rw [h.lines_eq]
    exact (List.sublist_cons_self first later).trans (List.sublist_append_right _ _)
  have hnumbers := (laid_lines source).pairwise_number_lt.sublist hsublist
  have hstarts := (laid_lines source).pairwise_start_le.sublist hsublist
  rw [takeWhile_eq_filter]
  · refine List.filter_congr fun l hl => ?_
    simp [h.shown_later_iff stop hl]
  · refine (hnumbers.and hstarts).imp fun ⟨hnumber, hstart⟩ => ?_
    simp only [Bool.or_eq_true, decide_eq_true_iff]
    omega

theorem shownLines_eq (stop : Nat) :
    shownLines source stop first = before.drop (before.length - context) ++
      first :: later.takeWhile fun l => l.number ≤ first.number + context || l.start < stop := by
  have hfirst : first.Shown source stop first := Line.Underlined.shown (.inl rfl) h.mem_first
  rw [shownLines, h.lines_eq, List.filter_append, h.filter_before, ← h.filter_later,
    List.filter_cons_of_pos (by simpa using hfirst)]

/-- The lines behind the range, counted from one. -/
theorem zipIdx_later : later.zipIdx 1 = later.map fun l => (l, l.number - first.number) := by
  refine List.ext_getElem? fun k => ?_
  rw [List.getElem?_zipIdx, List.getElem?_map]
  cases hl : later[k]? with
  | none => rfl
  | some l =>
    simp [h.number_later hl]
    omega

end Splits

/-- A frame consists of the rows for the lines that it shows. -/
theorem frame_eq {source : String} {start stop : Nat} (hle : start ≤ stop)
    {before later : List Line} {first : Line} (h : Splits source start before first later) :
    frame source start stop = "\n".intercalate
      ((shownLines source stop first).flatMap fun l => l.rows first start stop) := by
  have hdropped : (lines source).dropWhile (fun l => l.stop ≤ start) = first :: later := by
    rw [h.lines_eq, List.dropWhile_append_of_pos (by simpa using h.stop_le),
      List.dropWhile_cons_of_neg (by simpa using h.lt_stop)]
  have htaken : (lines source).take (first.number - 1) = before := by
    rw [h.lines_eq, h.number_first, Nat.add_sub_cancel, List.take_left]
  have hearlier : ((before.drop (before.length - context)).flatMap fun l =>
      l.rows first start stop) = (before.drop (before.length - context)).map Line.row := by
    rw [List.map_eq_flatMap]
    exact List.flatMap_congr fun l hl =>
      rows_of_lt (h.number_before_lt (List.mem_of_mem_drop hl))
  have hlater : ∀ l ∈ later.takeWhile
        (fun l => l.number ≤ first.number + context || l.start < stop),
      laterRows stop l = l.rows first start stop := fun l hl =>
    have hmem := (List.takeWhile_sublist _).mem hl
    laterRows_eq hle (h.lt_number_later hmem) (h.start_le_later hmem)
  unfold frame
  simp only [hdropped, htaken, h.zipIdx_later, List.takeWhile_map, List.flatMap_map,
    Function.comp_def, Nat.sub_le_iff_le_add']
  rw [List.flatMap_congr hlater, h.shownLines_eq, List.flatMap_append, List.flatMap_cons,
    hearlier, firstRows_eq hle, List.append_assoc]

/-! ### The rows of the text -/

theorem toList_row (l : Line) :
    l.row.toList = Nat.toDigits 10 l.number ++
      List.replicate (3 - (Nat.toDigits 10 l.number).length) ' ' ++ ['|', ' ', ' '] ++ l.text := by
  simp [Line.row, spaces, ← String.length_toList]

theorem toList_underline (start stop : Nat) (l : Line) :
    (l.underline start stop).toList = [' ', ' ', ' ', '|', ' ', ' '] ++ l.marks start stop := by
  simp [Line.underline]

theorem lineFeed_notMem_row {source : String} {l : Line} (hl : l ∈ lines source) :
    '\n' ∉ l.row.toList := by
  have hdigits : '\n' ∉ Nat.toDigits 10 l.number := fun h =>
    absurd (Nat.isDigit_of_mem_toDigits (by decide) (by decide) h) (by decide)
  have htext := (laid_lines source).lineFeed_notMem l hl
  simp [toList_row, hdigits, htext]

theorem lineFeed_notMem_underline (start stop : Nat) (l : Line) :
    '\n' ∉ (l.underline start stop).toList := by
  have hmarks : '\n' ∉ l.marks start stop := by
    rw [Line.marks, List.mem_map]
    rintro ⟨o, -, ho⟩
    split at ho <;> exact absurd ho (by decide)
  simp [toList_underline, hmarks]

theorem lineFeed_notMem_rows {source : String} {l : Line} (hl : l ∈ lines source) (first : Line)
    (start stop : Nat) : ∀ row ∈ l.rows first start stop, '\n' ∉ row.toList := by
  unfold Line.rows
  split <;> simp [lineFeed_notMem_row hl, lineFeed_notMem_underline]

/-- Between its line feeds, a frame has the rows for the lines that it shows. -/
theorem splitOn_frame {source : String} {start stop : Nat} (hle : start ≤ stop)
    {before later : List Line} {first : Line} (h : Splits source start before first later) :
    (frame source start stop).toList.splitOn '\n' =
      ((shownLines source stop first).flatMap fun l => l.rows first start stop).map
        String.toList := by
  rw [frame_eq hle h, String.toList_intercalate]
  refine List.splitOn_intercalate '\n' ?_ ?_
  · simp only [List.forall_mem_map, List.forall_mem_flatMap]
    exact fun l hl => lineFeed_notMem_rows (List.mem_of_mem_filter hl) first start stop
  · simp [h.shownLines_eq, Line.rows, Line.Underlined]

/-! ### The number of carets -/

theorem count_underline (start stop : Nat) (l : Line) :
    (l.underline start stop).toList.count '^' =
      l.offsets.countP fun o => start ≤ o ∧ o < stop := by
  rw [toList_underline, List.count_append, count_marks]
  exact Nat.zero_add _

/-- What has nothing to count may be left out. -/
theorem countP_flatMap_filter {α β γ : Type} {p : α → Bool} {f : α → List β} {g : α → List γ}
    {q : β → Bool} {r : γ → Bool} {s : List α} (hcount : ∀ a ∈ s, (f a).countP q = (g a).countP r)
    (hnone : ∀ a ∈ s, p a = false → (g a).countP r = 0) :
    ((s.filter p).flatMap f).countP q = (s.flatMap g).countP r := by
  induction s with
  | nil => rfl
  | cons a s ih =>
    rw [List.forall_mem_cons] at hcount hnone
    have ihs := ih hcount.2 hnone.2
    rw [List.flatMap_cons, List.countP_append, ← ihs]
    cases ha : p a with
    | true =>
      rw [List.filter_cons_of_pos ha, List.flatMap_cons, List.countP_append, hcount.1]
    | false =>
      rw [List.filter_cons_of_neg (by simp [ha]), hnone.1 ha, Nat.zero_add]

/-- No character of a line without marks is in the range. -/
theorem not_mem_range_of_not_underlined {source : String} {start stop : Nat}
    {before later : List Line} {first l : Line} (h : Splits source start before first later)
    (hl : l ∈ lines source) (hmarks : ¬ l.Underlined first stop) {o : Nat} (ho : o ∈ l.offsets) :
    ¬ (start ≤ o ∧ o < stop) := by
  have hlower := le_of_mem_offsetsFrom ho
  have hupper := lt_of_mem_offsetsFrom ho
  rw [h.lines_eq, List.mem_append, List.mem_cons] at hl
  obtain hl | rfl | hl := hl
  · have hstop := h.stop_le l hl
    simp only [Line.stop] at hstop
    omega
  · exact absurd (.inl rfl) hmarks
  · have hstart : ¬ l.start < stop := fun hstart => hmarks (.inr ⟨h.lt_number_later hl, hstart⟩)
    omega

/-- The rows of marks have as many carets as there are characters in the range. -/
theorem count_carets {source : String} {start stop : Nat} {before later : List Line} {first : Line}
    (h : Splits source start before first later) :
    (((shownLines source stop first).filter (·.Underlined first stop)).flatMap fun l =>
      (l.underline start stop).toList).count '^' =
        (textOffsets 0 source.toList).countP fun o => start ≤ o ∧ o < stop := by
  have hshown : (shownLines source stop first).filter (·.Underlined first stop) =
      (lines source).filter (·.Underlined first stop) := by
    rw [shownLines, List.filter_filter]
    refine List.filter_congr fun l hl => ?_
    have := fun hmarks : l.Underlined first stop => hmarks.shown hl
    simpa using this
  rw [hshown, (laid_lines source).textOffsets_eq]
  refine countP_flatMap_filter (fun l _ => count_underline start stop l) fun l hl hmarks => ?_
  rw [List.countP_eq_zero]
  intro o ho
  simpa using not_mem_range_of_not_underlined h hl (of_decide_eq_false hmarks) ho

/-! ### Alignment -/

/-- The column of its row in which the text of a line begins. -/
def Line.margin (l : Line) : Nat := l.row.length - l.text.length

/-- The carets under a line stand below its characters in the range. -/
def Line.Aligned (start stop : Nat) (l : Line) : Prop :=
  ∀ column, (l.underline start stop).toList[column]? = some '^' ↔
    ∃ k o, column = l.margin + k ∧ l.offsets[k]? = some o ∧ start ≤ o ∧ o < stop

theorem margin_eq (l : Line) : l.margin = max 3 (Nat.toDigits 10 l.number).length + 3 := by
  rw [Line.margin, ← String.length_toList, toList_row]
  simp
  omega

/-- Numbers of more than three digits move the text of a line to the right. -/
theorem margin_eq_six_iff (l : Line) : l.margin = 6 ↔ l.number < 1000 := by
  have hdigits : (Nat.toDigits 10 l.number).length ≤ 3 ↔ l.number < 10 ^ 3 :=
    Nat.length_toDigits_le_iff (by decide) (by decide)
  rw [margin_eq]
  omega

/-- Under a line the characters are six columns in. -/
theorem getElem?_underline (start stop : Nat) (l : Line) (column : Nat) :
    (l.underline start stop).toList[column]? = some '^' ↔
      ∃ k o, column = 6 + k ∧ l.offsets[k]? = some o ∧ start ≤ o ∧ o < stop := by
  rw [toList_underline]
  by_cases hgutter : column < 6
  · rw [List.getElem?_append_left hgutter]
    refine iff_of_false (fun hcaret => ?_) (by rintro ⟨k, o, rfl, -⟩; omega)
    exact absurd (List.mem_of_getElem? hcaret) (by decide)
  · obtain ⟨k, rfl⟩ := Nat.exists_eq_add_of_le (Nat.le_of_not_lt hgutter)
    rw [List.getElem?_append_right (Nat.le_of_not_lt hgutter)]
    simpa using getElem?_marks start stop l k

theorem aligned_iff (start stop : Nat) (l : Line) :
    l.Aligned start stop ↔ l.number < 1000 ∨ ∀ o ∈ l.offsets, ¬ (start ≤ o ∧ o < stop) := by
  unfold Line.Aligned
  simp only [getElem?_underline]
  constructor
  · intro haligned
    by_contra hwide
    rw [not_or, ← margin_eq_six_iff] at hwide
    -- the character under which the first caret is drawn stands further right
    have hnone : ∀ k o : Nat, l.offsets[k]? = some o → ¬ (start ≤ o ∧ o < stop) := by
      intro k
      induction k using Nat.strongRecOn with
      | _ k ih =>
        intro o ho hrange
        obtain ⟨j, p, hcolumn, hp, hinside⟩ := (haligned (6 + k)).1 ⟨k, o, rfl, ho, hrange⟩
        have hmargin := margin_eq l
        exact ih j (by omega) p hp hinside
    refine hwide.2 fun o ho => ?_
    obtain ⟨k, hk⟩ := List.mem_iff_getElem?.1 ho
    exact hnone k o hk
  · rintro (hnumber | hnone) column
    · rw [(margin_eq_six_iff l).2 hnumber]
    · refine iff_of_false ?_ ?_ <;> rintro ⟨k, o, -, ho, hrange⟩ <;>
        exact hnone o (List.mem_of_getElem? ho) hrange

/-- The first line of the range gives a frame two rows at least. -/
theorem frame_ne_empty {source : String} {start stop : Nat} (hle : start ≤ stop)
    {before later : List Line} {first : Line} (h : Splits source start before first later) :
    frame source start stop ≠ "" := by
  intro hempty
  have hlength := congrArg List.length (splitOn_frame hle h)
  rw [hempty, h.shownLines_eq] at hlength
  simp [Line.rows, Line.Underlined] at hlength
  omega

/-- A frame for a range of a source. With `first` the line on which the range begins, it shows the
lines from two before `first` to two behind it, or to the last one that begins before the end of the
range. A row of marks stands under `first` and under each later line that begins before that end.
Six columns in, its carets are those of the characters of the line in the range, and together they
are as many as the characters of the source in the range that are no part of a line end. They stand
below these characters, if there are any, exactly where the number of the line has three digits at
most. -/
theorem frame_underlines_range_iff {source : String} {start stop : Nat} (hle : start ≤ stop)
    (hstop : stop ≤ extent source.toList) :
    Laid 1 0 source.toList (lines source) ∧ frame source start stop ≠ "" ∧
    ∃ first ∈ lines source, first.start ≤ start ∧ start < first.stop ∧
      (frame source start stop).toList.splitOn '\n' =
        ((shownLines source stop first).flatMap fun l => l.rows first start stop).map
          String.toList ∧
      (∀ l ∈ lines source, l.Underlined first stop →
        l ∈ shownLines source stop first ∧
        (∀ column, (l.underline start stop).toList[column]? = some '^' ↔
          ∃ k o, column = 6 + k ∧ l.offsets[k]? = some o ∧ start ≤ o ∧ o < stop) ∧
        (l.Aligned start stop ↔
          l.number < 1000 ∨ ∀ o ∈ l.offsets, ¬ (start ≤ o ∧ o < stop))) ∧
      (((shownLines source stop first).filter (·.Underlined first stop)).flatMap fun l =>
        (l.underline start stop).toList).count '^' =
          (textOffsets 0 source.toList).countP fun o => start ≤ o ∧ o < stop := by
  obtain ⟨before, first, later, h⟩ := exists_splits (Nat.le_trans hle hstop)
  refine ⟨laid_lines source, frame_ne_empty hle h, first, h.mem_first, h.start_le, h.lt_stop,
    splitOn_frame hle h, fun l hl hmarks => ⟨?_, ?_, ?_⟩, count_carets h⟩
  · exact List.mem_filter.2 ⟨hl, decide_eq_true (hmarks.shown hl)⟩
  · exact getElem?_underline start stop l
  · exact aligned_iff start stop l

theorem frame_underlines_range_sample :
    let source := "ab\r\ncé\n\nd"
    1 ≤ 6 ∧ 6 ≤ extent source.toList ∧
    ∃ first ∈ lines source, first.start ≤ 1 ∧ 1 < first.stop ∧
      (((shownLines source 6 first).filter (·.Underlined first 6)).flatMap fun l =>
        (l.underline 1 6).toList).count '^' = 3 := by
  intro source
  have hsize : 6 ≤ extent source.toList := by decide +kernel
  obtain ⟨-, -, first, hfirst, hstart, hstop, -, -, hcarets⟩ :=
    frame_underlines_range_iff (by decide : 1 ≤ 6) hsize
  have hcount : ((textOffsets 0 source.toList).countP fun o => 1 ≤ o ∧ o < 6) = 3 := by
    decide +kernel
  exact ⟨by decide, hsize, first, hfirst, hstart, hstop, hcarets.trans hcount⟩

/-! ### A source of a thousand lines -/

/-- A text with 999 empty lines before its last one. -/
def longText : String := String.ofList (List.replicate 999 '\n' ++ ['a', 'b'])

theorem toList_longText : longText.toList = List.replicate 999 '\n' ++ ['a', 'b'] :=
  String.toList_ofList

theorem splits_longText :
    Splits longText 999 ((lines longText).take 999) ⟨1000, 999, ['a', 'b'], 1⟩ [] := by
  unfold lines
  rw [toList_longText]
  refine ⟨?_, by decide +kernel, by decide, by decide⟩
  unfold lines
  rw [toList_longText]
  decide +kernel

/-- The caret for the `a`, which is the eighth character of its row, is the seventh of the next. -/
theorem caret_beside_character :
    ∃ first ∈ lines longText, first.offsets[0]? = some 999 ∧ first.Underlined first 1000 ∧
      ¬ first.Aligned 999 1000 ∧
      frame longText 999 1000 = "998|  \n999|  \n1000|  ab\n   |  ^" := by
  have hshown : shownLines longText 1000 ⟨1000, 999, ['a', 'b'], 1⟩ =
      [⟨998, 997, [], 1⟩, ⟨999, 998, [], 1⟩, ⟨1000, 999, ['a', 'b'], 1⟩] := by
    rw [splits_longText.shownLines_eq]
    unfold lines
    rw [toList_longText]
    decide +kernel
  refine ⟨_, splits_longText.mem_first, rfl, .inl rfl, ?_, ?_⟩
  · rw [aligned_iff]
    decide
  · rw [frame_eq (by decide) splits_longText, hshown]
    decide +kernel

end HtmlTemplate.CodeFrame
