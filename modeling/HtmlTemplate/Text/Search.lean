import HtmlTemplate.Text.Extent

/-!
# Finding a place in a text

`splitBefore p` cuts a text before the first place from which `p` holds of what remains. Finding
a mark, the end of a text run or the end tag of a raw-text element are all cuts of this kind. The
two parts always make up the whole text (`splitBefore_append`), the second part, unless it is
empty, satisfies `p` (`splitBefore_holds`), and a mark that was found stands between the two parts
of the cut (`cut?_append`).
-/

namespace HtmlTemplate.Text

/-- Walks to the first place where `p` holds, keeping what was passed in reverse. `p` is told the
byte position of the place and the text from there on. -/
def splitBeforeFrom (p : Nat → List Char → Bool) (passed : List Char) (position : Nat) :
    List Char → List Char × List Char
  | [] => (passed.reverse, [])
  | c :: rest =>
    if p position (c :: rest) then (passed.reverse, c :: rest)
    else splitBeforeFrom p (c :: passed) (position + c.utf8Size) rest

/-- Cuts a text that begins at byte `position` before the first place where `p` holds. -/
def splitBefore (p : Nat → List Char → Bool) (position : Nat) (s : List Char) :
    List Char × List Char :=
  splitBeforeFrom p [] position s

/-- Cuts a text at the first occurrence of a nonempty mark: what is before it and after it. -/
def cut? (mark s : List Char) : Option (List Char × List Char) :=
  match splitBefore (fun _ rest => mark.isPrefixOf rest) 0 s with
  | (_, []) => none
  | (before, c :: rest) => some (before, (c :: rest).drop mark.length)

theorem splitBeforeFrom_append (p : Nat → List Char → Bool) (passed : List Char) (position : Nat)
    (s : List Char) :
    (splitBeforeFrom p passed position s).1 ++ (splitBeforeFrom p passed position s).2 =
      passed.reverse ++ s := by
  induction s generalizing passed position with
  | nil => simp [splitBeforeFrom]
  | cons c rest ih =>
    unfold splitBeforeFrom
    split
    · rfl
    · simp [ih]

theorem splitBefore_append (p : Nat → List Char → Bool) (position : Nat) (s : List Char) :
    (splitBefore p position s).1 ++ (splitBefore p position s).2 = s := by
  simpa [splitBefore] using splitBeforeFrom_append p [] position s

theorem splitBeforeFrom_holds (p : Nat → List Char → Bool) (passed : List Char) (position : Nat)
    (s : List Char) (h : (splitBeforeFrom p passed position s).2 ≠ []) :
    ∃ n, p n (splitBeforeFrom p passed position s).2 = true := by
  induction s generalizing passed position with
  | nil => simp [splitBeforeFrom] at h
  | cons c rest ih =>
    unfold splitBeforeFrom at h ⊢
    split
    · next hp => exact ⟨position, hp⟩
    · next hp =>
      rw [if_neg hp] at h
      exact ih _ _ h

theorem splitBefore_holds (p : Nat → List Char → Bool) (position : Nat) (s : List Char)
    (h : (splitBefore p position s).2 ≠ []) : ∃ n, p n (splitBefore p position s).2 = true :=
  splitBeforeFrom_holds p [] position s h

theorem cut?_append {mark s before rest : List Char} (h : cut? mark s = some (before, rest)) :
    before ++ mark ++ rest = s := by
  have happ := splitBefore_append (fun _ rest => mark.isPrefixOf rest) 0 s
  have hholds := splitBefore_holds (fun _ rest => mark.isPrefixOf rest) 0 s
  unfold cut? at h
  split at h
  · simp at h
  · next b c r heq =>
    rw [heq] at happ hholds
    obtain ⟨_, hp⟩ := hholds (by simp)
    obtain ⟨t, ht⟩ := List.isPrefixOf_iff_prefix.1 hp
    obtain ⟨rfl, rfl⟩ := by simpa using h
    simp only at ht happ
    rw [← ht, List.drop_left, List.append_assoc, ht, happ]

theorem length_le_of_cut? {mark s before rest : List Char} (h : cut? mark s = some (before, rest)) :
    rest.length ≤ s.length := by
  rw [← cut?_append h]
  simp
  omega

theorem length_lt_of_cut? {mark s before rest : List Char} (hmark : mark ≠ [])
    (h : cut? mark s = some (before, rest)) : rest.length < s.length := by
  have := List.length_pos_iff.2 hmark
  rw [← cut?_append h]
  simp
  omega

end HtmlTemplate.Text
