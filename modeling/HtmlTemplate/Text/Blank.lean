/-!
# Blank characters

The characters with the White_Space property, and the removal of a run of them from either end
of a text. Everything that trims or skips blanks uses this class, unless it says ASCII.
-/

namespace HtmlTemplate.Text

/-- The White_Space property: 25 characters. -/
def isBlank (c : Char) : Bool :=
  (9 ≤ c.toNat && c.toNat ≤ 13) || c == ' ' || c == '\u0085' || c == '\u00a0' || c == '\u1680' ||
    (0x2000 ≤ c.toNat && c.toNat ≤ 0x200a) || c == '\u2028' || c == '\u2029' || c == '\u202f' ||
    c == '\u205f' || c == '\u3000'

/-- The blanks of ASCII that end the name in an end tag of raw text; the vertical tab is not one. -/
def isAsciiBlank (c : Char) : Bool :=
  c == ' ' || c == '\t' || c == '\n' || c == '\x0c' || c == '\r'

/-- The run of blanks that a text begins with. -/
def leadingBlanks (s : List Char) : List Char := s.takeWhile isBlank

def dropBlanks (s : List Char) : List Char := s.dropWhile isBlank

def dropBlanksEnd (s : List Char) : List Char := (s.reverse.dropWhile isBlank).reverse

/-- A text without the blanks at its two ends. -/
def trimChars (s : List Char) : List Char := dropBlanksEnd (dropBlanks s)

def trim (s : String) : String := String.ofList (trimChars s.toList)

/-- Whether a text has no character that is not blank. -/
def allBlank (s : String) : Bool := s.toList.all isBlank

theorem leadingBlanks_append_dropBlanks (s : List Char) : leadingBlanks s ++ dropBlanks s = s :=
  List.takeWhile_append_dropWhile

theorem length_dropBlanks_le (s : List Char) : (dropBlanks s).length ≤ s.length :=
  (List.dropWhile_sublist isBlank).length_le

/-- A text stands between the blanks at its two ends. -/
theorem exists_append_trimChars (s : List Char) :
    ∃ trailing, s = leadingBlanks s ++ trimChars s ++ trailing ∧ trailing.all isBlank = true := by
  have hstart := leadingBlanks_append_dropBlanks s
  have hend := List.takeWhile_append_dropWhile (p := isBlank) (l := (dropBlanks s).reverse)
  refine ⟨((dropBlanks s).reverse.takeWhile isBlank).reverse, ?_, ?_⟩
  · rw [trimChars, dropBlanksEnd, List.append_assoc, ← List.reverse_append, hend,
      List.reverse_reverse, hstart]
  · rw [List.all_reverse]
    exact List.all_takeWhile

theorem exists_append_trim (s : String) :
    ∃ trailing, s.toList = leadingBlanks s.toList ++ (trim s).toList ++ trailing := by
  obtain ⟨trailing, htrailing, -⟩ := exists_append_trimChars s.toList
  exact ⟨trailing, by rw [trim, String.toList_ofList]; exact htrailing⟩

end HtmlTemplate.Text
