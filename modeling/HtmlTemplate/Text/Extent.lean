/-!
# Extents of texts

Every position in a template is a count of bytes of its UTF-8 form. The extent of a run of
characters is the number of bytes it takes, so the position after a run is the position before
it plus its extent.
-/

namespace HtmlTemplate.Text

/-- Bytes that a run of characters takes in UTF-8. -/
def extent : List Char → Nat
  | [] => 0
  | c :: rest => c.utf8Size + extent rest

@[simp] theorem extent_nil : extent [] = 0 := rfl

@[simp] theorem extent_cons (c : Char) (s : List Char) :
    extent (c :: s) = c.utf8Size + extent s :=
  rfl

@[simp] theorem extent_append (s t : List Char) : extent (s ++ t) = extent s + extent t := by
  induction s with
  | nil => simp
  | cons c s ih => rw [List.cons_append, extent_cons, extent_cons, ih, Nat.add_assoc]

theorem length_le_extent (s : List Char) : s.length ≤ extent s := by
  induction s with
  | nil => simp
  | cons c s ih =>
    have := c.utf8Size_pos
    simp
    omega

theorem extent_ofList (s : List Char) : extent s = (String.ofList s).utf8ByteSize := by
  induction s with
  | nil => simp
  | cons c s ih =>
    have hone : (String.ofList [c]).utf8ByteSize = c.utf8Size := by
      rw [← String.singleton_eq_ofList, String.utf8ByteSize_singleton]
    rw [extent_cons, ih, ← hone, ← String.utf8ByteSize_append, ← String.ofList_append,
      List.singleton_append]

theorem extent_toList (s : String) : extent s.toList = s.utf8ByteSize := by
  rw [extent_ofList, String.ofList_toList]

theorem eq_nil_of_extent_eq_zero {s : List Char} (h : extent s = 0) : s = [] := by
  have hlength := length_le_extent s
  exact List.eq_nil_of_length_eq_zero (by omega)

/-- Where a text is cut is settled by the number of bytes before the cut. -/
theorem append_inj_of_extent_eq {s t s' t' : List Char} (h : s ++ t = s' ++ t')
    (hextent : extent s = extent s') : s = s' ∧ t = t' := by
  obtain ⟨more, rfl, rfl⟩ | ⟨more, rfl, rfl⟩ := List.append_eq_append_iff.1 h
  · obtain rfl : more = [] := eq_nil_of_extent_eq_zero (by simpa using hextent.symm)
    simp
  · obtain rfl : more = [] := eq_nil_of_extent_eq_zero (by simpa using hextent)
    simp

end HtmlTemplate.Text
