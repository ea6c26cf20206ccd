import HtmlTemplate.Markup.Escape
import HtmlTemplate.Markup.Reference
import HtmlTemplate.Proofs.Names

/-!
# Decoding undoes encoding

Written text holds none of the characters that begin or end markup (`not_mem_encoded`), and both
readers of references read every reference that is written (`KnowsEncoded`). So decoding gives the
text back (`decodeFrom_encoded`), whatever other references the reader knows.
-/

namespace HtmlTemplate.Markup

/-- Written text without the characters that it stands for. -/
def encoded (s : List Char) : List Char := s.flatMap encodedChar

@[simp] theorem encoded_nil : encoded [] = [] := rfl

@[simp] theorem encoded_cons (c : Char) (s : List Char) :
    encoded (c :: s) = encodedChar c ++ encoded s :=
  rfl

@[simp] theorem encoded_append (s t : List Char) : encoded (s ++ t) = encoded s ++ encoded t :=
  List.flatMap_append

@[simp] theorem toList_encodeText (s : String) : (encodeText s).toList = encoded s.toList :=
  String.toList_ofList

/-- A character is written as a reference or as itself. -/
theorem encodedChar_cases (c : Char) :
    (∃ name, encodedChar c = '&' :: name ∧ ∀ d ∈ name, d ≠ '<' ∧ d ≠ '>' ∧ d ≠ '"' ∧ d ≠ '\n') ∨
      (encodedChar c = [c] ∧ c ≠ '&' ∧ c ≠ '<' ∧ c ≠ '>' ∧ c ≠ '"') := by
  unfold encodedChar
  split
  · exact .inl ⟨_, rfl, by simp⟩
  split
  · exact .inl ⟨_, rfl, by simp⟩
  split
  · exact .inl ⟨_, rfl, by simp⟩
  split
  · exact .inl ⟨_, rfl, by simp⟩
  split
  · exact .inl ⟨_, rfl, by simp⟩
  · exact .inr ⟨rfl, by simp_all⟩

theorem encodedChar_ne_nil (c : Char) : encodedChar c ≠ [] := by
  obtain ⟨name, h, -⟩ | ⟨h, -⟩ := encodedChar_cases c <;> simp [h]

@[simp] theorem encoded_eq_nil_iff {s : List Char} : encoded s = [] ↔ s = [] := by
  cases s <;> simp [encodedChar_ne_nil]

/-- Nothing in written text begins or ends markup or a value. -/
theorem not_mem_encoded {c : Char} (hc : c = '<' ∨ c = '>' ∨ c = '"') (s : List Char) :
    c ∉ encoded s := by
  intro h
  obtain ⟨d, -, hd⟩ := List.mem_flatMap.1 h
  obtain ⟨name, hname, hnone⟩ | ⟨hself, -, hlt, hgt, hquote⟩ := encodedChar_cases d
  · rw [hname, List.mem_cons] at hd
    rcases hd with rfl | hd
    · simp at hc
    · have := hnone c hd
      rcases hc with rfl | rfl | rfl <;> simp at this
  · rw [hself, List.mem_singleton] at hd
    subst hd
    rcases hc with rfl | rfl | rfl <;> contradiction

/-- The reader reads each reference that text is written with. -/
def KnowsEncoded (read : ReferenceReader) : Prop :=
  ∀ c name, encodedChar c = '&' :: name → ∀ rest, read (name ++ rest) = some (c, name.length)

theorem knowsEncoded_of_forall {read : ReferenceReader}
    (h : ∀ c ∈ ['&', '<', '>', '"', '\''], ∀ rest,
      read ((encodedChar c).tail ++ rest) = some (c, (encodedChar c).tail.length)) :
    KnowsEncoded read := by
  intro c name hname rest
  have hmem : c ∈ ['&', '<', '>', '"', '\''] := by
    by_contra hc
    simp only [List.mem_cons, List.not_mem_nil, or_false, not_or] at hc
    simp only [encodedChar, beq_iff_eq, hc, if_false] at hname
    exact hc.1 (List.cons.inj hname).1
  have hread := h c hmem rest
  rwa [hname] at hread

theorem knowsEncoded_attribute (lineFeeds : Bool) :
    KnowsEncoded (readAttributeReference lineFeeds) := by
  apply knowsEncoded_of_forall
  simp only [List.forall_mem_cons]
  exact ⟨fun _ => rfl, fun _ => rfl, fun _ => rfl, fun _ => rfl, fun _ => rfl, by simp⟩

theorem knowsEncoded_text : KnowsEncoded readTextReference := by
  apply knowsEncoded_of_forall
  simp only [List.forall_mem_cons]
  exact ⟨fun _ => rfl, fun _ => rfl, fun _ => rfl, fun _ => rfl, fun _ => rfl, by simp⟩

theorem decodeFrom_encoded {read : ReferenceReader} (hread : KnowsEncoded read) (done s : List Char) :
    decodeFrom read done (encoded s) = done.reverse ++ s := by
  induction s generalizing done with
  | nil => simp [decodeFrom]
  | cons c s ih =>
    rw [encoded_cons]
    obtain ⟨name, hname, -⟩ | ⟨hself, hc, -⟩ := encodedChar_cases c
    · rw [hname, List.cons_append, decodeFrom, if_pos (by decide), hread c name hname]
      simp [ih]
    · rw [hself, List.singleton_append, decodeFrom, if_neg (by simpa using hc), ih]
      simp

theorem decodeValue_encoded (lineFeeds : Bool) (s : List Char) :
    decodeValue lineFeeds (encoded s) = s :=
  decodeFrom_encoded (knowsEncoded_attribute lineFeeds) [] s

theorem decodeContent_encodeText (s : String) : decodeContent (encodeText s) = s := by
  rw [decodeContent, toList_encodeText, decodeFrom_encoded knowsEncoded_text]
  exact String.ofList_toList

end HtmlTemplate.Markup
