import HtmlTemplate.Markup.RawText
import HtmlTemplate.Proofs.Scan.Attributes

/-!
# Comments and declarations by offsets

The marks of comments and of declarations are of ASCII, so that a mark that is found among the bytes
is found between characters (`firstMark?_bytes`). The keyword of a document type is compared byte by
byte without regard to case before the text is known to be cut behind it.
-/

namespace HtmlTemplate.Markup.Scan

open Text

/-! ### Comments -/

/-- The ends of the text of a comment, and the length of the comment. -/
structure CommentOffsets where
  start : Nat
  stop : Nat
  length : Nat
  deriving DecidableEq, Repr

/-- `<!-- text -->`. The search for the end mark begins with the dashes of the opening. -/
def comment? (s : List Char) : Checked (Option CommentOffsets) :=
  if ['<', '!', '-', '-'].isPrefixOf s then do
    match firstMark? ['-', '-', '>'] (← bytesFrom (bytes s) 2) with
    | none => return none
    | some n =>
      let close := 2 + n
      return some ⟨4, max close 4, close + 3⟩
  else .ok none

theorem readComment?_opening (rest : List Char) :
    readComment? (['<', '!', '-', '-'] ++ rest) =
      (cut? ['-', '-', '>'] ('-' :: '-' :: rest)).map fun parts =>
        ⟨parts.1.drop 2, '<' :: '!' :: parts.1 ++ ['-', '-', '>'], parts.2⟩ := by
  simp only [readComment?, List.cons_append, List.nil_append]
  rw [if_pos (by simp)]
  cases cut? ['-', '-', '>'] ('-' :: '-' :: rest) <;> rfl

theorem readComment?_of_not_opening {s : List Char}
    (h : ['<', '!', '-', '-'].isPrefixOf s ≠ true) : readComment? s = none := by
  unfold readComment?
  split
  · next body =>
    rw [if_neg]
    intro hbody
    exact h (by simpa using hbody)
  · rfl

/-- The text of a comment stands behind the opening. It is empty if the end mark takes dashes of
the opening. -/
theorem slice_commentText {before after rest : List Char}
    (happend : before ++ ['-', '-', '>'] ++ after = '-' :: '-' :: rest) :
    slice (['<', '!', '-', '-'] ++ rest) 4 (max (2 + extent before) 4) = .ok (before.drop 2) := by
  match before with
  | [] => exact slice_eq (t := ['<', '!', '-', '-']) rfl rfl rfl
  | [c] =>
    obtain ⟨rfl, -⟩ := List.cons.inj happend
    exact slice_eq (t := ['<', '!', '-', '-']) rfl rfl rfl
  | c :: d :: text =>
    obtain ⟨rfl, hrest⟩ := List.cons.inj happend
    obtain ⟨rfl, hrest⟩ := List.cons.inj hrest
    have hopen : extent ['<', '!', '-', '-'] = 4 := rfl
    have htext : extent ('-' :: '-' :: text) = extent text + 2 := by
      rw [extent_cons_of_ascii (by decide), extent_cons_of_ascii (by decide)]
    have hstop : 4 + extent text = max (2 + extent ('-' :: '-' :: text)) 4 := by
      rw [htext]
      omega
    exact slice_eq (v := ['-', '-', '>'] ++ after) (by simp [← hrest]) hopen hstop

theorem finds_comment? (s : List Char) :
    Finds (fun m t => slice s m.start m.stop = .ok t.found ∧ m.length = extent t.source)
      (comment? s) (readComment? s) := by
  unfold comment?
  by_cases hopening : ['<', '!', '-', '-'].isPrefixOf s = true
  · obtain ⟨rest, rfl⟩ := List.isPrefixOf_iff_prefix.1 hopening
    have hbody : bytesFrom (bytes (['<', '!', '-', '-'] ++ rest)) 2 =
        .ok (bytes ('-' :: '-' :: rest)) :=
      bytesFrom_eq (t := ['<', '!']) rfl rfl
    rw [if_pos hopening, hbody, ok_bind, firstMark?_bytes (by decide), readComment?_opening]
    cases hcut : cut? ['-', '-', '>'] ('-' :: '-' :: rest) with
    | none => rfl
    | some parts =>
      refine ⟨_, rfl, slice_commentText (cut?_append hcut), ?_⟩
      simp (disch := decide) only [extent_append, extent_cons_of_ascii, extent_nil]
      omega
  · rw [if_neg hopening, readComment?_of_not_opening hopening]
    rfl

/-! ### Conditional comments and document types -/

/-- The length of `<![ condition ]>`. -/
def conditionalComment? (s : List Char) : Option Nat :=
  if ['<', '!', '['].isPrefixOf s then (firstMark? [']', '>'] (bytes s)).map (· + 2) else none

theorem conditionalComment?_eq (s : List Char) :
    conditionalComment? s = (readConditionalComment? s).map fun t => extent t.source := by
  unfold conditionalComment? readConditionalComment?
  split
  · next hopening =>
    obtain ⟨body, rfl⟩ := List.isPrefixOf_iff_prefix.1 hopening
    have hcut : cut? [']', '>'] (['<', '!', '['] ++ body) =
        (cut? [']', '>'] body).map fun parts => ('<' :: '!' :: '[' :: parts.1, parts.2) := by
      simp only [List.cons_append, List.nil_append]
      rw [cut?_cons, if_neg (by simp), cut?_cons, if_neg (by simp), cut?_cons, if_neg (by simp),
        Option.map_map, Option.map_map]
      rfl
    rw [firstMark?_bytes (by decide), hcut]
    simp only [List.cons_append, List.nil_append]
    cases cut? [']', '>'] body with
    | none => rfl
    | some parts =>
      exact congrArg some (extent_append ('<' :: '!' :: '[' :: parts.1) [']', '>']).symm
  · next hopening =>
    split
    · simp at hopening
    · rfl

/-- The length of a document type declaration. -/
def doctype? (s : List Char) : Checked (Option Nat) := do
  if (bytes s).length < 11 then return none
  else if !eqIgnoringByteCase (← bytesBetween (bytes s) 0 9) (bytes doctypeKeyword) then
    return none
  else if (← byteAt (bytes s) 9) ≠ ' '.toUInt8 then return none
  else
    match firstByte? '>'.toUInt8 (← bytesFrom (bytes s) 10) with
    | none => return none
    | some gt => return if 0 < gt then some (10 + gt + 1) else none

theorem length_eq_of_eqIgnoringAsciiCase {s t : List Char} (h : eqIgnoringAsciiCase s t = true) :
    s.length = t.length := by
  rw [eqIgnoringAsciiCase, beq_iff_eq] at h
  simpa using congrArg List.length h

/-- A keyword, in any case of ASCII letters, is the beginning of a text of its length. -/
theorem eqIgnoringAsciiCase_take_iff {s : List Char} (name : List Char) :
    eqIgnoringAsciiCase (s.take name.length) name = true ↔
      ∃ written rest, s = written ++ rest ∧ eqIgnoringAsciiCase written name = true := by
  constructor
  · intro h
    exact ⟨_, _, (List.take_append_drop name.length s).symm, h⟩
  · rintro ⟨written, rest, rfl, h⟩
    rw [List.take_left' (length_eq_of_eqIgnoringAsciiCase h), h]

theorem readDoctype?_keyword_cons {keyword : List Char}
    (h : eqIgnoringAsciiCase keyword doctypeKeyword = true) (c : Char) (body : List Char) :
    readDoctype? (keyword ++ c :: body) =
      if c = ' ' then
        match body.takeWhile (· != '>'), body.dropWhile (· != '>') with
        | d :: inner, gt :: after => some ⟨(), keyword ++ ' ' :: d :: inner ++ [gt], after⟩
        | _, _ => none
      else none := by
  have hlength : keyword.length = 9 := length_eq_of_eqIgnoringAsciiCase h
  rw [readDoctype?, List.take_left' hlength, List.drop_left' hlength, if_pos h]
  split
  · next heq =>
    obtain ⟨rfl, rfl⟩ := List.cons.inj heq
    exact (if_pos rfl).symm
  · next hother =>
    rw [if_neg]
    rintro rfl
    exact hother body rfl

/-- The end of a declaration is behind the first `>`, which must not come at once. -/
theorem firstByte?_close (body : List Char) :
    (firstByte? '>'.toUInt8 (bytes body)).bind (fun gt => if 0 < gt then some gt else none) =
      match body.takeWhile (· != '>'), body.dropWhile (· != '>') with
      | c :: inner, '>' :: _ => some (extent (c :: inner))
      | _, _ => none := by
  rw [firstByte?_bytes (by decide)]
  cases hdrop : body.dropWhile (· != '>') with
  | nil => cases body.takeWhile (· != '>') <;> rfl
  | cons gt after =>
    obtain rfl := eq_of_dropWhile_ne hdrop
    cases body.takeWhile (· != '>') with
    | nil => rfl
    | cons c inner => exact if_pos (extent_pos (by simp))

/-- Behind the keyword there is a blank and something up to a `>`. -/
theorem doctype?_keyword_cons {keyword : List Char}
    (h : eqIgnoringAsciiCase keyword doctypeKeyword = true) (c : Char) (body : List Char) :
    doctype? (keyword ++ c :: body) =
      .ok (if c = ' ' then
        ((firstByte? '>'.toUInt8 (bytes body)).bind fun gt => if 0 < gt then some gt else none).map
          (10 + · + 1)
      else none) := by
  have hnine : extent keyword = 9 := extent_eq_of_eqIgnoringAsciiCase h
  have hkeyword : bytesBetween (bytes (keyword ++ c :: body)) 0 9 = .ok (bytes keyword) :=
    bytesBetween_eq (t := []) rfl rfl (by rw [hnine]; rfl)
  obtain ⟨b, more, hbytes⟩ := exists_utf8EncodeChar c
  have hat : (bytes (keyword ++ c :: body))[9]? = some b := by
    rw [getElem?_bytes_eq rfl hnine, bytes_cons, hbytes]
    rfl
  have hblank : b = ' '.toUInt8 ↔ c = ' ' := by
    have := byte_eq_iff (a := ' ') (by decide) (u := c :: body) rfl hnine
    rw [hat] at this
    simpa using this
  rw [doctype?, length_bytes, extent_append, hnine]
  simp only [hkeyword, eqIgnoringByteCase_bytes, h, ok_bind, Bool.not_true, Bool.false_eq_true,
    if_false, byteAt_eq hat, ne_eq, hblank]
  by_cases hc : c = ' '
  · subst hc
    have hbody : bytesFrom (bytes (keyword ++ ' ' :: body)) 10 = .ok (bytes body) :=
      bytesFrom_eq (t := keyword ++ [' ']) (by simp) (by rw [extent_append, hnine]; rfl)
    cases body with
    | nil => rfl
    | cons d body =>
      have := d.utf8Size_pos
      have hlong : ¬ 9 + extent (' ' :: d :: body) < 11 := by
        rw [extent_cons_of_ascii (by decide), extent_cons]
        omega
      rw [if_neg hlong, hbody]
      cases hgt : firstByte? '>'.toUInt8 (bytes (d :: body)) with
      | none => simp [hgt]
      | some gt => by_cases hpos : 0 < gt <;> simp [hgt, hpos]
  · simp [hc]

theorem doctype?_append_keyword {keyword : List Char}
    (h : eqIgnoringAsciiCase keyword doctypeKeyword = true) (rest : List Char) :
    doctype? (keyword ++ rest) =
      .ok ((readDoctype? (keyword ++ rest)).map fun t => extent t.source) := by
  have hnine : extent keyword = 9 := extent_eq_of_eqIgnoringAsciiCase h
  cases rest with
  | nil =>
    have hlength : keyword.length = 9 := length_eq_of_eqIgnoringAsciiCase h
    have hread : readDoctype? keyword = none := by
      rw [readDoctype?, List.take_of_length_le (Nat.le_of_eq hlength),
        List.drop_of_length_le (Nat.le_of_eq hlength), if_pos h]
    rw [List.append_nil, hread, doctype?, length_bytes, hnine]
    rfl
  | cons c body =>
    rw [doctype?_keyword_cons h, readDoctype?_keyword_cons h, firstByte?_close]
    by_cases hc : c = ' '
    · rw [if_pos hc, if_pos hc]
      cases hdrop : body.dropWhile (· != '>') with
      | nil => cases body.takeWhile (· != '>') <;> rfl
      | cons gt after =>
        obtain rfl := eq_of_dropWhile_ne hdrop
        cases body.takeWhile (· != '>') with
        | nil => rfl
        | cons d inner =>
          have hsource : extent (keyword ++ ' ' :: d :: inner ++ ['>']) =
              10 + extent (d :: inner) + 1 := by
            rw [extent_append, extent_append, hnine, extent_cons_of_ascii (by decide)]
            simp (disch := decide) only [extent_cons_of_ascii, extent_nil]
            omega
          exact congrArg (fun n => Except.ok (some n)) hsource.symm
    · rw [if_neg hc, if_neg hc]
      rfl

theorem doctype?_eq (s : List Char) :
    doctype? s = .ok ((readDoctype? s).map fun t => extent t.source) := by
  by_cases hkeyword : eqIgnoringAsciiCase (s.take 9) doctypeKeyword = true
  · obtain ⟨keyword, rest, rfl, hsame⟩ :=
      (eqIgnoringAsciiCase_take_iff doctypeKeyword).1 hkeyword
    exact doctype?_append_keyword hsame rest
  · have hread : readDoctype? s = none := if_neg hkeyword
    rw [hread, doctype?]
    split
    · rfl
    · next hlength =>
      have hbytes : bytesBetween (bytes s) 0 9 = .ok ((bytes s).take 9) := by
        rw [bytesBetween, if_pos (by omega), List.drop_zero]
      have hother : eqIgnoringByteCase ((bytes s).take 9) (bytes doctypeKeyword) = false := by
        rw [Bool.eq_false_iff]
        intro h
        exact hkeyword ((eqIgnoringAsciiCase_take_iff doctypeKeyword).2
          ((eqIgnoringByteCase_take_iff doctypeKeyword).1 h))
      simp only [hbytes, ok_bind, hother, Bool.not_false, if_true]
      rfl

end HtmlTemplate.Markup.Scan
