import HtmlTemplate.Markup.Construct
import HtmlTemplate.Markup.Vocabulary

/-!
# Raw text

The content of a raw-text element runs to its own end tag, which is looked for without regard to
the case of ASCII letters and must be followed by `>`, `/` or a blank of ASCII. Content that is
not opaque loses the wrappers of comments and character data, but not what they wrap.
-/

namespace HtmlTemplate.Markup

open Text

/-- The name at the beginning of a text, in any case of ASCII letters, and what follows it. -/
def stripNameIgnoringCase? : List Char → List Char → Option (List Char × List Char)
  | [], rest => some ([], rest)
  | _ :: _, [] => none
  | n :: name, c :: rest =>
    if n.toLower == c.toLower then
      match stripNameIgnoringCase? name rest with
      | some (written, after) => some (c :: written, after)
      | none => none
    else none

/-- The opening `</name` of the end tag that closes a raw-text element. -/
def readRawCloseOpening? (name : List Char) : List Char → Option (List Char × List Char)
  | '<' :: '/' :: s =>
    match stripNameIgnoringCase? name s with
    | some (written, c :: rest) =>
      if c == '>' || c == '/' || isAsciiBlank c then some ('<' :: '/' :: written, c :: rest)
      else none
    | _ => none
  | _ => none

/-- The content of a raw-text element and its end tag, if it has one. -/
structure RawExtent where
  content : List Char
  endTag : List Char
  rest : List Char

/-- Cuts a text before the end tag of the element `name` and after it. Without an end tag that a
`>` closes, all of the text is content. -/
def readRawExtent (name s : List Char) : RawExtent :=
  let (content, closing) := splitBefore (fun _ s => (readRawCloseOpening? name s).isSome) 0 s
  match readRawCloseOpening? name closing with
  | none => ⟨s, [], []⟩
  | some (opening, after) =>
    match after.dropWhile (· != '>') with
    | [] => ⟨s, [], []⟩
    | gt :: rest => ⟨content, opening ++ after.takeWhile (· != '>') ++ [gt], rest⟩

/-- Removes every pair of an opening mark and the next closing mark, and keeps what stands between
them. An opening mark that nothing closes ends the search. -/
def unwrapFrom (opening closing : List Char) (nonempty : opening ≠ []) (done s : List Char) :
    List Char :=
  match h : cut? opening s with
  | none => done.reverse ++ s
  | some (before, inner) =>
    match h' : cut? closing inner with
    | none => done.reverse ++ s
    | some (kept, rest) =>
      have := length_lt_of_cut? nonempty h
      have := length_le_of_cut? h'
      unwrapFrom opening closing nonempty (kept.reverse ++ (before.reverse ++ done)) rest
termination_by s.length

def unwrapComments (s : List Char) : List Char :=
  unwrapFrom ['<', '!', '-', '-'] ['-', '-', '>'] (by simp) [] s

def unwrapCharacterData (s : List Char) : List Char :=
  unwrapFrom ['<', '!', '[', 'C', 'D', 'A', 'T', 'A', '['] [']', ']', '>'] (by simp) [] s

/-- The text of a raw-text element with the given content; the name is in small letters. -/
def rawTextOf (name : String) (content : List Char) : List Char :=
  let text :=
    if keepsWrappers name then content else unwrapCharacterData (unwrapComments content)
  match dropsFirstLineFeed name, text with
  | true, '\n' :: rest => rest
  | _, _ => text

theorem stripNameIgnoringCase?_append {name s written rest : List Char}
    (h : stripNameIgnoringCase? name s = some (written, rest)) : written ++ rest = s := by
  fun_induction stripNameIgnoringCase? name s generalizing written rest with
  | case1 => simp_all
  | case2 => simp at h
  | case3 n name c r hc w after hw ih =>
    obtain ⟨rfl, rfl⟩ := by simpa using h
    simp [ih hw]
  | case4 => simp at h
  | case5 => simp at h

theorem readRawCloseOpening?_append {name s opening rest : List Char}
    (h : readRawCloseOpening? name s = some (opening, rest)) : opening ++ rest = s := by
  unfold readRawCloseOpening? at h
  split at h
  · split at h
    · next hs =>
      split at h
      · obtain ⟨rfl, rfl⟩ := by simpa using h
        simp [← stripNameIgnoringCase?_append hs]
      · simp at h
    · simp at h
  · simp at h

theorem readRawExtent_append (name s : List Char) :
    (readRawExtent name s).content ++ ((readRawExtent name s).endTag ++
      (readRawExtent name s).rest) = s := by
  have happ := splitBefore_append (fun _ s => (readRawCloseOpening? name s).isSome) 0 s
  unfold readRawExtent
  simp only
  split
  · simp
  · next opening after ho =>
    split
    · simp
    · next gt rest hr =>
      have h₁ := readRawCloseOpening?_append ho
      have h₂ := List.takeWhile_append_dropWhile (p := (· != '>')) (l := after)
      rw [hr] at h₂
      rw [← h₁, ← h₂] at happ
      simpa using happ

/-- Raw text without an end tag runs to the end. -/
theorem rest_readRawExtent_eq_nil {name s : List Char} (h : (readRawExtent name s).endTag = []) :
    (readRawExtent name s).rest = [] := by
  unfold readRawExtent at h ⊢
  simp only at h ⊢
  split
  · rfl
  · split
    · rfl
    · simp_all

end HtmlTemplate.Markup
