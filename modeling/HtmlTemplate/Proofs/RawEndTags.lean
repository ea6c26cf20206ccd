import HtmlTemplate.Proofs.RawElements
import HtmlTemplate.Proofs.Scan.Texts
import HtmlTemplate.Proofs.SmallLetters

/-!
# The end tag of a raw-text element

The content of a raw-text element ends at the first end tag of the element (`RawCut`). Two spellings
of its name are of interest there. An end tag belongs to the element if both names have the same
small letters (`SameSmallLetters`), but the search for the end of raw text takes only the names that
agree with the small letters of the element's name up to the case of ASCII letters
(`SameButAsciiCase`). So it cuts at the first end tag that belongs to the element exactly if it
passes over none (`rawElement_ends_at_first_iff`).
-/

namespace HtmlTemplate.Markup

open Text

/-! ### End tags of a name -/

/-- An end tag with a name that `spells` accepts: up to the first `>` behind the name, which a slash
or a blank parts from anything else there. -/
def IsEndTagOf (spells : List Char → Prop) (source : List Char) : Prop :=
  ∃ name rest, source = ['<', '/'] ++ name ++ rest ++ ['>'] ∧ spells name ∧ '>' ∉ rest ∧
    ∀ c ∈ rest.head?, c = '/' ∨ isAsciiBlank c = true

/-- No such end tag begins in a content that has the given text behind it. -/
def NoEndTagIn (spells : List Char → Prop) (content following : List Char) : Prop :=
  ∀ before c after endTag rest, content = before ++ c :: after →
    c :: after ++ following = endTag ++ rest → ¬ IsEndTagOf spells endTag

/-- A text that consists of the three parts is cut at its first end tag, or it has none. -/
structure RawCut (spells : List Char → Prop) (content endTag rest : List Char) : Prop where
  first : NoEndTagIn spells content (endTag ++ rest)
  closed : IsEndTagOf spells endTag ∨ endTag = [] ∧ rest = []

/-- The spelling agrees with the small letters of the name up to the case of ASCII letters. -/
def SameButAsciiCase (name : String) (written : List Char) : Prop :=
  eqIgnoringAsciiCase written (lowercase name).toList = true

/-- The spelling has the small letters of the name. -/
def SameSmallLetters (name : String) (written : List Char) : Prop :=
  lowercase (String.ofList written) = lowercase name

instance (name : String) (written : List Char) : Decidable (SameButAsciiCase name written) :=
  inferInstanceAs (Decidable (_ = true))

instance (name : String) (written : List Char) : Decidable (SameSmallLetters name written) :=
  inferInstanceAs (Decidable (_ = _))

theorem sameSmallLetters_of_sameButAsciiCase {name : String} {written : List Char}
    (h : SameButAsciiCase name written) : SameSmallLetters name written := by
  rw [SameSmallLetters, lowercase_of_eqIgnoringAsciiCase h, String.ofList_toList,
    lowercase_lowercase]

theorem IsEndTagOf.imp {spells spells' : List Char → Prop} (h : ∀ w, spells w → spells' w)
    {source : List Char} (hsource : IsEndTagOf spells source) : IsEndTagOf spells' source := by
  obtain ⟨name, rest, hwhole, hname, hrest⟩ := hsource
  exact ⟨name, rest, hwhole, h name hname, hrest⟩

theorem NoEndTagIn.imp {spells spells' : List Char → Prop} (h : ∀ w, spells w → spells' w)
    {content following : List Char} (hnone : NoEndTagIn spells' content following) :
    NoEndTagIn spells content following :=
  fun before c after endTag rest hcontent hbegins hend =>
    hnone before c after endTag rest hcontent hbegins (hend.imp h)

theorem IsEndTagOf.gt_mem {spells : List Char → Prop} {source : List Char}
    (h : IsEndTagOf spells source) : '>' ∈ source := by
  obtain ⟨name, rest, rfl, -⟩ := h
  simp

/-! ### Characters of names -/

/-- A character that may stand behind the name in an end tag. -/
def EndsName (c : Char) : Prop := c = '>' ∨ c = '/' ∨ isAsciiBlank c = true

/-- No part of a name ends it, and the case of letters does not matter to it. -/
theorem EndsName.facts {c : Char} (h : EndsName c) :
    (isNamePart c = false ∧ c ≠ ':') ∧ c.toNat < 97 ∧ c.toLower = c := by
  simp only [EndsName, isAsciiBlank, Bool.or_eq_true, beq_iff_eq] at h
  rcases h with rfl | rfl | (((rfl | rfl) | rfl) | rfl) | rfl <;> decide

/-- The name holds no character that ends it. -/
def IsUnended (name : List Char) : Prop := ∀ c ∈ name, ¬ EndsName c

theorem isUnended_of_isQualifiedName {name : List Char} (hname : isQualifiedName name = true) :
    IsUnended name := by
  intro c hc hends
  obtain ⟨⟨hpart, hcolon⟩, -⟩ := hends.facts
  obtain ⟨before, after, rfl⟩ := List.append_of_mem hc
  rw [isQualifiedName, beq_iff_eq, readName?_append_cons hpart hcolon] at hname
  obtain ⟨found, -, hfound⟩ := Option.map_eq_some_iff.1 hname
  simp at hfound

theorem IsUnended.lowercase {name : String} (h : IsUnended name.toList) :
    IsUnended (lowercase name).toList :=
  fun c hc hends => h c (mem_of_mem_lowercase hends.facts.2.1 hc) hends

theorem IsUnended.of_eqIgnoringAsciiCase {written name : List Char} (hname : IsUnended name)
    (h : eqIgnoringAsciiCase written name = true) : IsUnended written := by
  intro c hc hends
  obtain ⟨-, hsmall, hlower⟩ := hends.facts
  rw [eqIgnoringAsciiCase, beq_iff_eq] at h
  have hmem : c ∈ name.map Char.toLower := h ▸ List.mem_map.2 ⟨c, hc, hlower⟩
  obtain ⟨d, hd, rfl⟩ := List.mem_map.1 hmem
  obtain hsame | ⟨-, hletter, -⟩ := toLower_cases d
  · exact hname d hd (hsame ▸ hends)
  · omega

/-! ### The search for the end of raw text -/

/-- A text is cut where the predicate first holds. -/
theorem splitBefore_first (f : List Char → Bool) (position : Nat) (s before : List Char) (c : Char)
    (after : List Char) (h : (splitBefore (fun _ => f) position s).1 = before ++ c :: after) :
    f (c :: after ++ (splitBefore (fun _ => f) position s).2) = false := by
  induction s generalizing position before with
  | nil => simp [splitBefore, splitBeforeFrom] at h
  | cons d s ih =>
    have hwhole := splitBefore_append (fun _ => f) (position + d.utf8Size) s
    rw [splitBefore_cons] at h ⊢
    by_cases hd : f (d :: s) = true
    · simp [hd] at h
    · simp only [hd, if_false, Bool.false_eq_true] at h ⊢
      cases before with
      | nil =>
        obtain ⟨rfl, rfl⟩ := List.cons.inj h
        rw [List.cons_append, hwhole]
        simpa using hd
      | cons b before => exact ih _ _ (List.cons.inj h).2

/-- Where an end tag of the name begins, its opening is read. -/
theorem isSome_readRawCloseOpening?_of_isEndTagOf {name endTag : List Char}
    (h : IsEndTagOf (fun w => eqIgnoringAsciiCase w name = true) endTag) (rest : List Char) :
    (readRawCloseOpening? name (endTag ++ rest)).isSome = true := by
  obtain ⟨written, between, rfl, hwritten, -, hbetween⟩ := h
  have hopening := Scan.isSome_readRawCloseOpening? hwritten (between ++ '>' :: rest)
  have hwhole : ['<', '/'] ++ written ++ between ++ ['>'] ++ rest =
      '<' :: '/' :: written ++ (between ++ '>' :: rest) := by simp
  rw [hwhole, hopening]
  cases between with
  | nil => rfl
  | cons c between => simpa [or_assoc] using .inr (hbetween c rfl)

theorem noEndTagIn_of_isSome {name content following : List Char}
    (h : ∀ before c after, content = before ++ c :: after →
      (readRawCloseOpening? name (c :: after ++ following)).isSome = false) :
    NoEndTagIn (fun w => eqIgnoringAsciiCase w name = true) content following := by
  intro before c after endTag rest hcontent hbegins hend
  have hnone := h before c after hcontent
  rw [hbegins, isSome_readRawCloseOpening?_of_isEndTagOf hend rest] at hnone
  cases hnone

/-- Where no `>` follows, no end tag begins. -/
theorem NoEndTagIn.append {spells : List Char → Prop} {content closing : List Char}
    (h : NoEndTagIn spells content closing) (hgt : '>' ∉ closing) :
    NoEndTagIn spells (content ++ closing) [] := by
  intro before c after endTag rest hwhole hbegins hend
  rw [List.append_nil] at hbegins
  obtain ⟨more, -, hclosing⟩ | ⟨taken, hcontent, rfl⟩ := append_eq_append_cons_cases hwhole
  · exact hgt (by simp [hclosing, hbegins, hend.gt_mem])
  · exact h before c taken endTag rest hcontent (by rw [← hbegins, List.cons_append]) hend

/-- The search for the end of raw text cuts it at the first end tag of the name. -/
theorem rawCut_readRawExtent {name : List Char} (hname : IsUnended name) (s : List Char) :
    RawCut (fun w => eqIgnoringAsciiCase w name = true) (readRawExtent name s).content
      (readRawExtent name s).endTag (readRawExtent name s).rest := by
  have hwhole := splitBefore_append (fun _ s => (readRawCloseOpening? name s).isSome) 0 s
  have hfirst := noEndTagIn_of_isSome
    (splitBefore_first (fun s => (readRawCloseOpening? name s).isSome) 0 s)
  have hholds := splitBefore_holds (fun _ s => (readRawCloseOpening? name s).isSome) 0 s
  have hend : (readRawExtent name s).endTag ≠ [] → IsRawEndTag (readRawExtent name s).endTag name :=
    isRawEndTag_of_readRawExtent
  unfold readRawExtent at hend ⊢
  generalize splitBefore (fun _ s => (readRawCloseOpening? name s).isSome) 0 s = cut at *
  obtain ⟨content, closing⟩ := cut
  obtain rfl : content ++ closing = s := hwhole
  simp only at hfirst hholds hend ⊢
  cases hopening : readRawCloseOpening? name closing with
  | none =>
    have hclosing : closing = [] := by
      by_contra hne
      simp [hopening] at hholds
      exact hne hholds
    exact ⟨hfirst.append (by simp [hclosing]), .inr ⟨rfl, rfl⟩⟩
  | some found =>
    obtain ⟨opening, after⟩ := found
    obtain ⟨written, rfl, rfl, hwritten, -⟩ := Scan.readRawCloseOpening?_eq_some_iff.1 hopening
    simp only [hopening] at hend ⊢
    cases hdrop : after.dropWhile (· != '>') with
    | nil =>
      have hafter : '>' ∉ after := fun hmem => by
        simpa using List.dropWhile_eq_nil_iff.1 hdrop '>' hmem
      have hgt : '>' ∉ written := fun hmem =>
        hname.of_eqIgnoringAsciiCase hwritten '>' hmem (.inl rfl)
      exact ⟨hfirst.append (by simp [hafter, hgt]), .inr ⟨rfl, rfl⟩⟩
    | cons gt rest =>
      simp only [hdrop] at hend ⊢
      have hsplit : after = after.takeWhile (· != '>') ++ gt :: rest := by
        rw [← hdrop, List.takeWhile_append_dropWhile]
      refine ⟨?_, .inl (hend (by simp))⟩
      rw [hsplit] at hfirst
      simpa using hfirst

/-! ### The end tag of an element -/

theorem eq_of_append_cons {P : Char → Prop} {a b s t : List Char} {x y : Char}
    (h : a ++ x :: s = b ++ y :: t) (ha : ∀ c ∈ a, ¬ P c) (hx : P x) (hb : ∀ c ∈ b, ¬ P c)
    (hy : P y) : a = b := by
  induction a generalizing b with
  | nil =>
    cases b with
    | nil => rfl
    | cons d b =>
      obtain ⟨rfl, -⟩ := List.cons.inj h
      exact absurd hx (hb x (by simp))
  | cons c a ih =>
    cases b with
    | nil =>
      obtain ⟨rfl, -⟩ := List.cons.inj h
      exact absurd hy (ha c (by simp))
    | cons d b =>
      obtain ⟨rfl, hrest⟩ := List.cons.inj h
      rw [ih hrest (fun c hc => ha c (by simp [hc])) fun c hc => hb c (by simp [hc])]

/-- An end tag is one of a single name. -/
theorem IsEndTagOf.eq {spells spells' : List Char → Prop} {source : List Char}
    (h : IsEndTagOf spells source) (h' : IsEndTagOf spells' source)
    (hspells : ∀ w, spells w → IsUnended w) (hspells' : ∀ w, spells' w → IsUnended w) :
    ∃ w, spells w ∧ spells' w := by
  obtain ⟨w, rest, rfl, hw, -, hrest⟩ := h
  obtain ⟨w', rest', hwhole, hw', -, hrest'⟩ := h'
  have hbegins : ∀ rest : List Char, (∀ c ∈ rest.head?, c = '/' ∨ isAsciiBlank c = true) →
      ∃ c more, rest ++ ['>'] = c :: more ∧ EndsName c := by
    intro rest hrest
    cases rest with
    | nil => exact ⟨'>', [], rfl, .inl rfl⟩
    | cons c rest => exact ⟨c, _, rfl, .inr (hrest c rfl)⟩
  obtain ⟨c, more, hmore, hc⟩ := hbegins rest hrest
  obtain ⟨c', more', hmore', hc'⟩ := hbegins rest' hrest'
  have hsame : w ++ c :: more = w' ++ c' :: more' := by
    rw [← hmore, ← hmore']
    simpa using hwhole
  obtain rfl := eq_of_append_cons hsame (hspells w hw) hc (hspells' w' hw') hc'
  exact ⟨w, hw, hw'⟩

/-- What is read behind a start tag of a raw-text element. -/
theorem rawCut_after_start {o : Options} {lastClose : Option Nat} {t : OpenTag}
    {outer : List OpenTag} (hnamed : Named (t :: outer)) (hraw : o.isRawText t.name = true)
    (hname : IsUnended t.name.toList) (position : Nat) (s : List Char) :
    ∃ content endTag rest more, s = content ++ (endTag ++ rest) ∧
      RawCut (SameButAsciiCase t.name) content endTag rest ∧
      attributedFrom o lastClose (t :: outer) position s =
        (Piece.rawContent t.name position content).attributed ++
          (rawEnding t (position + extent content) endTag (position + extent s) ++ more) := by
  obtain ⟨raw, hread⟩ : ∃ raw, readRawExtent (lowercase t.name).toList s = raw := ⟨_, rfl⟩
  have hcut := rawCut_readRawExtent hname.lowercase s
  rw [hread] at hcut
  have hwhole := hread ▸ readRawExtent_append (lowercase t.name).toList s
  obtain ⟨more, hevents⟩ := exists_rawEnding lastClose hnamed hraw position hread
  exact ⟨raw.content, raw.endTag, raw.rest, more, hwhole.symm, hcut, hevents⟩

/-- A raw-text element is cut at the first end tag whose name agrees with its small letters up to
the case of ASCII letters. That is the first end tag with the small letters of its name exactly if
no such one begins in the content. An end tag spelled as the start tag is never passed over if the
name agrees with its own small letters up to the case of ASCII letters; otherwise it never closes
the element. -/
theorem rawElement_ends_at_first_iff {o : Options} {markup : String}
    {before after : List (Option Piece × Event)} {p : Piece} {name : String}
    {attributes : List Attribute} {span : Span}
    (h : attributedEvents o markup =
      before ++ (some p, .startTag name attributes false span) :: after)
    (hkind : p.kind = .startTag) (hraw : o.isRawText name = true) :
    ∃ passed content endTag rest more,
      (markup.toList = passed ++ (content ++ (endTag ++ rest)) ∧ p.span.stop = extent passed) ∧
      (RawCut (SameButAsciiCase name) content endTag rest ∧
        after = (Piece.rawContent name p.span.stop content).attributed ++
          (rawEnding (.named name span) (p.span.stop + extent content) endTag markup.utf8ByteSize ++
            more)) ∧
      (RawCut (SameSmallLetters name) content endTag rest ↔
        NoEndTagIn (SameSmallLetters name) content (endTag ++ rest)) ∧
      (SameButAsciiCase name name.toList →
        NoEndTagIn (fun w => w = name.toList) content (endTag ++ rest)) ∧
      (¬ SameButAsciiCase name name.toList → ¬ IsEndTagOf (fun w => w = name.toList) endTag) := by
  rw [attributedEvents_eq] at h
  obtain ⟨outer, passed, following, hname, hnamed, hwhole, hstop, hafter⟩ :=
    attributedFrom_after_start named_nil h hkind
  have hname := isUnended_of_isQualifiedName hname
  obtain ⟨content, endTag, rest, more, hfollowing, hcut, hevents⟩ :=
    rawCut_after_start (t := .named name span) hnamed hraw hname p.span.stop following
  have hstop : p.span.stop = extent passed := by rw [hstop, Nat.zero_add]
  have hmarkup : p.span.stop + extent following = markup.utf8ByteSize := by
    rw [← extent_toList, hwhole, extent_append, hstop]
  rw [hmarkup] at hevents
  refine ⟨passed, content, endTag, rest, more, ⟨by rw [hwhole, hfollowing], hstop⟩,
    ⟨hcut, hafter.trans hevents⟩, ⟨fun hsmall => hsmall.first, fun hnone => ⟨hnone, ?_⟩⟩, ?_, ?_⟩
  · exact hcut.closed.imp_left (.imp fun w => sameSmallLetters_of_sameButAsciiCase)
  · exact fun hsame => hcut.first.imp fun w hw => hw ▸ hsame
  · rintro hdiffers hown
    obtain hclosed | ⟨rfl, -⟩ := hcut.closed
    · obtain ⟨w, hw, rfl⟩ := hclosed.eq hown (fun w hw => hname.lowercase.of_eqIgnoringAsciiCase hw)
        fun w hw => hw ▸ hname
      exact hdiffers hw
    · cases hown.gt_mem

deriving instance DecidableEq for Piece

/-- An element that the end tag of another one does not close. -/
theorem rawElement_ends_at_first_sample :
    let start : Event := .startTag "style" [] false ⟨0, 7⟩
    let p : Piece := ⟨.startTag, 0, "<style>".toList, [start]⟩
    ∃ after, attributedEvents .plain "<style>a</b></STYLE>" = (some p, start) :: after ∧
      p.kind = .startTag ∧ Options.plain.isRawText "style" = true ∧
      ∃ passed content endTag rest,
        "<style>a</b></STYLE>".toList = passed ++ (content ++ (endTag ++ rest)) ∧
        RawCut (SameButAsciiCase "style") content endTag rest ∧
        NoEndTagIn (fun w => w = "style".toList) content (endTag ++ rest) := by
  intro start p
  have hevents : attributedEvents .plain "<style>a</b></STYLE>" = [] ++ (some p, start) ::
      [(some ⟨.rawContent, 7, "a</b>".toList, [.text "a</b>" none]⟩, .text "a</b>" none),
        (some ⟨.rawEndTag, 12, "</STYLE>".toList, [.endTag "style" ⟨12, 8⟩]⟩,
          .endTag "style" ⟨12, 8⟩)] := by
    decide +kernel
  have hown : SameButAsciiCase "style" "style".toList := by decide +kernel
  obtain ⟨passed, content, endTag, rest, -, ⟨hwhole, -⟩, ⟨hcut, -⟩, -, hsame, -⟩ :=
    rawElement_ends_at_first_iff hevents rfl (by decide)
  exact ⟨_, hevents, rfl, by decide, passed, content, endTag, rest, hwhole, hcut, hsame hown⟩

/-- The end tag of the element has its name in the very spelling of the start tag. It is passed
over, and the content goes on to the end of the markup. -/
theorem rawElement_passes_own_endTag :
    (RawCut (SameSmallLetters "xÉ") "a".toList "</xÉ>".toList [] ∧
      RawCut (fun w => w = "xÉ".toList) "a".toList "</xÉ>".toList []) ∧
    parse { Options.plain with isRawText := fun name => name == "xÉ" } "<xÉ>a</xÉ>" =
      [.startTag "xÉ" [] false ⟨0, 5⟩, .text "a</xÉ>" none,
        (OpenTag.named "xÉ" ⟨0, 5⟩).missingEnd, .endTag "xÉ" (.empty 12)] := by
  have hfirst : ∀ spells, NoEndTagIn spells "a".toList ("</xÉ>".toList ++ []) := by
    rintro spells before c after endTag rest hcontent hbegins ⟨name, between, rfl, -⟩
    obtain ⟨rfl, rfl, rfl⟩ : before = [] ∧ 'a' = c ∧ after = [] := by
      simpa [List.append_eq_cons_iff, eq_comm] using hcontent
    simp at hbegins
  have hend : ∀ spells : List Char → Prop, spells "xÉ".toList →
      RawCut spells "a".toList "</xÉ>".toList [] :=
    fun spells hspells => ⟨hfirst spells, .inl ⟨"xÉ".toList, [], rfl, hspells, by simp, by simp⟩⟩
  exact ⟨⟨hend _ (by rw [SameSmallLetters, String.ofList_toList]), hend _ rfl⟩, by decide +kernel⟩

end HtmlTemplate.Markup
