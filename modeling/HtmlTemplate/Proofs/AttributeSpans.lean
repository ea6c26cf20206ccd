import HtmlTemplate.Proofs.EventSpans
import HtmlTemplate.Proofs.StartTagForms
import HtmlTemplate.Proofs.StartTagPieces

/-!
# Where attributes stand

If attributes have spans, the spans of a start tag tell how it is written (`WritesAttributes`). They
stand one behind the other between the name of the tag and the signs that close it, with nothing but
blanks around them. At each of them is the name of the attribute, and then an assignment if there is
one; what is assigned (`Assigns`) is the text between the quotes, or the value that stands on its
own, and the attribute has that text with its references decoded (`attributes_stand`).
-/

namespace HtmlTemplate.Markup

open Text

/-! ### Assignments -/

/-- A value as it is written, and its text. A closing quote may be repeated. -/
inductive IsValue : List Char → List Char → Prop where
  | quoted {quote : Char} {text : List Char} (repeats : Nat) (hquote : isQuote quote = true)
      (htext : quote ∉ text) :
      IsValue (quote :: text ++ quote :: List.replicate repeats quote) text
  | bare {text : List Char} (hne : text ≠ []) (htext : ∀ c ∈ text, isBareValuePart c = true) :
      IsValue text text

/-- What stands behind the name of an attribute, and the text that it gives as the value: nothing,
or `=` and a value, with blanks before and after the sign. -/
inductive Assigns : List Char → Option (List Char) → Prop where
  | nothing : Assigns [] none
  | value {before after written text : List Char} (hbefore : ∀ c ∈ before, isBlank c = true)
      (hafter : ∀ c ∈ after, isBlank c = true) (hvalue : IsValue written text) :
      Assigns (before ++ '=' :: after ++ written) (some text)

theorem isValue_of_readValue? {s written text rest : List Char}
    (h : readValue? s = some ((written, text), rest)) : IsValue written text := by
  cases s with
  | nil => cases h
  | cons q s =>
    simp only [readValue?] at h
    split at h
    · next hquote =>
      split at h
      · cases h
      · next c after hdrop =>
        obtain ⟨⟨rfl, rfl⟩, -⟩ := by simpa using h
        obtain rfl : c = q := eq_of_dropWhile_ne hdrop
        have hrepeats : after.takeWhile (· == c) =
            List.replicate (after.takeWhile (· == c)).length c :=
          List.eq_replicate_iff.2 ⟨rfl, fun d hd => by simpa using List.mem_takeWhile_imp hd⟩
        rw [hrepeats]
        exact .quoted _ hquote fun hc => by simpa using List.mem_takeWhile_imp hc
    · split at h
      · cases h
      · next hne =>
        obtain ⟨⟨rfl, rfl⟩, -⟩ := by simpa using h
        exact .bare (by simpa using hne) fun c hc => List.mem_takeWhile_imp hc

theorem IsValue.read {written text : List Char} (h : IsValue written text) :
    readValue? written = some ((written, text), []) := by
  cases h with
  | @quoted quote text repeats hquote htext =>
    have hinner : ∀ c ∈ text, (c != quote) = true := fun c hc =>
      bne_iff_ne.2 fun he => htext (he ▸ hc)
    have htake : (text ++ quote :: List.replicate repeats quote).takeWhile (· != quote) = text := by
      rw [takeWhile_append_cons (by simp), List.takeWhile_eq_self_iff.2 hinner]
    have hdrop : (text ++ quote :: List.replicate repeats quote).dropWhile (· != quote) =
        quote :: List.replicate repeats quote := by
      rw [dropWhile_append_cons (by simp), List.dropWhile_eq_nil_iff.2 hinner, List.nil_append]
    simp [readValue?, hquote, htake, hdrop]
  | bare hne hparts =>
    obtain ⟨c, more, rfl⟩ := List.exists_cons_of_ne_nil hne
    have hquote := isQuote_eq_false_of_isBareValuePart (hparts c List.mem_cons_self)
    have htake := List.takeWhile_eq_self_iff.2 hparts
    have hdrop := List.dropWhile_eq_nil_iff.2 hparts
    simp [readValue?, hquote, htake, hdrop]

theorem IsValue.not_blank {written text : List Char} (h : IsValue written text) :
    ∃ c rest, written = c :: rest ∧ isBlank c = false := by
  cases h with
  | quoted repeats hquote _ => exact ⟨_, _, rfl, isBlank_eq_false_of_isQuote hquote⟩
  | bare hne hparts =>
    obtain ⟨c, more, rfl⟩ := List.exists_cons_of_ne_nil hne
    exact ⟨c, more, rfl, isBlank_eq_false_of_isBareValuePart (hparts c List.mem_cons_self)⟩

theorem assigns_of_readAssignment? {s assignment text rest : List Char}
    (h : readAssignment? s = some ((assignment, text), rest)) : Assigns assignment (some text) := by
  unfold readAssignment? at h
  split at h
  · split at h
    · next hvalue =>
      obtain ⟨⟨rfl, rfl⟩, -⟩ := by simpa using h
      rw [← List.cons_append, ← List.append_assoc]
      exact .value (fun c hc => List.mem_takeWhile_imp hc) (fun c hc => List.mem_takeWhile_imp hc)
        (isValue_of_readValue? hvalue)
    · cases h
  · cases h

theorem leadingBlanks_append_cons {s rest : List Char} {c : Char} (hs : ∀ d ∈ s, isBlank d = true)
    (hc : isBlank c = false) : leadingBlanks (s ++ c :: rest) = s := by
  rw [leadingBlanks, takeWhile_append_cons hc, List.takeWhile_eq_self_iff.2 hs]

theorem dropBlanks_append_cons {s rest : List Char} {c : Char} (hs : ∀ d ∈ s, isBlank d = true)
    (hc : isBlank c = false) : dropBlanks (s ++ c :: rest) = c :: rest := by
  rw [dropBlanks, dropWhile_append_cons hc, List.dropWhile_eq_nil_iff.2 hs, List.nil_append]

theorem Assigns.read {assignment text : List Char} (h : Assigns assignment (some text)) :
    readAssignment? assignment = some ((assignment, text), []) := by
  cases h with
  | @value before after written _ hbefore hafter hvalue =>
    obtain ⟨c, more, hwritten, hc⟩ := hvalue.not_blank
    have hread := hvalue.read
    have hsign : isBlank '=' = false := by decide
    rw [hwritten] at hread
    rw [hwritten, List.append_assoc, List.cons_append, readAssignment?,
      dropBlanks_append_cons hbefore hsign]
    simp [dropBlanks_append_cons hafter hc, leadingBlanks_append_cons hafter hc,
      leadingBlanks_append_cons hbefore hsign, hread]

/-- An assignment gives one value. -/
theorem Assigns.unique {assignment : List Char} {value value' : Option (List Char)}
    (h : Assigns assignment value) (h' : Assigns assignment value') : value = value' := by
  have hnothing : ∀ text, ¬ Assigns [] (some text) := fun text habsent => by
    cases habsent.read
  cases value with
  | none =>
    cases h
    cases value' with
    | none => rfl
    | some text => exact absurd h' (hnothing text)
  | some text =>
    cases value' with
    | none =>
      cases h'
      exact absurd h (hnothing text)
    | some text' =>
      have hread := h.read.symm.trans h'.read
      simpa using hread

/-! ### What is read -/

/-- What reading makes sure of about the parts of an attribute. -/
structure RawAttribute.IsRead (a : RawAttribute) : Prop where
  gap : ∀ c ∈ a.gap, isBlank c = true
  name : a.name ≠ []
  assigns : Assigns a.assignment a.value

theorem isRead_of_readAttribute? {s : List Char} {a : RawAttribute} {rest : List Char}
    (h : readAttribute? s = some (a, rest)) : a.IsRead := by
  have hname := (readAttribute?_append h).2
  unfold readAttribute? at h
  split at h
  · cases h
  · split at h
    · next hassignment =>
      obtain ⟨rfl, -⟩ := by simpa using h
      exact ⟨fun c hc => List.mem_takeWhile_imp hc, hname, assigns_of_readAssignment? hassignment⟩
    · obtain ⟨rfl, -⟩ := by simpa using h
      exact ⟨fun c hc => List.mem_takeWhile_imp hc, hname, .nothing⟩

theorem gap_of_readTagClose? {s : List Char} {close : TagClose} {rest : List Char}
    (h : readTagClose? s = some (close, rest)) : ∀ c ∈ close.gap, isBlank c = true := by
  unfold readTagClose? at h
  split at h <;> simp only [reduceCtorEq, Option.some.injEq, Prod.mk.injEq] at h <;>
    · obtain ⟨rfl, -⟩ := h
      exact fun c hc => List.mem_takeWhile_imp hc

theorem TagClose.exists_sign (c : TagClose) :
    ∃ sign, c.source = c.gap ++ sign ∧ (sign = ['>'] ∨ sign = ['/', '>']) := by
  refine ⟨_, rfl, ?_⟩
  split <;> simp

theorem isRead_of_readAttributes? {s : List Char} {attributes : List RawAttribute}
    {close : TagClose} {rest : List Char}
    (h : readAttributes? s = some ((attributes, close), rest)) :
    (∀ a ∈ attributes, a.IsRead) ∧ ∀ c ∈ close.gap, isBlank c = true := by
  fun_induction readAttributes? s generalizing attributes close rest with
  | case1 s found r hclose =>
    obtain ⟨⟨rfl, rfl⟩, -⟩ := by simpa using h
    exact ⟨by simp, gap_of_readTagClose? hclose⟩
  | case2 => cases h
  | case3 s _ a r ha _ more found after hmore ih =>
    obtain ⟨⟨rfl, rfl⟩, -⟩ := by simpa using h
    obtain ⟨hattributes, hclose⟩ := ih hmore
    exact ⟨List.forall_mem_cons.2 ⟨isRead_of_readAttribute? ha, hattributes⟩, hclose⟩
  | case4 => cases h

theorem isRead_of_readStartTag? {s : List Char} {t : StartTag} {rest : List Char}
    (h : readStartTag? s = some (t, rest)) :
    (∀ a ∈ t.attributes, a.IsRead) ∧ ∀ c ∈ t.close.gap, isBlank c = true := by
  unfold readStartTag? at h
  split at h
  · split at h
    · cases h
    · split at h
      · next hattributes =>
        obtain ⟨rfl, -⟩ := by simpa using h
        exact isRead_of_readAttributes? hattributes
      · cases h
  · cases h

/-! ### Spans among blanks -/

/-- Nothing but blanks stands in a text from one position up to another. -/
def BlankBetween (whole : List Char) (start stop : Nat) : Prop :=
  start ≤ stop ∧ ∃ blanks, IsSlice whole (.between start stop) blanks ∧
    ∀ c ∈ blanks, isBlank c = true

/-- Spans that stand one behind the other from a position up to another, with nothing but blanks
before, between and behind them. -/
def SpacedOut (whole : List Char) : Nat → List Span → Nat → Prop
  | start, [], stop => BlankBetween whole start stop
  | start, place :: places, stop =>
    BlankBetween whole start place.start ∧ SpacedOut whole place.stop places stop

section

variable {whole : List Char} {start stop : Nat} {places : List Span}

theorem At.blankBetween {blanks rest : List Char} (h : At whole start (blanks ++ rest))
    (hblanks : ∀ c ∈ blanks, isBlank c = true) :
    BlankBetween whole start (start + extent blanks) := by
  refine ⟨Nat.le_add_right _ _, blanks, ?_, hblanks⟩
  rw [Span.between, Nat.add_sub_cancel_left]
  exact h.slice

theorem SpacedOut.within (h : SpacedOut whole start places stop) :
    start ≤ stop ∧ ∀ place ∈ places, start ≤ place.start ∧ place.stop ≤ stop := by
  induction places generalizing start with
  | nil => exact ⟨h.1, by simp⟩
  | cons place places ih =>
    obtain ⟨⟨hstart, -⟩, hrest⟩ := h
    obtain ⟨hstop, hplaces⟩ := ih hrest
    have hplace : place.start ≤ place.stop := Nat.le_add_right _ _
    refine ⟨by omega, List.forall_mem_cons.2 ⟨⟨hstart, hstop⟩, fun other hother => ?_⟩⟩
    have := hplaces other hother
    omega

theorem SpacedOut.ordered (h : SpacedOut whole start places stop) :
    places.Pairwise fun place next => place.stop ≤ next.start := by
  induction places generalizing start with
  | nil => exact .nil
  | cons place places ih =>
    exact .cons (fun next hnext => (h.2.within.2 next hnext).1) (ih h.2)

end

/-! ### Attributes at their places -/

/-- The option that settles whether the value of an attribute has its line feeds decoded. -/
def Options.decodesLineFeeds (o : Options) (tag name : String) : Bool :=
  if tag == "a" && name == "href" then o.decodeLineFeedsInLinks else o.decodeLineFeeds

/-- At a place is the name of an attribute with an assignment; the value is what is assigned, with
its references decoded, and empty if nothing is. -/
def Attribute.WrittenAt (o : Options) (tag : String) (whole : List Char) (a : Attribute)
    (place : Span) : Prop :=
  ∃ assignment raw, IsSlice whole place (a.name.toList ++ assignment) ∧ Assigns assignment raw ∧
    a.value = String.ofList (decodeValue (o.decodesLineFeeds tag a.name) (raw.getD []))

/-- A start tag at a span is written as its name, attributes at the given places, and the signs at
another one that close it. -/
structure WritesAttributes (o : Options) (whole : List Char) (name : String)
    (attributes : List Attribute) (span : Span) (places : List Span) (close : Span) : Prop where
  opens : IsSlice whole ⟨span.start, extent ('<' :: name.toList)⟩ ('<' :: name.toList)
  closes : IsSlice whole close ['>'] ∨ IsSlice whole close ['/', '>']
  stop : close.stop = span.stop
  spans : attributes.map Attribute.span = places.map some
  inside : ∀ place ∈ places, span.start + extent ('<' :: name.toList) ≤ place.start ∧
    place.start < place.stop ∧ place.stop < span.stop
  ordered : places.Pairwise fun place next => place.stop ≤ next.start
  spacedOut : SpacedOut whole (span.start + extent ('<' :: name.toList)) places close.start
  written : List.Forall₂ (Attribute.WrittenAt o name whole) attributes places

section

variable {o : Options} {whole : List Char}

/-- Attributes that are read from a position on have places there. -/
theorem exists_places (hspans : o.attributeSpans = true) (tag : String) {position : Nat}
    {raws : List RawAttribute} (hraws : ∀ raw ∈ raws, raw.IsRead) {gap rest : List Char}
    (hgap : ∀ c ∈ gap, isBlank c = true)
    (h : At whole position (raws.flatMap RawAttribute.source ++ (gap ++ rest))) :
    ∃ places, (attributesFrom o tag position raws).map Attribute.span = places.map some ∧
      (∀ place ∈ places, place.start < place.stop) ∧
      SpacedOut whole position places
        (position + extent (raws.flatMap RawAttribute.source ++ gap)) ∧
      List.Forall₂ (Attribute.WrittenAt o tag whole) (attributesFrom o tag position raws)
        places := by
  induction raws generalizing position with
  | nil => exact ⟨[], rfl, by simp, At.blankBetween (by simpa using h) hgap, .nil⟩
  | cons raw raws ih =>
    obtain ⟨hraw, hraws⟩ := List.forall_mem_cons.1 hraws
    have hat : At whole position (raw.gap ++ ((raw.name ++ raw.assignment) ++
        (raws.flatMap RawAttribute.source ++ (gap ++ rest)))) := by
      simpa [RawAttribute.source] using h
    have hmore : At whole (position + extent raw.source)
        (raws.flatMap RawAttribute.source ++ (gap ++ rest)) := by
      simpa [RawAttribute.source, Nat.add_assoc] using hat.after.after
    obtain ⟨places, hmap, hlong, hspaced, hwritten⟩ := ih hraws hmore
    have hslice : IsSlice whole ⟨position + extent raw.gap, extent raw.name + extent raw.assignment⟩
        (raw.name ++ raw.assignment) := by
      rw [← extent_append]
      exact hat.after.slice
    refine ⟨⟨position + extent raw.gap, extent raw.name + extent raw.assignment⟩ :: places, ?_,
      List.forall_mem_cons.2 ⟨?_, hlong⟩, ⟨hat.blankBetween hraw.gap, ?_⟩, ?_⟩
    · simp [attributesFrom, hspans, hmap]
    · have hname : extent raw.name ≠ 0 := fun hzero => hraw.name (eq_nil_of_extent_eq_zero hzero)
      simp only [Span.stop]
      omega
    · have hstop : position + extent ((raw :: raws).flatMap RawAttribute.source ++ gap) =
          position + extent raw.source + extent (raws.flatMap RawAttribute.source ++ gap) := by
        rw [List.flatMap_cons, List.append_assoc, extent_append, Nat.add_assoc]
      have hplace : Span.stop ⟨position + extent raw.gap, extent raw.name + extent raw.assignment⟩ =
          position + extent raw.source := by
        simp [Span.stop, RawAttribute.source, Nat.add_assoc]
      rwa [hstop, hplace]
    · refine .cons ⟨raw.assignment, raw.value, ?_, hraw.assigns, ?_⟩ hwritten
      · simpa using hslice
      · rfl

theorem exists_writesAttributes (hspans : o.attributeSpans = true) {position : Nat}
    {s rest after : List Char} {t : StartTag} (hread : readStartTag? s = some (t, rest))
    (h : At whole position (t.source ++ after)) :
    ∃ places close, WritesAttributes o whole (String.ofList t.name)
      (attributesFrom o (String.ofList t.name) (position + 1 + extent t.name) t.attributes)
      ⟨position, extent t.source⟩ places close := by
  obtain ⟨hattributes, hgap⟩ := isRead_of_readStartTag? hread
  obtain ⟨sign, hsign, hkinds⟩ := t.close.exists_sign
  have hsource : t.source = ('<' :: t.name) ++
      (t.attributes.flatMap RawAttribute.source ++ (t.close.gap ++ sign)) := by
    simp [StartTag.source, hsign]
  have hat : At whole position (('<' :: t.name) ++
      (t.attributes.flatMap RawAttribute.source ++ (t.close.gap ++ (sign ++ after)))) := by
    simpa [hsource] using h
  have hname : extent ('<' :: t.name) = 1 + extent t.name := rfl
  have hbehind : At whole (position + 1 + extent t.name)
      (t.attributes.flatMap RawAttribute.source ++ (t.close.gap ++ (sign ++ after))) := by
    rw [Nat.add_assoc, ← hname]
    exact hat.after
  obtain ⟨places, hmap, hlong, hspaced, hwritten⟩ :=
    exists_places hspans (String.ofList t.name) hattributes hgap hbehind
  have hclose : At whole (position + 1 + extent t.name +
      extent (t.attributes.flatMap RawAttribute.source ++ t.close.gap)) (sign ++ after) := by
    rw [← List.append_assoc] at hbehind
    exact hbehind.after
  have hstart : position + extent ('<' :: (String.ofList t.name).toList) =
      position + 1 + extent t.name := by
    rw [String.toList_ofList, hname, Nat.add_assoc]
  have hstop : Span.stop ⟨position + 1 + extent t.name +
      extent (t.attributes.flatMap RawAttribute.source ++ t.close.gap), extent sign⟩ =
        Span.stop ⟨position, extent t.source⟩ := by
    simp only [Span.stop, hsource, extent_append, hname]
    omega
  have hpositive : 0 < extent sign := by
    rcases hkinds with rfl | rfl <;> decide
  refine ⟨places, ⟨_, extent sign⟩, ?_, ?_, hstop, hmap, ?_, hspaced.ordered, ?_, hwritten⟩
  · rw [String.toList_ofList]
    exact hat.slice
  · have hslice := hclose.slice
    rcases hkinds with rfl | rfl
    · exact .inl hslice
    · exact .inr hslice
  · intro place hplace
    obtain ⟨hfrom, hto⟩ := hspaced.within.2 place hplace
    rw [hstart, ← hstop]
    exact ⟨hfrom, hlong place hplace, Nat.lt_of_le_of_lt hto (Nat.lt_add_of_pos_right hpositive)⟩
  · rwa [hstart]

end

/-! ### Whole markup -/

/-- An end tag is at the span of its piece. -/
theorem closesAt_of_endTagName? {whole : List Char} {p : Piece} {name : String}
    (hslice : IsSlice whole p.span p.source) (hname : p.endTagName? = some name) :
    ClosesAt whole name p.span := by
  rw [Piece.endTagName?] at hname
  split at hname
  · obtain ⟨t, hread, rfl⟩ := Option.map_eq_some_iff.1 hname
    obtain ⟨rest, hsource, -, -⟩ := isEndTag_of_readEndTag? hread
    refine ⟨rest ++ '>' :: t.rest, ?_⟩
    rw [← readEndTag?_append hread, hsource] at hslice
    simpa using hslice
  · cases hname

/-- The attributes of a start event stand where their spans say, as the start tag is written. Only a
start event that stands for a stray end tag, and has no attributes, is not from a start tag. -/
theorem attributes_stand {o : Options} (hspans : o.attributeSpans = true) (markup : String) :
    ∀ name attributes unary span, .startTag name attributes unary span ∈ parse o markup →
      (ClosesAt markup.toList name span ∧ attributes = []) ∨
      ∃ places close, WritesAttributes o markup.toList name attributes span places close := by
  intro name attributes unary span hstart
  obtain ⟨p, hp, ⟨s, t, rest, lineFeed, hread, hsource, rfl, rfl, rfl⟩ | ⟨hname, rfl, rfl⟩⟩ :=
    origin_of_startTag_mem_parse hstart
  · obtain ⟨after, hat, -⟩ := (isSlice_of_mem_trace hp).ends
    rw [hsource, List.append_assoc] at hat
    exact .inr (exists_writesAttributes hspans hread hat)
  · exact .inl ⟨closesAt_of_endTagName? (isSlice_of_mem_trace hp) hname, rfl⟩

/-- A repeated quote belongs to the first attribute, and nothing keeps the second one apart from
it. -/
theorem attributes_stand_sample :
    let o : Options := { Options.plain with attributeSpans := true }
    let markup := "<a b = 'x&amp;'':c d/>"
    let attributes : List Attribute :=
      [⟨"b", "x&", some ⟨3, 13⟩⟩, ⟨":c", "", some ⟨16, 2⟩⟩, ⟨"d", "", some ⟨19, 1⟩⟩]
    o.attributeSpans = true ∧ .startTag "a" attributes true ⟨0, 22⟩ ∈ parse o markup ∧
      ∃ places close, WritesAttributes o markup.toList "a" attributes ⟨0, 22⟩ places close := by
  intro o markup attributes
  have hstart : .startTag "a" attributes true ⟨0, 22⟩ ∈ parse o markup := by decide +kernel
  obtain ⟨-, hnone⟩ | hwrites := attributes_stand (o := o) rfl markup _ _ _ _ hstart
  · exact absurd hnone (List.cons_ne_nil _ _)
  · exact ⟨rfl, hstart, hwrites⟩

end HtmlTemplate.Markup
