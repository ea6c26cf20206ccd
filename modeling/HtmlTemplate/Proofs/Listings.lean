import HtmlTemplate.Markup.Listing
import HtmlTemplate.Proofs.DirectiveNames
import HtmlTemplate.Proofs.Spanless
import HtmlTemplate.Proofs.StartTagPieces

/-!
# What a listing tells of the events

Two runs have the same listing exactly if their events are the same but for their positions
(`listing_eq_iff`). Each line is read from left to right, and what stands in it ends where one sees
it: an escaped text before the quote, for no escape begins with a quote (`escaped_inj`); the name of
a tag before a blank and the name of an attribute before `=`, for neither has such a character
(`Event.Listable`). Names of attributes may have blanks, quotes and line feeds in brackets; but what
begins with `]` and a blank is never one, so the end of the attributes is not taken for another
attribute (`attributesListed_inj`).
-/

namespace HtmlTemplate.Markup

open Text Template

/-! ### Without positions -/

/-- The event without its positions. Of the span of text it is kept whether there is one; the range
of a warning is kept. -/
def Event.unplaced : Event → Event
  | .startTag name attributes unary _ =>
    .startTag name (attributes.map Attribute.spanless) unary (.empty 0)
  | .endTag name _ => .endTag name (.empty 0)
  | .text content span => .text content (span.map fun _ => .empty 0)
  | .comment content _ => .comment content (.empty 0)
  | .warning message range => .warning message range

theorem Event.listed_unplaced (e : Event) : e.unplaced.listed = e.listed := by
  have hattribute : Attribute.listed ∘ Attribute.spanless = Attribute.listed := rfl
  cases e with
  | startTag name attributes unary span => simp only [unplaced, listed, List.map_map, hattribute]
  | endTag name span => rfl
  | text content span => cases span <;> rfl
  | comment content span => rfl
  | warning message range => rfl

/-! ### Quoted texts -/

def hexValue (c : Char) : Nat :=
  if c.toNat < 'A'.toNat then c.toNat - '0'.toNat else c.toNat - 'A'.toNat + 10

/-- The character that is escaped at the beginning of a text, and what follows; none before the
closing quote. -/
def readEscaped? : List Char → Option (Char × List Char)
  | [] => none
  | '"' :: _ => none
  | '\\' :: 'u' :: '{' :: high :: low :: '}' :: rest =>
    some (Char.ofNat (16 * hexValue high + hexValue low), rest)
  | '\\' :: c :: rest =>
    some (if c = 'n' then '\n' else if c = 'r' then '\r' else if c = 't' then '\t' else c, rest)
  | c :: rest => some (c, rest)

theorem readEscaped?_quote (rest : List Char) : readEscaped? ('"' :: rest) = none := rfl

theorem hexValue_hexDigitUpper :
    ∀ n < 32, 16 * hexValue (hexDigitUpper (n / 16)) + hexValue (hexDigitUpper (n % 16)) = n := by
  decide

/-- Every escape is read back, whatever follows it. -/
theorem readEscaped?_escapeChar (c : Char) (rest : List Char) :
    readEscaped? (escapeChar c ++ rest) = some (c, rest) := by
  unfold escapeChar
  split_ifs with hbackslash hquote hfeed hreturn htab hcontrol
  · simp_all [readEscaped?]
  · simp_all [readEscaped?]
  · simp_all [readEscaped?]
  · simp_all [readEscaped?]
  · simp_all [readEscaped?]
  · have hlt : c.toNat < 32 := hcontrol
    simp only [List.cons_append, List.nil_append, readEscaped?, hexValue_hexDigitUpper c.toNat hlt,
      Char.ofNat_toNat]
  · simp only [beq_iff_eq] at hbackslash hquote
    rw [List.singleton_append]
    unfold readEscaped?
    split <;> simp_all

/-- An escaped text ends at the first quote. -/
theorem escaped_inj {s t rest rest' : List Char}
    (h : s.flatMap escapeChar ++ '"' :: rest = t.flatMap escapeChar ++ '"' :: rest') :
    s = t ∧ rest = rest' := by
  induction s generalizing t with
  | nil =>
    cases t with
    | nil => simpa using h
    | cons d t =>
      have hread := congrArg readEscaped? h
      rw [List.flatMap_nil, List.nil_append, readEscaped?_quote, List.flatMap_cons,
        List.append_assoc, readEscaped?_escapeChar] at hread
      cases hread
  | cons c s ih =>
    have hread := congrArg readEscaped? h
    rw [List.flatMap_cons, List.append_assoc, readEscaped?_escapeChar] at hread
    cases t with
    | nil =>
      rw [List.flatMap_nil, List.nil_append, readEscaped?_quote] at hread
      cases hread
    | cons d t =>
      rw [List.flatMap_cons, List.append_assoc, readEscaped?_escapeChar] at hread
      obtain ⟨rfl, hmore⟩ := by simpa using hread
      obtain ⟨rfl, hrest⟩ := ih hmore
      exact ⟨rfl, hrest⟩

theorem toList_quoted (s : String) :
    (quoted s).toList = '"' :: (s.toList.flatMap escapeChar ++ ['"']) := by
  simp [quoted, escape]

theorem quoted_append_inj {s t : String} {rest rest' : List Char}
    (h : (quoted s).toList ++ rest = (quoted t).toList ++ rest') : s = t ∧ rest = rest' := by
  rw [toList_quoted, toList_quoted] at h
  obtain ⟨htext, hrest⟩ := escaped_inj (by simpa using h)
  exact ⟨String.toList_inj.1 htext, hrest⟩

/-! ### Names -/

/-- What stands before the first occurrence of a character is settled. -/
theorem append_cons_inj_of_not_mem {c : Char} {u v rest rest' : List Char} (hu : c ∉ u) (hv : c ∉ v)
    (h : u ++ c :: rest = v ++ c :: rest') : u = v ∧ rest = rest' := by
  have hsplit := splitOnce?_append_cons hu rest
  rw [h, splitOnce?_append_cons hv] at hsplit
  obtain ⟨rfl, rfl⟩ := by simpa using hsplit
  exact ⟨rfl, rfl⟩

/-- A qualified name has only characters of names and colons. -/
theorem not_mem_of_isQualifiedName {name : List Char} (h : isQualifiedName name = true) {c : Char}
    (hc : isNamePart c = false) (hcolon : c ≠ ':') : c ∉ name := by
  intro hmem
  obtain ⟨before, after, rfl⟩ := List.append_of_mem hmem
  rw [isQualifiedName, beq_iff_eq, readName?_append_cons hc hcolon] at h
  obtain ⟨found, -, heq⟩ := Option.map_eq_some_iff.1 h
  simp at heq

/-- The name of an attribute as it can be listed: it ends before `=`, and it is not what follows the
last attribute. -/
structure IsListableName (name : List Char) : Prop where
  equals : '=' ∉ name
  bracket : ¬ [']', ' '] <+: name

theorem equals_not_mem_of_readAttributeName? {s name rest : List Char}
    (h : readAttributeName? s = some (name, rest)) : '=' ∉ name := by
  have hpart : ∀ {t : List Char}, (∀ c ∈ t, isAttributeNamePart c = true) → '=' ∉ t :=
    fun ht hmem => absurd (ht '=' hmem) (by decide)
  have htaken : ∀ t : List Char, '=' ∉ t.takeWhile isAttributeNamePart :=
    fun t => hpart fun c hc => List.mem_takeWhile_imp hc
  unfold readAttributeName? at h
  split at h
  · next hbracketed =>
    cases h
    unfold readBracketedName? at hbracketed
    split at hbracketed
    · next opening c inner hopening =>
      split at hbracketed
      · cases hbracketed
      · next hc =>
        split at hbracketed
        · obtain ⟨rfl, -⟩ := by simpa using hbracketed
          have hinner : '=' ∉ inner.takeWhile fun c => c != ']' && c != '=' := by
            intro hmem
            have := List.mem_takeWhile_imp hmem
            simp at this
          have hc : '=' ≠ c := by
            rintro rfl
            exact hc rfl
          simp [hpart (opening_of_readBracketOpening? hopening).2, hc, hinner, htaken]
        · cases hbracketed
    · cases hbracketed
  · simp only [readPlainName?] at h
    split at h
    · cases h
    · obtain ⟨rfl, -⟩ := by simpa using h
      exact htaken s

/-- Brackets only stand in names behind something that opens them. -/
theorem IsReadName.not_bracket {name : List Char} (h : IsReadName name) : ¬ [']', ' '] <+: name := by
  rintro ⟨t, rfl⟩
  have hopening : readBracketOpening? ([']', ' '] ++ t) = none := by
    cases t <;> rfl
  exact absurd (h.2 hopening ' ' (by simp)) (by decide)

/-! ### Attributes -/

theorem Attribute.toList_listed (a : Attribute) :
    a.listed.toList = a.name.toList ++ '=' :: (quoted a.value).toList := by
  simp [listed]

theorem Attribute.listed_append_inj {a b : Attribute} {rest rest' : List Char}
    (ha : IsListableName a.name.toList) (hb : IsListableName b.name.toList)
    (h : a.listed.toList ++ rest = b.listed.toList ++ rest') :
    a.spanless = b.spanless ∧ rest = rest' := by
  rw [toList_listed, toList_listed, List.append_assoc, List.append_assoc, List.cons_append,
    List.cons_append] at h
  obtain ⟨hname, hvalue⟩ := append_cons_inj_of_not_mem ha.equals hb.equals h
  obtain ⟨hvalue, hrest⟩ := quoted_append_inj hvalue
  refine ⟨?_, hrest⟩
  rw [spanless, spanless, String.toList_inj.1 hname, hvalue]

/-- The attributes of a tag as they stand between brackets. -/
def attributesListed (attributes : List Attribute) : List Char :=
  [' '].intercalate (attributes.map fun a => a.listed.toList)

theorem intercalate_cons_eq (separator x : List Char) (xs : List (List Char)) :
    separator.intercalate (x :: xs) = x ++ xs.flatMap fun y => separator ++ y := by
  induction xs generalizing x with
  | nil => simp
  | cons y xs ih =>
    rw [List.intercalate_cons_cons, ih, List.flatMap_cons, List.append_assoc, List.append_assoc]

/-- Attributes that follow others, each with a blank before it, end at the bracket. -/
theorem attributesBehind_inj {attributes attributes' : List Attribute} {rest rest' : List Char}
    (hlisted : ∀ a ∈ attributes, IsListableName a.name.toList)
    (hlisted' : ∀ a ∈ attributes', IsListableName a.name.toList)
    (h : (attributes.flatMap fun a => ' ' :: a.listed.toList) ++ ']' :: rest =
      (attributes'.flatMap fun a => ' ' :: a.listed.toList) ++ ']' :: rest') :
    attributes.map Attribute.spanless = attributes'.map Attribute.spanless ∧ rest = rest' := by
  induction attributes generalizing attributes' with
  | nil =>
    cases attributes' with
    | nil => simpa using h
    | cons b attributes' => simp at h
  | cons a attributes ih =>
    cases attributes' with
    | nil => simp at h
    | cons b attributes' =>
      obtain ⟨ha, hlisted⟩ := List.forall_mem_cons.1 hlisted
      obtain ⟨hb, hlisted'⟩ := List.forall_mem_cons.1 hlisted'
      rw [List.flatMap_cons, List.flatMap_cons, List.append_assoc, List.append_assoc,
        List.cons_append, List.cons_append, List.cons.injEq] at h
      obtain ⟨hsame, hrest⟩ := Attribute.listed_append_inj ha hb h.2
      obtain ⟨hmore, hrest⟩ := ih hlisted hlisted' hrest
      rw [List.map_cons, List.map_cons, hsame, hmore]
      exact ⟨rfl, hrest⟩

/-- No attribute is listed like the end of the attributes. -/
theorem Attribute.listed_append_ne {a : Attribute} (ha : IsListableName a.name.toList)
    (more rest : List Char) : a.listed.toList ++ more ≠ ']' :: ' ' :: rest := by
  rw [toList_listed, List.append_assoc, List.cons_append]
  intro h
  match hname : a.name.toList with
  | [] => simp [hname] at h
  | [c] => simp [hname] at h
  | c :: d :: name =>
    obtain ⟨rfl, rfl, -⟩ := by simpa [hname] using h
    exact ha.bracket ⟨name, hname.symm⟩

theorem attributesListed_inj {attributes attributes' : List Attribute} {rest rest' : List Char}
    (hlisted : ∀ a ∈ attributes, IsListableName a.name.toList)
    (hlisted' : ∀ a ∈ attributes', IsListableName a.name.toList)
    (h : attributesListed attributes ++ ']' :: ' ' :: rest =
      attributesListed attributes' ++ ']' :: ' ' :: rest') :
    attributes.map Attribute.spanless = attributes'.map Attribute.spanless ∧ rest = rest' := by
  have hfirst : ∀ (a : Attribute) (more : List Attribute), attributesListed (a :: more) =
      a.listed.toList ++ more.flatMap fun b => ' ' :: b.listed.toList := by
    intro a more
    rw [attributesListed, List.map_cons, intercalate_cons_eq, List.flatMap_map]
    rfl
  have hnil : attributesListed [] = [] := rfl
  match attributes, attributes' with
  | [], [] => simpa using h
  | [], b :: more' =>
    rw [hnil, hfirst, List.append_assoc] at h
    exact absurd h.symm (Attribute.listed_append_ne (hlisted' b (by simp)) _ _)
  | a :: more, [] =>
    rw [hnil, hfirst, List.append_assoc] at h
    exact absurd h (Attribute.listed_append_ne (hlisted a (by simp)) _ _)
  | a :: more, b :: more' =>
    obtain ⟨ha, hlisted⟩ := List.forall_mem_cons.1 hlisted
    obtain ⟨hb, hlisted'⟩ := List.forall_mem_cons.1 hlisted'
    rw [hfirst, hfirst, List.append_assoc, List.append_assoc] at h
    obtain ⟨hsame, hrest⟩ := Attribute.listed_append_inj ha hb h
    obtain ⟨hmore, hrest⟩ := attributesBehind_inj hlisted hlisted' hrest
    rw [List.map_cons, List.map_cons, hsame, hmore]
    exact ⟨rfl, (List.cons.inj hrest).2⟩

/-! ### Lines -/

theorem listedFlag_inj {a b : Bool} (h : listedFlag a = listedFlag b) : a = b := by
  cases a <;> cases b <;> first | rfl | exact absurd h (by decide)

theorem isDigit_of_mem_repr {n : Nat} {c : Char} (h : c ∈ n.repr.toList) : c.isDigit = true := by
  rw [Nat.toList_repr] at h
  exact Nat.isDigit_of_mem_toDigits (by decide) (by decide) h

theorem listedSide_inj {side side' : Option Nat} (h : listedSide side = listedSide side') :
    side = side' := by
  have hne : ∀ n : Nat, "?" ≠ n.repr := by
    intro n hn
    have hmem : '?' ∈ n.repr.toList := by simp [← hn]
    exact absurd (isDigit_of_mem_repr hmem) (by decide)
  match side, side' with
  | none, none => rfl
  | none, some n => exact absurd h (hne n)
  | some m, none => exact absurd h.symm (hne m)
  | some m, some n =>
    have hdigits : Nat.toDigits 10 m = Nat.toDigits 10 n := by
      rw [← Nat.toList_repr, ← Nat.toList_repr, show m.repr = n.repr from h]
    rw [← Nat.ofDigitChars_ten_toDigits (n := m), hdigits, Nat.ofDigitChars_ten_toDigits]

theorem dot_not_mem_listedSide (side : Option Nat) : '.' ∉ (listedSide side).toList := by
  cases side with
  | none => decide
  | some n => exact fun h => absurd (isDigit_of_mem_repr h) (by decide)

theorem listedRange_inj {r r' : Locus} (h : listedRange r = listedRange r') : r = r' := by
  have hline : ∀ r : Locus, (listedRange r).toList =
      (listedSide r.start).toList ++ '.' :: '.' :: (listedSide r.stop).toList := by
    intro r
    simp [listedRange]
  have hlist := congrArg String.toList h
  rw [hline, hline] at hlist
  obtain ⟨hstart, hstop⟩ := append_cons_inj_of_not_mem (dot_not_mem_listedSide r.start)
    (dot_not_mem_listedSide r'.start) hlist
  have hstop := (List.cons.inj hstop).2
  exact congrArg₂ Locus.mk (listedSide_inj (String.toList_inj.1 hstart))
    (listedSide_inj (String.toList_inj.1 hstop))

/-- The names in the event can be told from what stands around them in its line. -/
def Event.Listable : Event → Prop
  | .startTag name attributes _ _ =>
    ' ' ∉ name.toList ∧ ∀ a ∈ attributes, IsListableName a.name.toList
  | .endTag .. => True
  | .text .. => True
  | .comment .. => True
  | .warning .. => True

section

variable {span span' : Span}

theorem startTag_listed_inj {name name' : String} {attributes attributes' : List Attribute}
    {unary unary' : Bool} (hlisted : (Event.startTag name attributes unary span).Listable)
    (hlisted' : (Event.startTag name' attributes' unary' span').Listable)
    (h : (Event.startTag name attributes unary span).listed =
      (Event.startTag name' attributes' unary' span').listed) :
    (Event.startTag name attributes unary span).unplaced =
      (Event.startTag name' attributes' unary' span').unplaced := by
  have hline : ∀ (name : String) (attributes : List Attribute) (unary : Bool) (span : Span),
      (Event.startTag name attributes unary span).listed.toList =
        "START name=".toList ++ (name.toList ++ ' ' :: ("attrs=[".toList ++
          (attributesListed attributes ++ ']' :: ' ' ::
            ("unary=".toList ++ (listedFlag unary).toList)))) := by
    intro name attributes unary span
    simp [Event.listed, attributesListed, String.toList_intercalate, Function.comp_def]
  have hlist := congrArg String.toList h
  rw [hline, hline, List.append_cancel_left_eq] at hlist
  obtain ⟨hname, hlist⟩ := append_cons_inj_of_not_mem hlisted.1 hlisted'.1 hlist
  rw [List.append_cancel_left_eq] at hlist
  obtain ⟨hattributes, hlist⟩ := attributesListed_inj hlisted.2 hlisted'.2 hlist
  rw [List.append_cancel_left_eq] at hlist
  rw [Event.unplaced, Event.unplaced, String.toList_inj.1 hname, hattributes,
    listedFlag_inj (String.toList_inj.1 hlist)]

theorem text_listed_inj {content content' : String} {span span' : Option Span}
    (h : (Event.text content span).listed = (Event.text content' span').listed) :
    (Event.text content span).unplaced = (Event.text content' span').unplaced := by
  have hline : ∀ (content : String) (span : Option Span), (Event.text content span).listed.toList =
      "CHARS text=".toList ++ ((quoted content).toList ++
        (" raw=".toList ++ (listedFlag span.isNone).toList)) := by
    intro content span
    simp [Event.listed]
  have hlist := congrArg String.toList h
  rw [hline, hline, List.append_cancel_left_eq] at hlist
  obtain ⟨rfl, hflag⟩ := quoted_append_inj hlist
  rw [List.append_cancel_left_eq] at hflag
  have hnone := listedFlag_inj (String.toList_inj.1 hflag)
  cases span <;> cases span' <;> first | rfl | cases hnone

theorem warning_listed_inj {message message' : String} {range range' : Locus}
    (h : (Event.warning message range).listed = (Event.warning message' range').listed) :
    message = message' ∧ range = range' := by
  have hline : ∀ (message : String) (range : Locus), (Event.warning message range).listed.toList =
      "WARN msg=".toList ++ ((quoted message).toList ++
        (" at=".toList ++ (listedRange range).toList)) := by
    intro message range
    simp [Event.listed]
  have hlist := congrArg String.toList h
  rw [hline, hline, List.append_cancel_left_eq] at hlist
  obtain ⟨hmessage, hrange⟩ := quoted_append_inj hlist
  rw [List.append_cancel_left_eq] at hrange
  exact ⟨hmessage, listedRange_inj (String.toList_inj.1 hrange)⟩

/-- The two characters that the line of an event begins with. -/
def Event.mark : Event → List Char
  | .startTag .. => ['S', 'T']
  | .endTag .. => ['E', 'N']
  | .text .. => ['C', 'H']
  | .comment .. => ['C', 'O']
  | .warning .. => ['W', 'A']

theorem Event.take_listed (e : Event) : e.listed.toList.take 2 = e.mark := by
  cases e <;> simp [listed, mark]

theorem Event.listed_inj {e e' : Event} (he : e.Listable) (he' : e'.Listable)
    (h : e.listed = e'.listed) : e.unplaced = e'.unplaced := by
  have hmark : e.mark = e'.mark := by rw [← take_listed, ← take_listed, h]
  -- events of different kinds differ in their first two characters
  cases e <;> cases e' <;> simp [mark] at hmark
  case startTag.startTag => exact startTag_listed_inj he he' h
  case endTag.endTag name _ name' _ =>
    have hname : "END name=" ++ name = "END name=" ++ name' := h
    rw [unplaced, unplaced, (String.append_right_inj _).1 hname]
  case text.text => exact text_listed_inj h
  case comment.comment content _ content' _ =>
    have hcontent : "COMMENT text=" ++ quoted content = "COMMENT text=" ++ quoted content' := h
    have hlist := congrArg String.toList ((String.append_right_inj _).1 hcontent)
    rw [← List.append_nil (quoted content).toList, ← List.append_nil (quoted content').toList]
      at hlist
    rw [unplaced, unplaced, (quoted_append_inj hlist).1]
  case warning.warning =>
    obtain ⟨rfl, rfl⟩ := warning_listed_inj h
    rfl

end

/-! ### Listings -/

theorem isListableName_of_readAttributeName? {s name rest : List Char}
    (h : readAttributeName? s = some (name, rest)) : IsListableName name where
  equals := equals_not_mem_of_readAttributeName? h
  bracket := (isReadName_of_readAttributeName? h).not_bracket

theorem blank_not_mem_of_isQualifiedName {name : List Char} (h : isQualifiedName name = true) :
    ' ' ∉ name :=
  not_mem_of_isQualifiedName h (by decide) (by decide)

theorem listable_of_mem_parse {o : Options} {markup : String} {e : Event}
    (h : e ∈ parse o markup) : e.Listable := by
  cases e with
  | startTag name attributes unary span =>
    obtain ⟨p, -, ⟨s, t, rest, -, hread, -, rfl, -, rfl⟩ | ⟨hname, -, rfl⟩⟩ :=
      origin_of_startTag_mem_parse h
    · obtain ⟨hname, hattributes⟩ := exists_read_of_readStartTag? hread
      refine ⟨by simpa using blank_not_mem_of_isQualifiedName hname, fun a ha => ?_⟩
      obtain ⟨raw, hraw, hsame⟩ := exists_of_mem_attributesFrom ha
      obtain ⟨u, after, hattribute⟩ := hattributes raw hraw
      rw [hsame, String.toList_ofList]
      exact isListableName_of_readAttributeName? hattribute
    · refine ⟨?_, by simp⟩
      unfold Piece.endTagName? at hname
      split at hname
      · obtain ⟨t, hread, rfl⟩ := Option.map_eq_some_iff.1 hname
        simpa using blank_not_mem_of_isQualifiedName (isQualifiedName_of_readEndTag? hread)
      · cases hname
  | endTag name span => trivial
  | text content span => trivial
  | comment content span => trivial
  | warning message range => trivial

theorem map_listed_inj {events events' : List Event} (hlisted : ∀ e ∈ events, e.Listable)
    (hlisted' : ∀ e ∈ events', e.Listable)
    (h : events.map Event.listed = events'.map Event.listed) :
    events.map Event.unplaced = events'.map Event.unplaced := by
  induction events generalizing events' with
  | nil =>
    obtain rfl : events' = [] := by simpa using h.symm
    rfl
  | cons e events ih =>
    cases events' with
    | nil => cases h
    | cons e' events' =>
      obtain ⟨he, hlisted⟩ := List.forall_mem_cons.1 hlisted
      obtain ⟨he', hlisted'⟩ := List.forall_mem_cons.1 hlisted'
      obtain ⟨hline, hlines⟩ := List.cons.inj h
      rw [List.map_cons, List.map_cons, Event.listed_inj he he' hline, ih hlisted hlisted' hlines]

/-- A listing of what is parsed leaves out the positions and nothing else. -/
theorem listing_eq_iff (o o' : Options) (markup markup' : String) :
    listing (parse o markup) = listing (parse o' markup') ↔
      (parse o markup).map Event.unplaced = (parse o' markup').map Event.unplaced := by
  constructor
  · intro h
    exact map_listed_inj (fun _ => listable_of_mem_parse) (fun _ => listable_of_mem_parse)
      (List.append_cancel_right h)
  · intro h
    have hlisted : ∀ events : List Event,
        events.map Event.listed = (events.map Event.unplaced).map Event.listed := by
      intro events
      rw [List.map_map]
      exact List.map_congr_left fun e _ => e.listed_unplaced.symm
    rw [listing, listing, hlisted, h, ← hlisted]

/-- The name `]` is told from the bracket behind the attributes by its sign. -/
example : listing (parse .plain "<a :[\"\" \n]=x ] unary=true/>") =
    ["START name=a attrs=[:[\"\" \n]=\"x\" ]=\"\" unary=\"true/\"] unary=false",
      "WARN msg=\"tag <a> has no matching end tag.\" at=0..27", "END name=a", "EOF"] := by
  cbv

end HtmlTemplate.Markup
