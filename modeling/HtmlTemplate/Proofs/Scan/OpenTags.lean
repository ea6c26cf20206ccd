import HtmlTemplate.Proofs.Balance
import HtmlTemplate.Proofs.Scan.Attributes
import HtmlTemplate.Proofs.Scan.References
import Mathlib.Data.List.Basic

/-!
# The state of reading by offsets

Reading keeps the offset it is at, the open elements in the order in which they were opened, and
the events so far. A span is made from two offsets that must be in order, and elements are taken off
the open ones from an index on that must not be past them. The open elements are those of the trace
in reverse (`State.At`), and closing one has the effect that it has there (`State.close_name`,
`State.close_all`), as has a start tag (`State.startTag_eq`).
-/

namespace HtmlTemplate.Markup.Scan

open Text

structure State where
  position : Nat
  /-- The open elements, outermost first. -/
  items : List OpenTag
  events : List Event

def State.emit (st : State) (events : List Event) : State :=
  { st with events := st.events ++ events }

/-- The state is the one that the trace has behind a first part of the markup. -/
structure State.At (before : List Char) (opened : List OpenTag) (st : State) : Prop where
  position : st.position = extent before
  items : st.items = opened.reverse

def span (start stop : Nat) : Checked Span := do
  require (start ≤ stop)
  return .between start stop

theorem span_eq {start stop length : Nat} (h : start + length = stop) :
    span start stop = .ok ⟨start, length⟩ := by
  subst h
  simp [span, Span.between]

/-! ### Open elements -/

/-- The index of the last entry that passes a test. -/
def lastIndex? {α : Type} (p : α → Bool) : List α → Option Nat
  | [] => none
  | a :: l =>
    match lastIndex? p l with
    | some i => some (i + 1)
    | none => if p a then some 0 else none

theorem lastIndex?_eq_none {α : Type} {p : α → Bool} {l : List α} (h : ∀ a ∈ l, p a = false) :
    lastIndex? p l = none := by
  induction l with
  | nil => rfl
  | cons a l ih => simp [lastIndex?, ih fun b hb => h b (by simp [hb]), h a (by simp)]

theorem lastIndex?_append_cons {α : Type} {p : α → Bool} {a : α} (ha : p a = true) (l : List α)
    {more : List α} (h : ∀ b ∈ more, p b = false) :
    lastIndex? p (l ++ a :: more) = some l.length := by
  induction l with
  | nil => simp [lastIndex?, lastIndex?_eq_none h, ha]
  | cons b l ih => simp [lastIndex?, ih]

/-- Takes the entries from an index on off, innermost first. -/
def popFrom (items : List OpenTag) (index : Nat) : Checked (List OpenTag × List OpenTag) := do
  require (index ≤ items.length)
  return (items.take index, (items.drop index).reverse)

theorem popFrom_append (outer inner : List OpenTag) :
    popFrom (outer ++ inner) outer.length = .ok (outer, inner.reverse) := by
  simp [popFrom]

/-- What is reported of closed elements. All but the last have no end tag of their own, nor has the
last one if none is `named`. -/
def closeEvents (named : Bool) (span : Span) (closed : List OpenTag) : List Event :=
  let matched := closed.length - 1
  closed.zipIdx.flatMap fun entry =>
    if entry.2 ≠ matched ∨ named = false then entry.1.abandon span
    else [.endTag entry.1.name span]

theorem closeEvents_unnamed (span : Span) (closed : List OpenTag) :
    closeEvents false span closed = closed.flatMap (OpenTag.abandon span) := by
  unfold closeEvents
  simp only [or_true, if_true]
  have h := List.flatMap_map (f := Prod.fst) (g := OpenTag.abandon span) closed.zipIdx
  rw [← h, List.zipIdx_map_fst]

theorem closeEvents_named (span : Span) (inner : List OpenTag) (t : OpenTag) :
    closeEvents true span (inner ++ [t]) =
      inner.flatMap (OpenTag.abandon span) ++ [.endTag t.name span] := by
  have hmatched : (inner ++ [t]).length - 1 = inner.length := by simp
  have hinner : ∀ entry ∈ inner.zipIdx,
      (if entry.2 ≠ inner.length ∨ true = false then entry.1.abandon span
        else [.endTag entry.1.name span]) = entry.1.abandon span := by
    intro entry hentry
    have := List.snd_lt_of_mem_zipIdx hentry
    rw [if_pos (Or.inl (by omega))]
  unfold closeEvents
  rw [hmatched, List.zipIdx_append, List.flatMap_append, List.flatMap_congr hinner,
    ← List.flatMap_map Prod.fst, List.zipIdx_map_fst]
  simp

/-- What an end tag does, or without a name the end of the markup. -/
def State.close (st : State) (name : Option String) (start stop : Nat) : Checked State := do
  let span ← span start stop
  let index := match name with
    | some name => lastIndex? (fun t : OpenTag => t.folded == lowercase name) st.items
    | none => some 0
  match index with
  | none =>
    match name with
    | none => return st
    | some name => return st.emit (strayEndTag name span)
  | some index =>
    let (kept, closed) ← popFrom st.items index
    return { st with items := kept }.emit (closeEvents name.isSome span closed)

theorem State.close_name {st : State} {opened : List OpenTag} (hitems : st.items = opened.reverse)
    (name : String) {start stop length : Nat} (h : start + length = stop) :
    st.close (some name) start stop =
      .ok ⟨st.position, (closeNamed opened name ⟨start, length⟩).2.reverse,
        st.events ++ (closeNamed opened name ⟨start, length⟩).1⟩ := by
  unfold State.close
  rw [span_eq h, hitems]
  simp only [ok_bind]
  obtain ⟨inner, t, outer, rfl, hinner, ht, hclose⟩ | ⟨hother, hclose⟩ :=
    closeNamed_cases opened name ⟨start, length⟩
  · have hreverse : (inner ++ t :: outer).reverse = outer.reverse ++ t :: inner.reverse := by simp
    have hindex : lastIndex? (fun t : OpenTag => t.folded == lowercase name)
        (outer.reverse ++ t :: inner.reverse) = some outer.reverse.length :=
      lastIndex?_append_cons (by simpa using ht) _ (by simpa using hinner)
    rw [hclose, hreverse, hindex]
    simp only [popFrom_append, ok_bind, List.reverse_cons, List.reverse_reverse, Option.isSome_some,
      closeEvents_named]
    rfl
  · have hindex : lastIndex? (fun t : OpenTag => t.folded == lowercase name) opened.reverse =
        none :=
      lastIndex?_eq_none (by simpa using hother)
    rw [hclose, hindex, ← hitems]
    rfl

theorem State.close_all {st : State} {opened : List OpenTag} (hitems : st.items = opened.reverse)
    (position : Nat) :
    st.close none position position =
      .ok ⟨st.position, [], st.events ++ closeAll opened position⟩ := by
  have hpop : popFrom opened.reverse 0 = .ok ([], opened) := by
    have := popFrom_append [] opened.reverse
    rwa [List.nil_append, List.reverse_reverse] at this
  unfold State.close
  rw [span_eq (Nat.add_zero position), hitems]
  simp only [ok_bind, hpop, Option.isSome_none, closeEvents_unnamed]
  rfl

/-! ### Start tags -/

def State.innermostIs (st : State) (name : String) : Bool := st.items.getLast?.any (·.name == name)

/-- Closes an element before a start tag if a rule says so. -/
def State.closeIf (st : State) (rule : Bool) (name : String) (position : Nat) : Checked State :=
  if rule then st.close (some name) position position else .ok st

def State.closeBefore (o : Options) (st : State) (tag : String) (position : Nat) : Checked State :=
  if o.implicitClose then do
    let st ← st.closeIf (st.innermostIs "p" && endsParagraph tag) "p" position
    st.closeIf (o.mayBeLeftOpen tag && st.innermostIs tag) tag position
  else .ok st

/-- The attribute that offsets into a text give. The text stands at the offset `start`. -/
def AttributeOffsets.toAttribute (o : Options) (tag : String) (s : List Char) (start : Nat)
    (a : AttributeOffsets) : Checked Attribute := do
  let name := String.ofList (← slice s a.name.1 a.name.2)
  let lineFeeds :=
    if tag == "a" && name == "href" then o.decodeLineFeedsInLinks else o.decodeLineFeeds
  let value ← decode (attributeReference? lineFeeds) (← a.valueIn s)
  let span ←
    if o.attributeSpans then some <$> span (start + a.start + a.blanks) (start + a.stop)
    else .ok none
  return ⟨name, String.ofList value, span⟩

/-- What a start tag at an offset does, and its name. -/
def State.startTag (o : Options) (st : State) (s : List Char) (start : Nat) (m : StartTagOffsets) :
    Checked (State × String) := do
  let tag := String.ofList (← slice s m.name.1 m.name.2)
  let st ← st.closeBefore o tag (start + m.length)
  let unary := o.isVoid tag || m.slash
  let attributes ← m.attributes.mapM (AttributeOffsets.toAttribute o tag s start)
  let span ← span start (start + m.length)
  let st := if unary then st else { st with items := st.items ++ [.named tag span] }
  return (st.emit [.startTag tag attributes unary span], tag)

theorem State.innermostIs_eq {st : State} {opened : List OpenTag}
    (hitems : st.items = opened.reverse) (name : String) :
    st.innermostIs name = Markup.innermostIs opened name := by
  rw [State.innermostIs, hitems, List.getLast?_reverse]
  cases opened <;> rfl

theorem State.closeIf_eq {st : State} {opened : List OpenTag} (hitems : st.items = opened.reverse)
    (rule : Bool) (name : String) (position : Nat) :
    st.closeIf rule name position =
      .ok ⟨st.position,
        (if rule then closeNamed opened name (.empty position) else ([], opened)).2.reverse,
        st.events ++
          (if rule then closeNamed opened name (.empty position) else ([], opened)).1⟩ := by
  unfold State.closeIf
  cases rule with
  | true => exact st.close_name hitems name (Nat.add_zero position)
  | false => simp [← hitems]

theorem State.closeBefore_eq {st : State} {opened : List OpenTag}
    (hitems : st.items = opened.reverse) (o : Options) (tag : String) (position : Nat) :
    st.closeBefore o tag position =
      .ok ⟨st.position, (Markup.closeBefore o opened tag position).2.reverse,
        st.events ++ (Markup.closeBefore o opened tag position).1⟩ := by
  unfold State.closeBefore Markup.closeBefore
  split
  · rw [State.innermostIs_eq hitems, State.closeIf_eq hitems, ok_bind]
    generalize (if Markup.innermostIs opened "p" && endsParagraph tag then
      closeNamed opened "p" (.empty position) else ([], opened)) = first
    have hitems : first.2.reverse = first.2.reverse := rfl
    rw [State.innermostIs_eq hitems, State.closeIf_eq hitems, List.append_assoc]
  · simp [← hitems]

theorem AttributeOffsets.Describe.toAttribute_eq {s : List Char} {n : Nat} {a : AttributeOffsets}
    {r : RawAttribute} (h : a.Describe s n r) (o : Options) (tag : String) (start : Nat) :
    ∃ found, a.toAttribute o tag s start = .ok found ∧
      ∀ more, attributesFrom o tag (start + n) (r :: more) =
        found :: attributesFrom o tag (start + n + extent r.source) more := by
  have hspan : span (start + a.start + a.blanks) (start + a.stop) =
      .ok ⟨start + n + extent r.gap, extent r.name + extent r.assignment⟩ := by
    rw [h.start, h.blanks, h.stop]
    refine span_eq ?_
    simp only [RawAttribute.source, extent_append]
    omega
  unfold AttributeOffsets.toAttribute
  simp only [h.name, h.value, ok_bind, (agrees_attributeReference _).decode_eq, hspan]
  cases hspans : o.attributeSpans with
  | true => exact ⟨_, rfl, fun more => by simp only [attributesFrom, hspans, if_true]; rfl⟩
  | false => exact ⟨_, rfl, fun more => by simp [attributesFrom, hspans, decodeValue]⟩

theorem mapM_toAttribute {s : List Char} (o : Options) (tag : String) (start : Nat)
    {offsets : List AttributeOffsets} {raw : List RawAttribute} {n : Nat}
    (h : DescribeFrom s n offsets raw) :
    offsets.mapM (AttributeOffsets.toAttribute o tag s start) =
      .ok (attributesFrom o tag (start + n) raw) := by
  induction offsets generalizing raw n with
  | nil =>
    match raw, h with
    | [], _ => rfl
  | cons a offsets ih =>
    match raw, h with
    | r :: raw, ⟨hfirst, hmore⟩ =>
      obtain ⟨found, hfound, hfrom⟩ := hfirst.toAttribute_eq o tag start
      rw [List.mapM_cons, hfound, ok_bind, ih hmore, hfrom, Nat.add_assoc]
      rfl

/-- A start tag does to the state what it does in the trace, whatever follows it. -/
theorem State.startTag_eq {st : State} {opened : List OpenTag} (hitems : st.items = opened.reverse)
    (o : Options) {s : List Char} {m : StartTagOffsets} {t : StartTag} (h : m.Describe s t)
    (start : Nat) (rest : List Char) :
    st.startTag o s start m =
      .ok (⟨st.position, (takeStartTag o opened start t rest).opened.reverse,
        st.events ++ (takeStartTag o opened start t rest).pieces.flatMap Piece.events⟩,
        String.ofList t.name) := by
  have hattributes := mapM_toAttribute o (String.ofList t.name) start h.attributes
  rw [← Nat.add_assoc] at hattributes
  have hstep : (takeStartTag o opened start t rest).opened =
        (if o.isVoid (String.ofList t.name) || t.close.slash then
          (Markup.closeBefore o opened (String.ofList t.name) (start + extent t.source)).2
        else .named (String.ofList t.name) ⟨start, extent t.source⟩ ::
          (Markup.closeBefore o opened (String.ofList t.name) (start + extent t.source)).2) ∧
      (takeStartTag o opened start t rest).pieces.flatMap Piece.events =
        (Markup.closeBefore o opened (String.ofList t.name) (start + extent t.source)).1 ++
          [.startTag (String.ofList t.name)
            (attributesFrom o (String.ofList t.name) (start + 1 + extent t.name) t.attributes)
            (o.isVoid (String.ofList t.name) || t.close.slash) ⟨start, extent t.source⟩] := by
    unfold takeStartTag
    simp only [Span.stop]
    split <;> simp
  unfold State.startTag
  simp only [h.name, ok_bind, State.closeBefore_eq hitems, hattributes, h.length, h.slash,
    span_eq rfl, pure_eq_ok, hstep]
  split <;> simp [State.emit]

/-- A line feed behind a start tag is taken with it if its element drops it. -/
theorem source_takeStartTag (o : Options) (opened : List OpenTag) (start : Nat) (t : StartTag)
    (rest : List Char) :
    (takeStartTag o opened start t rest).source =
      t.source ++
        if dropsFirstLineFeed (String.ofList t.name) && ['\n'].isPrefixOf rest then ['\n']
        else [] := by
  unfold takeStartTag
  simp only
  by_cases hfeed : (dropsFirstLineFeed (String.ofList t.name) && ['\n'].isPrefixOf rest) = true
  · rw [if_pos hfeed]
    obtain ⟨hdrops, hbegin⟩ := Bool.and_eq_true_iff.1 hfeed
    obtain ⟨after, rfl⟩ := List.isPrefixOf_iff_prefix.1 hbegin
    simp [hdrops, Step.source]
  · rw [if_neg hfeed]
    split
    · next hdrops => simp [hdrops] at hfeed
    · simp [Step.source]

end HtmlTemplate.Markup.Scan
