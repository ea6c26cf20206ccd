import HtmlTemplate.Proofs.Scan.Constructs
import HtmlTemplate.Proofs.Scan.OpenTags
import HtmlTemplate.Proofs.Scan.Texts
import Mathlib.Data.List.Perm.Basic

/-!
# Reading by offsets

Reading markup as it is done on bytes, with every slice, difference and assertion checked: each
round looks at the text from the offset on that was reached, and moves the offset by what a matcher
found. A round does what a step of the trace does (`State.round_eq`), so no check fails, every round
but one that ends reading moves the offset, and the events are those of the trace (`run_eq`).
-/

namespace HtmlTemplate.Markup.Scan

open Text

/-- The state behind a step of the trace. -/
def State.after (st : State) (step : Step) : State :=
  ⟨st.position + extent step.source, step.opened.reverse,
    st.events ++ step.pieces.flatMap Piece.events⟩

/-! ### Constructs -/

def State.comment (o : Options) (st : State) (rest : List Char) (m : CommentOffsets) :
    Checked State := do
  let start := st.position
  if o.keepComments then
    let text ← slice rest m.start m.stop
    let span ← span start (start + m.length)
    return { st with position := start + m.length }.emit [.comment (String.ofList text) span]
  else return { st with position := start + m.length }

def State.endTag (st : State) (rest : List Char) (m : EndTagOffsets) : Checked State := do
  let start := st.position
  let name := String.ofList (← slice rest 2 (2 + m.nameLength))
  { st with position := start + m.length }.close (some name) start (start + m.length)

/-- A start tag, with the line feed after it that some elements drop. -/
def State.openTag (o : Options) (source : List Char) (st : State) (rest : List Char)
    (m : StartTagOffsets) : Checked State := do
  let start := st.position
  let (st, tag) ← { st with position := start + m.length }.startTag o rest start m
  let behind ← sliceFrom source st.position
  return if dropsFirstLineFeed tag && ['\n'].isPrefixOf behind then
    { st with position := st.position + 1 }
  else st

/-- The construct at the offset, if there is a complete one. -/
def State.structural (o : Options) (source : List Char) (st : State) : Checked (Option State) := do
  let rest ← sliceFrom source st.position
  match ← comment? rest with
  | some m => return some (← st.comment o rest m)
  | none =>
  match conditionalComment? rest with
  | some n => return some { st with position := st.position + n }
  | none =>
  match ← doctype? rest with
  | some n => return some { st with position := st.position + n }
  | none =>
  match ← endTag? rest with
  | some m => return some (← st.endTag rest m)
  | none =>
  match ← startTag? rest with
  | some m => return some (← st.openTag o source rest m)
  | none => return none

section

variable {st : State} {before s : List Char} {opened : List OpenTag} (h : st.At before opened)
include h

theorem State.comment_eq {m : CommentOffsets} {t : Taken (List Char)}
    (hslice : slice s m.start m.stop = .ok t.found) (hlength : m.length = extent t.source)
    (o : Options) :
    st.comment o s m =
      .ok (st.after ⟨[⟨.comment, st.position, t.source,
        if o.keepComments then [.comment (String.ofList t.found) ⟨st.position, extent t.source⟩]
        else []⟩], opened, t.rest⟩) := by
  unfold State.comment State.after
  simp only [hslice, hlength, ok_bind, span_eq rfl, ← h.items]
  split <;> simp [State.emit, Step.source]

theorem State.endTag_eq {t : Taken (List Char)} (hread : readEndTag? s = some t) :
    st.endTag s ⟨extent t.found, extent t.source⟩ =
      let closed := closeNamed opened (String.ofList t.found) ⟨st.position, extent t.source⟩
      .ok (st.after ⟨[⟨.endTag, st.position, t.source, closed.1⟩], closed.2, t.rest⟩) := by
  have hname : slice s 2 (2 + extent t.found) = .ok t.found := by
    unfold readEndTag? at hread
    split at hread
    · split at hread
      · cases hread
      · next name after hname =>
        split at hread
        · cases hread
        · obtain rfl := by simpa using hread
          exact slice_eq (t := ['<', '/']) (v := after) (by simp [readName?_append hname]) rfl rfl
    · cases hread
  unfold State.endTag State.after
  have hitems : { st with position := st.position + extent t.source }.items = opened.reverse :=
    h.items
  simp only [hname, ok_bind]
  rw [State.close_name hitems _ rfl]
  simp [Step.source]

theorem State.openTag_eq (o : Options) {m : StartTagOffsets} {t : StartTag} {rest : List Char}
    (hm : m.Describe s t) (happend : t.source ++ rest = s) :
    st.openTag o (before ++ s) s m =
      .ok (st.after (takeStartTag o opened st.position t rest)) := by
  have hbehind : sliceFrom (before ++ s) (st.position + extent t.source) = .ok rest :=
    sliceFrom_eq (t := before ++ t.source) (by rw [List.append_assoc, happend])
      (by rw [extent_append, h.position])
  have hitems : { st with position := st.position + extent t.source }.items = opened.reverse :=
    h.items
  unfold State.openTag State.after
  simp only [hm.length]
  rw [State.startTag_eq hitems o hm st.position rest]
  simp only [ok_bind, hbehind, source_takeStartTag, extent_append]
  split <;> rfl

/-- The construct at the offset is the one that a step of the trace takes. -/
theorem State.structural_eq (o : Options) :
    st.structural o (before ++ s) = .ok ((takeConstruct? o opened st.position s).map st.after) := by
  have hmove : ∀ (kind : PieceKind) (source rest : List Char),
      { st with position := st.position + extent source } =
        st.after ⟨[⟨kind, st.position, source, []⟩], opened, rest⟩ := by
    intro kind source rest
    simp [State.after, Step.source, ← h.items]
  unfold State.structural takeConstruct?
  rw [h.position, sliceFrom_append, ok_bind, ← h.position]
  have hcomment := finds_comment? s
  cases hread : readComment? s with
  | some t =>
    rw [hread] at hcomment
    obtain ⟨m, hm, hslice, hlength⟩ := hcomment
    simp only [hm, ok_bind, State.comment_eq h hslice hlength]
    rfl
  | none =>
  rw [hread] at hcomment
  rw [show comment? s = .ok none from hcomment, ok_bind, conditionalComment?_eq]
  cases readConditionalComment? s with
  | some t => exact congrArg (fun st => Except.ok (some st)) (hmove _ _ _)
  | none =>
  rw [doctype?_eq]
  cases readDoctype? s with
  | some t => exact congrArg (fun st => Except.ok (some st)) (hmove _ _ _)
  | none =>
  rw [endTag?_eq]
  cases hread : readEndTag? s with
  | some t =>
    simp only [Option.map_some, Option.map_none, ok_bind, State.endTag_eq h hread]
    rfl
  | none =>
  have hstart := finds_startTag? s
  cases hread : readStartTag? s with
  | some found =>
    rw [hread] at hstart
    obtain ⟨m, hm, hdescribe⟩ := hstart
    simp only [Option.map_none, ok_bind, hm,
      State.openTag_eq h o hdescribe (readStartTag?_append hread)]
    rfl
  | none =>
    rw [hread] at hstart
    rw [show startTag? s = .ok none from hstart]
    rfl

end

/-! ### Text -/

/-- The run of text at the offset. It may be empty. -/
def State.text (source : List Char) (st : State) : Checked State := do
  let start := st.position
  let rest ← sliceFrom source start
  let n ← textEnd rest
  if n = 0 then return st
  else
    let content ← sliceTo rest n
    let span ← span start (start + n)
    return { st with position := start + n }.emit [.text (String.ofList content) span]

/-- A construct, or a run of text if there is none. -/
def State.markup (o : Options) (source : List Char) (st : State) : Checked State := do
  let rest ← sliceFrom source st.position
  if ['<'].isPrefixOf rest then
    match ← st.structural o source with
    | some st => return st
    | none => st.text source
  else st.text source

/-- Hands all that is left over as text. -/
def State.stalled (source : List Char) (st : State) : Checked State := do
  let start := st.position
  let rest := String.ofList (← sliceFrom source start)
  let span ← span start (extent source)
  let st := st.emit [.text rest span]
  let st := if st.items.isEmpty then st else st.emit [malformedEnd rest (extent source)]
  return { st with position := extent source }

/-! ### Raw text -/

def removeFirst : List Char → Checked (List Char)
  | [] => .error .index
  | _ :: s => .ok s

/-- A text without the line feed that it begins with, if that is to be dropped. -/
def dropLineFeed (drops : Bool) (text : List Char) : Checked (List Char) :=
  if drops && ['\n'].isPrefixOf text then removeFirst text else .ok text

/-- The text of a raw-text element with the given content. -/
def rawTextIn (folded : String) (content : List Char) : Checked (List Char) :=
  if keepsWrappers folded then dropLineFeed (dropsFirstLineFeed folded) content
  else do dropLineFeed (dropsFirstLineFeed folded) (← unwrapAll content)

/-- The content of a raw-text element, and its end tag if it has one. -/
def State.rawText (source : List Char) (tag : String) (st : State) : Checked State := do
  let start := st.position
  let rest ← sliceFrom source start
  let close ← rawClose? rest (lowercase tag).toList
  let content ← sliceTo rest (close.elim (extent rest) Prod.fst)
  let text ← rawTextIn (lowercase tag) content
  let st := if text.isEmpty then st else st.emit [.text (String.ofList text) none]
  match close with
  | some (lt, gt) => State.close { st with position := start + gt } tag (start + lt) (start + gt)
  | none => return { st with position := extent source }

theorem dropLineFeed_eq (drops : Bool) (text : List Char) :
    dropLineFeed drops text =
      .ok (match drops, text with
        | true, '\n' :: rest => rest
        | _, _ => text) := by
  unfold dropLineFeed
  split
  · next hfeed =>
    obtain ⟨rfl, hbegin⟩ := Bool.and_eq_true_iff.1 hfeed
    obtain ⟨after, rfl⟩ := List.isPrefixOf_iff_prefix.1 hbegin
    rfl
  · next hother =>
    split
    · simp at hother
    · rfl

theorem rawTextIn_eq (folded : String) (content : List Char) :
    rawTextIn folded content = .ok (rawTextOf folded content) := by
  unfold rawTextIn rawTextOf
  rw [unwrapAll_eq, ok_bind, dropLineFeed_eq, dropLineFeed_eq]
  cases keepsWrappers folded <;> rfl

section

variable {st : State} {before s : List Char} {opened : List OpenTag} (h : st.At before opened)
include h

theorem State.text_eq :
    st.text (before ++ s) =
      .ok (match readText (lastClose (before ++ s)) st.position s with
        | ([], _) => st
        | (c :: run, rest) =>
          st.after ⟨[⟨.text, st.position, c :: run,
            [.text (String.ofList (c :: run)) (some ⟨st.position, extent (c :: run)⟩)]⟩],
            opened, rest⟩) := by
  have hend := textEnd_eq before s
  have happend := readText_append (lastClose (before ++ s)) (extent before) s
  unfold State.text
  simp only [h.position, sliceFrom_append, ok_bind, hend]
  generalize readText (lastClose (before ++ s)) (extent before) s = found at happend ⊢
  rcases found with ⟨_ | ⟨c, run⟩, rest⟩
  · rfl
  · have hne : extent (c :: run) ≠ 0 := Nat.ne_of_gt (extent_pos (by simp))
    have hcontent : sliceTo s (extent (c :: run)) = .ok (c :: run) := by
      rw [← happend, sliceTo_append]
    rw [if_neg hne, hcontent]
    simp only [ok_bind, span_eq rfl, State.after, State.emit, Step.source, h.position, ← h.items,
      pure_eq_ok, List.flatMap_cons, List.flatMap_nil, List.append_nil]

theorem State.markup_eq (o : Options) :
    st.markup o (before ++ s) =
      .ok (match takeConstruct? o opened st.position s with
        | some step => st.after step
        | none =>
          match readText (lastClose (before ++ s)) st.position s with
          | ([], _) => st
          | (c :: run, rest) =>
            st.after ⟨[⟨.text, st.position, c :: run,
              [.text (String.ofList (c :: run)) (some ⟨st.position, extent (c :: run)⟩)]⟩],
              opened, rest⟩) := by
  have hrest : sliceFrom (before ++ s) st.position = .ok s := by rw [h.position, sliceFrom_append]
  unfold State.markup
  rw [hrest, ok_bind]
  split
  · rw [State.structural_eq h, ok_bind]
    cases takeConstruct? o opened st.position s with
    | some step => rfl
    | none => exact State.text_eq h
  · next hopening =>
    have hnone : takeConstruct? o opened st.position s = none := by
      cases s with
      | nil => rfl
      | cons c s =>
        refine takeConstruct?_of_ne o opened st.position ?_ s
        rintro rfl
        exact hopening (by simp)
    rw [hnone]
    exact State.text_eq h

theorem State.stalled_eq :
    st.stalled (before ++ s) = .ok (st.after (takeRest opened st.position s)) := by
  have hitems : ∀ events, (st.emit events).items.isEmpty = opened.isEmpty := by
    intro events
    rw [State.emit, h.items, List.isEmpty_reverse]
  unfold State.stalled takeRest
  simp only [h.position, sliceFrom_append, ok_bind, span_eq (extent_append before s).symm, hitems]
  split <;> simp [State.after, State.emit, Step.source, h.position, h.items, Span.stop]

theorem State.rawText_eq (tag : String) :
    st.rawText (before ++ s) tag = .ok (st.after (takeRawText tag opened st.position s)) := by
  have happend := readRawExtent_append (lowercase tag).toList s
  have hrest : (readRawExtent (lowercase tag).toList s).endTag = [] →
      (readRawExtent (lowercase tag).toList s).rest = [] :=
    rest_readRawExtent_eq_nil
  unfold State.rawText takeRawText
  simp only [h.position, sliceFrom_append, ok_bind, rawClose?_eq, closeIn]
  generalize readRawExtent (lowercase tag).toList s = raw at happend hrest ⊢
  have hcontent : sliceTo s (extent raw.content) = .ok raw.content := by
    rw [← happend, sliceTo_append]
  by_cases hopen : raw.endTag = []
  · rw [hrest hopen, hopen, List.append_nil, List.append_nil] at happend
    rw [if_pos hopen, if_pos (List.isEmpty_iff.2 hopen)]
    rw [happend] at hcontent
    simp only [Option.elim_none, hcontent, ok_bind, rawTextIn_eq, happend]
    split <;> simp [State.after, State.emit, Step.source, h.position, h.items]
  · rw [if_neg hopen, if_neg (by simpa using hopen)]
    simp only [Option.elim_some, hcontent, ok_bind, rawTextIn_eq]
    have hstop : st.position + extent raw.content + extent raw.endTag =
        st.position + (extent raw.content + extent raw.endTag) :=
      Nat.add_assoc _ _ _
    rw [← h.position, State.close_name (by split <;> exact h.items) tag hstop]
    split <;> simp [State.after, State.emit, Step.source, h.position]

end

/-! ### Rounds -/

/-- What is done in a round, by the innermost open element. -/
def State.round (o : Options) (source : List Char) (st : State) : Checked State :=
  match st.items.getLast?.filter fun t => o.isRawText t.name with
  | some t => st.rawText source t.name
  | none => st.markup o source

/-- Rounds until the end of the source is reached, and the offsets at which they began. A round that
does not move the offset is the last one. -/
def run (o : Options) (source : List Char) (rounds : Nat) (st : State) (cursors : List Nat) :
    Checked (State × List Nat) :=
  if st.position < extent source then
    match rounds with
    | 0 => .error .rounds
    | rounds + 1 => do
      let next ← st.round o source
      require (isBoundary source next.position = true)
      if next.position = st.position then
        return (← next.stalled source, cursors ++ [st.position])
      else run o source rounds next (cursors ++ [st.position])
  else .ok (st, cursors)

/-- Reads markup in as many rounds as it has bytes at most. -/
def read (o : Options) (markup : String) : Checked (List Event × List Nat) := do
  let source := markup.toList
  let (st, cursors) ← run o source (extent source) ⟨0, [], []⟩ []
  let st ← st.close none st.position st.position
  return (st.events, cursors)

section

variable {st : State} {before s : List Char} {opened : List OpenTag} (h : st.At before opened)
include h

theorem State.round_of_rawTextElement? (o : Options) :
    st.round o (before ++ s) =
      match rawTextElement? o opened with
      | some tag => st.rawText (before ++ s) tag
      | none => st.markup o (before ++ s) := by
  rw [State.round, h.items, List.getLast?_reverse]
  cases opened with
  | nil => rfl
  | cons t outer =>
    rw [List.head?_cons, Option.filter_some, rawTextElement?]
    cases o.isRawText t.name <;> rfl

/-- A round does a step of the trace, and moves the offset, unless the step takes all that is left
because nothing can be read. -/
theorem State.round_eq (o : Options) (hs : s ≠ []) :
    let next := step o (lastClose (before ++ s)) opened st.position s
    (st.round o (before ++ s) = .ok (st.after next) ∧ st.position < (st.after next).position) ∨
      (st.round o (before ++ s) = .ok st ∧ next = takeRest opened st.position s) := by
  intro next
  have hmoves : st.position < (st.after next).position := by
    have := extent_pos (source_step_ne_nil o (lastClose (before ++ s)) opened st.position hs)
    exact Nat.lt_add_of_pos_right this
  suffices hround : st.round o (before ++ s) = .ok (st.after next) ∨
      (st.round o (before ++ s) = .ok st ∧ next = takeRest opened st.position s) from
    hround.imp_left fun hround => ⟨hround, hmoves⟩
  rw [State.round_of_rawTextElement? h]
  unfold next step
  cases rawTextElement? o opened with
  | some tag => exact .inl (State.rawText_eq h tag)
  | none =>
    rw [State.markup_eq h, takeMarkup]
    cases takeConstruct? o opened st.position s with
    | some step => exact .inl rfl
    | none =>
      rcases readText (lastClose (before ++ s)) st.position s with ⟨_ | ⟨c, run⟩, rest⟩
      · exact .inr ⟨rfl, rfl⟩
      · exact .inl rfl

/-- Behind a step the state is the one that the trace has there. -/
theorem State.At.after (next : Step) :
    (st.after next).At (before ++ next.source) next.opened where
  position := by rw [State.after, h.position, extent_append]
  items := rfl

end

/-- The offsets at which rounds began, from an offset on: each is a boundary, each is greater than
the one before it, and the end of the source is greater than all. -/
structure Cursors (source : List Char) (start : Nat) (cursors : List Nat) : Prop where
  boundary : ∀ n ∈ cursors, isBoundary source n = true
  start_le : ∀ n ∈ cursors, start ≤ n
  increasing : (cursors ++ [extent source]).Pairwise (· < ·)

theorem Cursors.nil (source : List Char) (start : Nat) : Cursors source start [] where
  boundary := by simp
  start_le := by simp
  increasing := List.pairwise_singleton _ _

theorem Cursors.cons {source : List Char} {start next : Nat} {cursors : List Nat}
    (h : Cursors source next cursors) (hstart : isBoundary source start = true)
    (hnext : start < next) (hend : start < extent source) :
    Cursors source start (start :: cursors) where
  boundary := List.forall_mem_cons.2 ⟨hstart, h.boundary⟩
  start_le := by
    refine List.forall_mem_cons.2 ⟨Nat.le_refl _, fun n hn => ?_⟩
    have := h.start_le n hn
    omega
  increasing := by
    rw [List.cons_append, List.pairwise_cons]
    refine ⟨fun n hn => ?_, h.increasing⟩
    obtain hn | hn := List.mem_append.1 hn
    · have := h.start_le n hn
      omega
    · rwa [List.mem_singleton.1 hn]

/-- There are no more rounds than bytes. -/
theorem Cursors.length_le {source : List Char} {start : Nat} {cursors : List Nat}
    (h : Cursors source start cursors) : cursors.length ≤ extent source := by
  have hpairs := List.pairwise_append.1 h.increasing
  have hsubset : cursors ⊆ List.range (extent source) := by
    intro n hn
    exact List.mem_range.2 (hpairs.2.2 n hn _ (List.mem_singleton_self _))
  have hnodup : cursors.Nodup := hpairs.1.imp Nat.ne_of_lt
  simpa using (List.subperm_of_subset hnodup hsubset).length_le

/-- The state at the end of a trace. -/
def State.finish (st : State) (source : List Char) (found : List Piece × List OpenTag) : State :=
  ⟨extent source, found.2.reverse, st.events ++ found.1.flatMap Piece.events⟩

theorem run_of_at_end {o : Options} {rounds : Nat} {st : State} {before : List Char}
    {opened : List OpenTag} (h : st.At before opened) (lastClose : Option Nat)
    (cursors : List Nat) :
    run o before rounds st cursors =
      .ok (st.finish before (traceFrom o lastClose opened st.position []), cursors) := by
  have hend : ¬ st.position < extent before := by
    rw [h.position]
    exact Nat.lt_irrefl _
  rw [run.eq_def, if_neg hend]
  simp [State.finish, traceFrom, ← h.position, ← h.items]

/-- Rounds go on behind a step of the trace, or end with one that takes all that is left. -/
theorem run_succ (o : Options) {st : State} {before s : List Char} {opened : List OpenTag}
    (h : st.At before opened) (hs : s ≠ []) (rounds : Nat) (cursors : List Nat) :
    let next := step o (lastClose (before ++ s)) opened st.position s
    (st.position < (st.after next).position ∧
      run o (before ++ s) (rounds + 1) st cursors =
        run o (before ++ s) rounds (st.after next) (cursors ++ [st.position])) ∨
    (next = takeRest opened st.position s ∧
      run o (before ++ s) (rounds + 1) st cursors =
        .ok (st.after next, cursors ++ [st.position])) := by
  intro next
  have hlt : st.position < extent (before ++ s) := by
    rw [h.position, extent_append]
    exact Nat.lt_add_of_pos_right (extent_pos hs)
  rw [run, if_pos hlt]
  obtain ⟨hround, hmoves⟩ | ⟨hround, hrest⟩ := State.round_eq h o hs
  · have hwhole : before ++ next.source ++ next.rest = before ++ s := by
      rw [List.append_assoc, step_append]
    have hboundary : isBoundary (before ++ s) (st.after next).position = true := by
      rw [(h.after next).position, ← hwhole, isBoundary_append]
    refine .inl ⟨hmoves, ?_⟩
    rw [hround, ok_bind, require_of hboundary, ok_bind, if_neg (Nat.ne_of_gt hmoves)]
  · have hboundary : isBoundary (before ++ s) st.position = true := by
      rw [h.position, isBoundary_append]
    refine .inr ⟨hrest, ?_⟩
    rw [hround, ok_bind, require_of hboundary, ok_bind, if_pos rfl, State.stalled_eq h, ok_bind,
      ← hrest]
    rfl

/-- Rounds that begin where the trace is go to its end. No check fails on the way, and as many
rounds as there are bytes are enough. -/
theorem run_eq (o : Options) {rounds : Nat} {st : State} {before s : List Char}
    {opened : List OpenTag} (h : st.At before opened) (hrounds : extent s ≤ rounds)
    (cursors : List Nat) :
    ∃ visited, Cursors (before ++ s) st.position visited ∧
      run o (before ++ s) rounds st cursors =
        .ok (st.finish (before ++ s) (traceFrom o (lastClose (before ++ s)) opened st.position s),
          cursors ++ visited) := by
  induction rounds generalizing st before s opened cursors with
  | zero =>
    obtain rfl : s = [] := eq_nil_of_extent_eq_zero (Nat.le_zero.1 hrounds)
    exact ⟨[], .nil _ _, by rw [List.append_nil, List.append_nil, run_of_at_end h]⟩
  | succ rounds ih =>
    by_cases hs : s = []
    · subst hs
      exact ⟨[], .nil _ _, by rw [List.append_nil, List.append_nil, run_of_at_end h]⟩
    have happend := step_append o (lastClose (before ++ s)) opened st.position s
    have hpos := extent_pos (source_step_ne_nil o (lastClose (before ++ s)) opened st.position hs)
    have hstart : isBoundary (before ++ s) st.position = true := by
      rw [h.position, isBoundary_append]
    have hlt : st.position < extent (before ++ s) := by
      rw [h.position, extent_append]
      exact Nat.lt_add_of_pos_right (extent_pos hs)
    rw [traceFrom_of_ne_nil _ _ _ _ hs]
    obtain ⟨hmoves, hrun⟩ | ⟨hrest, hrun⟩ := run_succ o h hs rounds cursors
    · generalize step o (lastClose (before ++ s)) opened st.position s = next at *
      have hwhole : before ++ next.source ++ next.rest = before ++ s := by
        rw [List.append_assoc, happend]
      have hextent : extent next.source + extent next.rest = extent s := by
        rw [← extent_append, happend]
      obtain ⟨visited, hvisited, hmore⟩ :=
        ih (h.after next) (s := next.rest) (by omega) (cursors ++ [st.position])
      rw [hwhole] at hvisited hmore
      refine ⟨st.position :: visited, hvisited.cons hstart hmoves hlt, ?_⟩
      rw [hrun, hmore]
      simp [State.finish, State.after]
    · refine ⟨[st.position], (Cursors.nil _ _).cons hstart hlt hlt, ?_⟩
      rw [hrun, hrest]
      simp [State.finish, State.after, takeRest, traceFrom, Step.source, h.position]

/-- Reading by offsets gives the events of the markup. No slice, index or difference is out of range
or inside a character, and no assertion fails, in reading or in decoding text. The rounds of reading
begin at boundaries, each behind the one before it, and there are no more of them than bytes. -/
theorem read_eq_ok_parse (o : Options) (markup : String) :
    (∃ cursors, read o markup = .ok (parse o markup, cursors) ∧
      (cursors ++ [markup.utf8ByteSize]).Pairwise (· < ·) ∧
      (∀ n ∈ cursors, (String.Pos.Raw.mk n).IsValid markup) ∧
      cursors.length ≤ markup.utf8ByteSize) ∧
    decode textReference? markup.toList = .ok (decodeContent markup).toList := by
  constructor
  · have hstart : State.At [] [] ⟨0, [], []⟩ := ⟨rfl, rfl⟩
    obtain ⟨cursors, hcursors, hrun⟩ := run_eq o hstart (Nat.le_refl (extent markup.toList)) []
    rw [List.nil_append] at hcursors hrun
    refine ⟨cursors, ?_, ?_, ?_, ?_⟩
    · unfold read
      simp only [hrun, ok_bind]
      rw [State.close_all rfl, ok_bind]
      simp only [State.finish, extent_toList, List.nil_append]
      rfl
    · rw [← extent_toList]
      exact hcursors.increasing
    · exact fun n hn => isBoundary_iff_isValid.1 (hcursors.boundary n hn)
    · rw [← extent_toList]
      exact hcursors.length_le
  · rw [agrees_textReference.decode_eq, decodeContent, String.toList_ofList]

end HtmlTemplate.Markup.Scan
