import HtmlTemplate.Proofs.Constructs
import HtmlTemplate.Proofs.Scan.Offsets
import HtmlTemplate.Template.Interpolation
import Mathlib.Data.List.Chain
import Mathlib.Data.List.Forall2
import Mathlib.Data.String.Basic

/-!
# Splitting on delimiters

A text and its parts determine each other up to the blanks around expressions, and the parts are in
a normal form: what is left between the expressions is not split again (`NormalSplit`). Which texts
have an expression is said in terms of first occurrences of the delimiters (`Interpolates`,
`FirstMark`).

What the loop does is one relation (`SplitsFrom`), and every property is an induction over it. Pairs
with nothing between them are kept as text and carried along in `begun`. What is carried along is
carried along again when it is read again (`Carried`), which is why a fixed run that consists of
several such pairs is not split.
-/

namespace HtmlTemplate.Text

/-- The first occurrence of a mark in a text, with what is before and after it. -/
structure FirstMark (mark s before after : List Char) : Prop where
  eq : s = before ++ mark ++ after
  le : ∀ b a, s = b ++ mark ++ a → before.length ≤ b.length

theorem cut?_eq_some_iff {mark s before after : List Char} (hmark : mark ≠ []) :
    cut? mark s = some (before, after) ↔ FirstMark mark s before after := by
  constructor
  · intro h
    refine ⟨(cut?_append h).symm, ?_⟩
    induction s generalizing before with
    | nil => cases h
    | cons c s ih =>
      intro b a hs
      rw [cut?_cons] at h
      split at h
      · obtain ⟨rfl, -⟩ := by simpa using h
        simp
      next hbegin =>
      obtain ⟨⟨before', after'⟩, hrest, heq⟩ := Option.map_eq_some_iff.1 h
      obtain ⟨rfl, rfl⟩ := Prod.mk.inj heq
      cases b with
      | nil => exact absurd (List.isPrefixOf_iff_prefix.2 ⟨a, hs.symm⟩) hbegin
      | cons d b => exact Nat.succ_le_succ (ih hrest b a (List.cons.inj hs).2)
  · rintro ⟨rfl, hle⟩
    rw [List.append_assoc]
    refine Markup.cut?_append_of hmark ?_
    rintro a b rfl hb ⟨t, ht⟩
    have hlength := hle a t (by rw [List.append_assoc, List.append_assoc, ← ht, List.append_assoc])
    have := List.length_pos_iff.2 hb
    rw [List.length_append] at hlength
    omega

theorem cut?_eq_none_iff {mark s : List Char} (hmark : mark ≠ []) :
    cut? mark s = none ↔ ¬ mark <:+: s := by
  induction s with
  | nil => simpa [cut?, splitBefore, splitBeforeFrom] using hmark
  | cons c s ih =>
    rw [cut?_cons, List.infix_cons_iff, ← List.isPrefixOf_iff_prefix, not_or, ← ih]
    split <;> simp_all

section

variable {mark s before after : List Char} (h : FirstMark mark s before after)
include h

/-- What is before the first occurrence does not depend on what is after it. -/
theorem FirstMark.with_after (t : List Char) :
    FirstMark mark (before ++ mark ++ t) before t := by
  refine ⟨rfl, fun b a hs => ?_⟩
  by_contra hlt
  obtain ⟨x, hx⟩ : b ++ mark <+: before ++ mark :=
    List.prefix_of_prefix_length_le ⟨a, hs.symm⟩ (List.prefix_append _ t) (by simp; omega)
  have := h.le b (x ++ after) (by rw [h.eq, ← hx, List.append_assoc])
  omega

theorem FirstMark.unique {before' after' : List Char} (hmark : mark ≠ [])
    (h' : FirstMark mark s before' after') : before' = before ∧ after' = after := by
  rw [← cut?_eq_some_iff hmark] at h h'
  rw [h'] at h
  simpa using h

theorem FirstMark.not_infix_before (hmark : mark ≠ []) : ¬ mark <:+: before := by
  rintro ⟨b, a, hbefore⟩
  have hle := h.le b (a ++ (mark ++ after)) (by rw [h.eq, ← hbefore]; simp)
  have := List.length_pos_iff.2 hmark
  simp only [← hbefore, List.length_append] at hle
  omega

end

end HtmlTemplate.Text

namespace HtmlTemplate.Template

open Text

/-- Some text stands between the delimiters. Behind a pair with nothing between it, which is text,
the search goes on. -/
inductive Interpolates (opening closing : List Char) : List Char → Prop
  | expression {s before inner code rest} : FirstMark opening s before inner →
      FirstMark closing inner code rest → code ≠ [] → Interpolates opening closing s
  | behind {s before inner rest} : FirstMark opening s before inner →
      FirstMark closing inner [] rest → Interpolates opening closing rest →
      Interpolates opening closing s

/-- A text without blanks at its ends. -/
def Trimmed (s : List Char) : Prop :=
  (∀ c, s.head? = some c → isBlank c = false) ∧ ∀ c, s.getLast? = some c → isBlank c = false

/-- What a part can be written as between delimiters. -/
inductive Part.Written (d : Delimiters) : Part → String → Prop
  | fixed (text) : Part.Written d (.fixed text) text
  | expression {leading trailing} (code) : allBlank leading = true → allBlank trailing = true →
      Part.Written d (.expression code) (d.opening ++ leading ++ code ++ trailing ++ d.closing)

/-- The parts of a text, lossless and in normal form. -/
structure NormalSplit (d : Delimiters) (text : String) (parts : List Part) : Prop where
  without_delimiter : d.opening = "" ∨ d.closing = "" →
    parts = if text = "" then [] else [.fixed text]
  lossless : ∃ pieces, List.Forall₂ (Part.Written d) parts pieces ∧ String.join pieces = text
  fixed : ∀ s, .fixed s ∈ parts → s ≠ "" ∧ d.split s = [.fixed s] ∧ d.interpolates s = false
  separated : parts.IsChain fun part next => ¬ (part.isFixed = true ∧ next.isFixed = true)
  expression : ∀ code, .expression code ∈ parts →
    ¬ d.closing.toList <:+: code.toList ∧ Trimmed code.toList
  exists_expression : (∃ code, .expression code ∈ parts) ↔
    d.opening ≠ "" ∧ d.closing ≠ "" ∧ Interpolates d.opening.toList d.closing.toList text.toList

/-! ### Blanks -/

theorem head?_dropBlanks {s : List Char} {c : Char} (h : (dropBlanks s).head? = some c) :
    isBlank c = false := by
  have := List.head?_dropWhile_not isBlank s
  rw [← dropBlanks, h] at this
  exact this

theorem trimmed_trimChars (s : List Char) : Trimmed (trimChars s) := by
  constructor
  · intro c hc
    obtain ⟨trailing, hprefix⟩ : trimChars s <+: dropBlanks s := by
      rw [← List.reverse_suffix, trimChars, dropBlanksEnd, List.reverse_reverse]
      exact List.dropWhile_suffix _
    exact head?_dropBlanks (s := s) (by rw [← hprefix, List.head?_append, hc]; rfl)
  · intro c hc
    rw [trimChars, dropBlanksEnd, List.getLast?_reverse] at hc
    exact head?_dropBlanks hc

/-! ### Fixed runs -/

theorem mem_fixedRun {part : Part} {s : List Char} :
    part ∈ fixedRun s ↔ s ≠ [] ∧ part = .fixed (String.ofList s) := by
  cases s <;> simp [fixedRun]

theorem expression_notMem_fixedRun (code : String) (s : List Char) :
    .expression code ∉ fixedRun s := by
  simp [mem_fixedRun]

theorem fixedRun_of_ne_nil {s : List Char} (h : s ≠ []) :
    fixedRun s = [.fixed (String.ofList s)] := by
  cases s <;> simp_all [fixedRun]

theorem isChain_fixedRun (s : List Char) :
    (fixedRun s).IsChain fun part next => ¬ (part.isFixed = true ∧ next.isFixed = true) := by
  cases s <;> simp [fixedRun]

/-! ### One step of the loop -/

/-- What the loop can do: stop, carry a pair with nothing between it along, or split off an
expression. -/
inductive SplitsFrom (opening closing : List Char) : List Char → List Char → List Part → Prop
  | stop {begun s} : (∀ before inner, FirstMark opening s before inner → ¬ closing <:+: inner) →
      SplitsFrom opening closing begun s (fixedRun (begun.reverse ++ s))
  | carry {begun s before inner rest parts} : FirstMark opening s before inner →
      FirstMark closing inner [] rest →
      SplitsFrom opening closing (closing.reverse ++ (opening.reverse ++ (before.reverse ++ begun)))
        rest parts →
      SplitsFrom opening closing begun s parts
  | expression {begun s before inner code rest parts} : FirstMark opening s before inner →
      FirstMark closing inner code rest → code ≠ [] → SplitsFrom opening closing [] rest parts →
      SplitsFrom opening closing begun s
        (fixedRun (begun.reverse ++ before) ++
          .expression (String.ofList (trimChars code)) :: parts)

section

variable {opening closing begun s : List Char} {parts : List Part} {nonempty : opening ≠ []}
  (hclosing : closing ≠ [])
include hclosing

theorem splitsFrom_splitFrom (begun s : List Char) :
    SplitsFrom opening closing begun s (splitFrom opening closing nonempty begun s) := by
  fun_induction splitFrom opening closing nonempty begun s with
  | case1 begun s hopening =>
    refine .stop fun before inner hfirst => ?_
    rw [(cut?_eq_some_iff nonempty).2 hfirst] at hopening
    cases hopening
  | case2 begun s before inner hopening hnone =>
    refine .stop fun before' inner' hfirst => ?_
    rw [(cut?_eq_some_iff nonempty).2 hfirst] at hopening
    obtain ⟨rfl, rfl⟩ := by simpa using hopening
    exact (cut?_eq_none_iff hclosing).1 hnone
  | case3 begun s before inner hopening rest hempty _ _ ih =>
    refine .carry ((cut?_eq_some_iff nonempty).1 hopening) ((cut?_eq_some_iff hclosing).1 hempty) ?_
    simpa using ih
  | case4 begun s before inner hopening c code rest hcode _ _ ih =>
    exact .expression ((cut?_eq_some_iff nonempty).1 hopening) ((cut?_eq_some_iff hclosing).1 hcode)
      (List.cons_ne_nil c code) ih

theorem SplitsFrom.unique {parts' : List Part} (hopening : opening ≠ [])
    (h : SplitsFrom opening closing begun s parts)
    (h' : SplitsFrom opening closing begun s parts') : parts' = parts := by
  induction h generalizing parts' with
  | stop hstop =>
    cases h' with
    | stop => rfl
    | carry hfirst hempty => exact absurd ⟨_, _, hempty.eq.symm⟩ (hstop _ _ hfirst)
    | expression hfirst hcode => exact absurd ⟨_, _, hcode.eq.symm⟩ (hstop _ _ hfirst)
  | carry hfirst hempty _ ih =>
    cases h' with
    | stop hstop => exact absurd ⟨_, _, hempty.eq.symm⟩ (hstop _ _ hfirst)
    | carry hfirst' hempty' hrest =>
      obtain ⟨rfl, rfl⟩ := hfirst.unique hopening hfirst'
      obtain ⟨-, rfl⟩ := hempty.unique hclosing hempty'
      exact ih hrest
    | expression hfirst' hcode hne =>
      obtain ⟨rfl, rfl⟩ := hfirst.unique hopening hfirst'
      exact absurd (hempty.unique hclosing hcode).1 hne
  | expression hfirst hcode hne _ ih =>
    cases h' with
    | stop hstop => exact absurd ⟨_, _, hcode.eq.symm⟩ (hstop _ _ hfirst)
    | carry hfirst' hempty =>
      obtain ⟨rfl, rfl⟩ := hfirst.unique hopening hfirst'
      exact absurd (hempty.unique hclosing hcode).1 hne
    | expression hfirst' hcode' _ hrest =>
      obtain ⟨rfl, rfl⟩ := hfirst.unique hopening hfirst'
      obtain ⟨rfl, rfl⟩ := hcode.unique hclosing hcode'
      rw [ih hrest]

/-- The texts from which an expression is split off are those that interpolate something. -/
theorem SplitsFrom.exists_expression_iff (hopening : opening ≠ [])
    (h : SplitsFrom opening closing begun s parts) :
    (∃ code, .expression code ∈ parts) ↔ Interpolates opening closing s := by
  induction h with
  | stop hstop =>
    constructor
    · rintro ⟨code, hcode⟩
      exact absurd hcode (expression_notMem_fixedRun code _)
    · rintro (⟨hfirst, hcode, -⟩ | ⟨hfirst, hempty, -⟩)
      · exact absurd ⟨_, _, hcode.eq.symm⟩ (hstop _ _ hfirst)
      · exact absurd ⟨_, _, hempty.eq.symm⟩ (hstop _ _ hfirst)
  | carry hfirst hempty _ ih =>
    refine ih.trans ⟨.behind hfirst hempty, ?_⟩
    rintro (⟨hfirst', hcode, hne⟩ | ⟨hfirst', hempty', hrest⟩)
    · obtain ⟨rfl, rfl⟩ := hfirst.unique hopening hfirst'
      exact absurd (hempty.unique hclosing hcode).1 hne
    · obtain ⟨rfl, rfl⟩ := hfirst.unique hopening hfirst'
      obtain ⟨-, rfl⟩ := hempty.unique hclosing hempty'
      exact hrest
  | expression hfirst hcode hne _ _ =>
    exact ⟨fun _ => .expression hfirst hcode hne, fun _ =>
      ⟨_, List.mem_append_right _ List.mem_cons_self⟩⟩

theorem SplitsFrom.expression_of_mem (h : SplitsFrom opening closing begun s parts) {code : String}
    (hmem : .expression code ∈ parts) : ¬ closing <:+: code.toList ∧ Trimmed code.toList := by
  induction h with
  | stop => exact absurd hmem (expression_notMem_fixedRun code _)
  | carry _ _ _ ih => exact ih hmem
  | @expression _ _ _ _ written _ _ _ hcode _ _ ih =>
    obtain hmem | hmem := List.mem_append.1 hmem
    · exact absurd hmem (expression_notMem_fixedRun code _)
    obtain heq | hmem := List.mem_cons.1 hmem
    · obtain rfl := Part.expression.inj heq
      rw [String.toList_ofList]
      obtain ⟨trailing, hparts, -⟩ := exists_append_trimChars written
      exact ⟨fun hinside => hcode.not_infix_before hclosing
        (hinside.trans ⟨_, trailing, hparts.symm⟩), trimmed_trimChars written⟩
    · exact ih hmem

/-- Reading again what is carried along carries it along again. -/
def Carried (opening closing begun : List Char) : Prop :=
  ∀ s parts, SplitsFrom opening closing begun s parts →
    SplitsFrom opening closing [] (begun.reverse ++ s) parts

omit hclosing in
theorem carried_nil : Carried opening closing [] := fun _ _ h => h

omit hclosing in
theorem Carried.empty_pair (h : Carried opening closing begun) {before inner : List Char}
    (hfirst : FirstMark opening s before inner) :
    Carried opening closing
      (closing.reverse ++ (opening.reverse ++ (before.reverse ++ begun))) := by
  intro t parts hparts
  have hempty : FirstMark closing (closing ++ t) [] t := ⟨rfl, by simp⟩
  have := h _ _ (.carry (hfirst.with_after (closing ++ t)) hempty hparts)
  simpa using this

omit hclosing in
/-- A fixed run is read again as the same fixed run. -/
theorem SplitsFrom.fixed_of_mem (hopening : opening ≠ [])
    (h : SplitsFrom opening closing begun s parts) (hbegun : Carried opening closing begun)
    {text : String} (hmem : .fixed text ∈ parts) :
    text ≠ "" ∧ SplitsFrom opening closing [] text.toList [.fixed text] := by
  have hrun : ∀ {begun t : List Char}, Carried opening closing begun →
      (∀ before inner, FirstMark opening t before inner → ¬ closing <:+: inner) →
      .fixed text ∈ fixedRun (begun.reverse ++ t) →
      text ≠ "" ∧ SplitsFrom opening closing [] text.toList [.fixed text] := by
    intro begun t hbegun hstop hmem
    obtain ⟨hne, heq⟩ := mem_fixedRun.1 hmem
    obtain rfl := Part.fixed.inj heq
    have hagain := hbegun _ _ (.stop hstop)
    rw [fixedRun_of_ne_nil hne] at hagain
    exact ⟨fun h => hne (String.ofList_eq_empty_iff.1 h), by rwa [String.toList_ofList]⟩
  induction h with
  | stop hstop => exact hrun hbegun hstop hmem
  | carry hfirst _ _ ih => exact ih (hbegun.empty_pair hfirst) hmem
  | expression hfirst _ _ _ ih =>
    obtain hmem | hmem := List.mem_append.1 hmem
    · refine hrun hbegun (fun b a hagain => ?_) hmem
      exact absurd ⟨b, a, hagain.eq.symm⟩ (hfirst.not_infix_before hopening)
    · exact ih carried_nil ((List.mem_cons.1 hmem).resolve_left nofun)

omit hclosing in
theorem SplitsFrom.isChain (h : SplitsFrom opening closing begun s parts) :
    parts.IsChain fun part next => ¬ (part.isFixed = true ∧ next.isFixed = true) := by
  induction h with
  | stop => exact isChain_fixedRun _
  | carry _ _ _ ih => exact ih
  | expression _ _ _ _ ih =>
    refine List.isChain_append.2
      ⟨isChain_fixedRun _, List.isChain_cons.2 ⟨fun _ _ h => (nomatch h.1), ih⟩,
        fun _ _ next hnext h => ?_⟩
    obtain rfl := Option.some.inj hnext
    exact nomatch h.2

end

/-! ### Writing the parts -/

section

variable {d : Delimiters}

theorem exists_written_fixedRun (s : List Char) :
    ∃ pieces, List.Forall₂ (Part.Written d) (fixedRun s) pieces ∧
      String.join pieces = String.ofList s := by
  cases s with
  | nil => exact ⟨[], .nil, rfl⟩
  | cons c s => exact ⟨[String.ofList (c :: s)], .cons (.fixed _) .nil, by simp⟩

theorem SplitsFrom.exists_written {begun s : List Char} {parts : List Part}
    (h : SplitsFrom d.opening.toList d.closing.toList begun s parts) :
    ∃ pieces, List.Forall₂ (Part.Written d) parts pieces ∧
      String.join pieces = String.ofList (begun.reverse ++ s) := by
  induction h with
  | stop => exact exists_written_fixedRun _
  | carry hfirst hempty _ ih =>
    rw [hfirst.eq, hempty.eq]
    simpa using ih
  | @expression begun s before inner code rest _ hfirst hcode _ _ ih =>
    obtain ⟨pieces, hpieces, hjoin⟩ := ih
    obtain ⟨run, hrun, hrunjoin⟩ := exists_written_fixedRun (d := d) (begun.reverse ++ before)
    obtain ⟨trailing, hparts, htrailing⟩ := exists_append_trimChars code
    have hleading : allBlank (String.ofList (leadingBlanks code)) = true := by
      simp [allBlank, leadingBlanks]
    have htrail : allBlank (String.ofList trailing) = true := by simpa [allBlank] using htrailing
    have hpiece :=
      Part.Written.expression (d := d) (String.ofList (trimChars code)) hleading htrail
    refine ⟨run ++ _ :: pieces, List.rel_append hrun (.cons hpiece hpieces), ?_⟩
    have hwritten : String.ofList code = String.ofList (leadingBlanks code) ++
        String.ofList (trimChars code) ++ String.ofList trailing := by
      rw [← String.ofList_append, ← String.ofList_append, ← hparts]
    rw [hfirst.eq, hcode.eq]
    simp [String.join_append, hrunjoin, hjoin, hwritten, String.append_assoc]

end

/-! ### The whole text -/

theorem split_of_empty {d : Delimiters} (h : d.opening = "" ∨ d.closing = "") (text : String) :
    d.split text = fixedRun text.toList := by
  obtain h | h := h <;> simp [Delimiters.split, h]

theorem normalSplit_of_empty {d : Delimiters} (h : d.opening = "" ∨ d.closing = "")
    (text : String) : NormalSplit d text (d.split text) := by
  have hrun := split_of_empty h
  constructor
  case without_delimiter =>
    intro _
    rw [hrun, fixedRun]
    simp
  case lossless => simpa [hrun] using exists_written_fixedRun (d := d) text.toList
  case fixed =>
    intro s hs
    rw [hrun, mem_fixedRun] at hs
    obtain ⟨hne, heq⟩ := hs
    obtain rfl : s = text := by simpa using heq
    have hself : d.split s = [.fixed s] := by
      rw [hrun, fixedRun_of_ne_nil hne, String.ofList_toList]
    exact ⟨by simpa using hne, hself, by rw [Delimiters.interpolates, hself]; rfl⟩
  case separated =>
    rw [hrun]
    exact isChain_fixedRun _
  case expression =>
    intro code hcode
    rw [hrun] at hcode
    exact absurd hcode (expression_notMem_fixedRun code _)
  case exists_expression =>
    rw [hrun]
    refine iff_of_false (fun ⟨code, hcode⟩ => expression_notMem_fixedRun code _ hcode) ?_
    rintro ⟨hopening, hclosing, -⟩
    exact h.elim hopening hclosing

theorem normalSplit_of_ne {d : Delimiters} (hopening : d.opening ≠ "") (hclosing : d.closing ≠ "")
    (text : String) : NormalSplit d text (d.split text) := by
  have hopening' : d.opening.toList ≠ [] := by simpa using hopening
  have hclosing' : d.closing.toList ≠ [] := by simpa using hclosing
  have hsplit : ∀ s,
      d.split s = splitFrom d.opening.toList d.closing.toList hopening' [] s.toList := by
    intro s
    rw [Delimiters.split, dif_neg hopening', if_neg hclosing']
  have hfrom : SplitsFrom d.opening.toList d.closing.toList [] text.toList (d.split text) := by
    rw [hsplit]
    exact splitsFrom_splitFrom hclosing' [] text.toList
  constructor
  case without_delimiter => exact fun h => absurd h (by simp [hopening, hclosing])
  case lossless => simpa using hfrom.exists_written
  case fixed =>
    intro s hs
    obtain ⟨hne, hagain⟩ := hfrom.fixed_of_mem hopening' carried_nil hs
    have hself : d.split s = [.fixed s] := by
      rw [hsplit]
      exact hagain.unique hclosing' hopening' (splitsFrom_splitFrom hclosing' [] s.toList)
    exact ⟨hne, hself, by rw [Delimiters.interpolates, hself]; rfl⟩
  case separated => exact hfrom.isChain
  case expression => exact fun code => hfrom.expression_of_mem hclosing'
  case exists_expression =>
    rw [hfrom.exists_expression_iff hclosing' hopening']
    exact ⟨fun h => ⟨hopening, hclosing, h⟩, fun h => h.2.2⟩

/-- Splitting is lossless and gives a normal form, whatever the delimiters are. -/
theorem normalSplit_split (d : Delimiters) (text : String) : NormalSplit d text (d.split text) := by
  by_cases h : d.opening = "" ∨ d.closing = ""
  · exact normalSplit_of_empty h text
  · rw [not_or] at h
    exact normalSplit_of_ne h.1 h.2 text

example : (Delimiters.mk "[[" "]]").split "a[[]]b[[ x ]]" = [.fixed "a[[]]b", .expression "x"] := by
  cbv

end HtmlTemplate.Template
