import HtmlTemplate.Proofs.Offsets
import HtmlTemplate.Proofs.Reading

/-!
# Expressions with more code after them

An expression that was read out of a text is read again when the text stands elsewhere, is followed
by one of the marks that end an item, and is read by a reader of another depth, as long as that is
not less than the depth of the expression (`gives_append`). Only offsets change. So it makes no
difference to an expression of a template what code it is put into.
-/

namespace HtmlTemplate.Code

open Text

/-- Whether a character ends an item of code. -/
def isMark (c : Char) : Bool := c == ',' || c == ')' || c == ']'

/-- A text that an item of code may be followed by: none, or one that begins with a mark. -/
def Ends (t : List Char) : Prop := ∀ c ∈ t.head?, isMark c = true

theorem ends_nil : Ends [] := by simp [Ends]

theorem ends_cons {c : Char} {t : List Char} : Ends (c :: t) ↔ isMark c = true := by simp [Ends]

theorem eq_of_isMark {c : Char} (h : isMark c = true) : c = ',' ∨ c = ')' ∨ c = ']' := by
  simpa [isMark, or_assoc] using h

section

variable {t : List Char} (ht : Ends t)

include ht

/-- No class of characters that makes up items holds a mark. -/
theorem Ends.takeWhile_append {p : Char → Bool} (hp : ∀ c, isMark c = true → p c = false)
    (s : List Char) : (s ++ t).takeWhile p = s.takeWhile p := by
  rw [List.takeWhile_append]
  split
  · next h =>
    have hs : s.takeWhile p = s := (List.takeWhile_prefix p).eq_of_length h
    cases t with
    | nil => simp [hs]
    | cons c t => simp [hs, hp c (ends_cons.1 ht)]
  · rfl

theorem Ends.dropWhile_append {p : Char → Bool} (hp : ∀ c, isMark c = true → p c = false)
    (s : List Char) : (s ++ t).dropWhile p = s.dropWhile p ++ t := by
  rw [List.dropWhile_append]
  split
  · next h =>
    rw [List.isEmpty_iff] at h
    cases t with
    | nil => simp [h]
    | cons c t => simp [h, hp c (ends_cons.1 ht)]
  · rfl

end

theorem isBlank_eq_false_of_isMark {c : Char} (h : isMark c = true) : isBlank c = false := by
  rcases eq_of_isMark h with rfl | rfl | rfl <;> decide

theorem isWordPart_eq_false_of_isMark {c : Char} (h : isMark c = true) : isWordPart c = false := by
  rcases eq_of_isMark h with rfl | rfl | rfl <;> decide

theorem isNumberPart_eq_false_of_isMark {c : Char} (h : isMark c = true) :
    isNumberPart c = false := by
  rcases eq_of_isMark h with rfl | rfl | rfl <;> decide

theorem Ends.dropBlanks_append {t : List Char} (ht : Ends t) (s : List Char) :
    dropBlanks (s ++ t) = dropBlanks s ++ t :=
  ht.dropWhile_append (fun _ => isBlank_eq_false_of_isMark) s

theorem Ends.dropBlanks_eq {t : List Char} (ht : Ends t) : dropBlanks t = t := by
  simpa [dropBlanks] using ht.dropBlanks_append []

/-- Stepping over a mark looks only at what is left of the text. -/
theorem Cursor.take?_eq_some_iff {mark : Char} {c d : Cursor} :
    c.take? mark = some d ↔
      dropBlanks c.rest = mark :: d.rest ∧ d.position = c.skipBlanks.position + mark.utf8Size := by
  rcases d with ⟨q, r⟩
  unfold take?
  split
  · next h =>
    have : dropBlanks c.rest = [] := h
    simp [this]
  · next e rest h =>
    have hrest : dropBlanks c.rest = e :: rest := h
    split
    · next he =>
      obtain rfl := beq_iff_eq.1 he
      simp [hrest, eq_comm, and_comm]
    · next he =>
      have : e ≠ mark := by simpa using he
      simp [hrest, this]

theorem Cursor.take?_eq_none_iff {mark : Char} {c : Cursor} :
    c.take? mark = none ↔ (dropBlanks c.rest).head? ≠ some mark := by
  constructor
  · intro h hhead
    rcases List.head?_eq_some_iff.1 hhead with ⟨rest, hrest⟩
    have hsome := take?_eq_some_iff (d := ⟨c.skipBlanks.position + mark.utf8Size, rest⟩).2
      ⟨hrest, rfl⟩
    simp [h] at hsome
  · intro h
    rw [Option.eq_none_iff_forall_ne_some]
    intro d hd
    simp [(take?_eq_some_iff.1 hd).1] at h

section

variable {t : List Char} (ht : Ends t) (p : Nat)

include ht

theorem Ends.take?_eq_some {mark : Char} {c d : Cursor} (h : c.take? mark = some d) :
    ∃ q, (Cursor.mk p (c.rest ++ t)).take? mark = some ⟨q, d.rest ++ t⟩ := by
  rcases Cursor.take?_eq_some_iff.1 h with ⟨hrest, -⟩
  refine ⟨_, Cursor.take?_eq_some_iff.2 ⟨?_, rfl⟩⟩
  simp [ht.dropBlanks_append, hrest]

/-- What is not at a cursor is not there when more follows, unless it comes with what follows. -/
theorem Ends.take?_eq_none {mark : Char} {c : Cursor} (h : c.take? mark = none)
    (hmark : dropBlanks c.rest ≠ [] ∨ isMark mark = false) :
    (Cursor.mk p (c.rest ++ t)).take? mark = none := by
  rw [Cursor.take?_eq_none_iff] at h ⊢
  simp only [ht.dropBlanks_append]
  intro hhead
  cases hc : dropBlanks c.rest with
  | cons d rest => simp_all
  | nil =>
    rw [hc, List.nil_append] at hhead
    have := ht mark hhead
    simp_all

end

theorem splitLiteralFrom_append_right {done s body rest : List Char}
    (h : splitLiteralFrom done s = some (body, rest)) (more : List Char) :
    splitLiteralFrom done (s ++ more) = some (body, rest ++ more) := by
  fun_induction splitLiteralFrom done s with
  | case1 => simp at h
  | case2 =>
    cases h
    rfl
  | case3 _ _ _ ih => simpa [splitLiteralFrom] using ih h
  | case4 _ c rest hquote hslash ih =>
    -- a backslash at the very end closes nothing
    have hc : c ≠ '\\' := by
      rintro rfl
      cases rest with
      | nil => simp [splitLiteralFrom] at h
      | cons d rest => exact hslash d rest rfl rfl
    rw [List.cons_append, splitLiteralFrom]
    · exact ih h
    · exact hquote
    · intro _ _ h
      exact absurd h hc

theorem splitLiteral?_append_right {s body rest : List Char}
    (h : splitLiteral? s = some (body, rest)) (more : List Char) :
    splitLiteral? (s ++ more) = some (body, rest ++ more) :=
  splitLiteralFrom_append_right h more

section

variable {t : List Char} (ht : Ends t) (p : Nat)

include ht

theorem Segments.append {c after : Cursor} {names : List String} (h : Segments c names after) :
    ∃ q, Segments ⟨p, c.rest ++ t⟩ names ⟨q, after.rest ++ t⟩ := by
  induction h generalizing p with
  | @none c hhead =>
    refine ⟨p, .none ?_⟩
    intro hpoint
    cases hc : c.rest with
    | cons d rest => simp_all
    | nil =>
      simp only [hc, List.nil_append] at hpoint
      have := ht '.' hpoint
      revert this
      decide
  | @more _ d rest _ _ hd _ ih =>
    have htake := ht.takeWhile_append (fun _ => isWordPart_eq_false_of_isMark) rest
    have hdrop := ht.dropWhile_append (fun _ => isWordPart_eq_false_of_isMark) rest
    rcases ih (p + extent ('.' :: d :: rest.takeWhile isWordPart)) with ⟨q, hq⟩
    refine ⟨q, ?_⟩
    have hmore : Segments ⟨p, '.' :: d :: (rest ++ t)⟩ _ _ := .more hd (by
      rw [htake, hdrop]
      exact hq)
    rw [htake] at hmore
    exact hmore

end

/-- A reader that does for a text with `t` behind it what another does for the text alone, as far
as expressions up to a depth go. -/
def Extends (t : List Char) (depth : Nat) (expression extended : ExprReader) : Prop :=
  ∀ {c d : Cursor} {e : Expr}, Gives (expression c) e d → e.depth ≤ depth → ∀ p, ∃ e' q,
    Gives (extended ⟨p, c.rest ++ t⟩) e' ⟨q, d.rest ++ t⟩ ∧ e'.bare = e.bare

/-- A reader that needs a character that is neither blank nor a mark. -/
def Opens (expression : ExprReader) : Prop :=
  ∀ {c d : Cursor} {e : Expr}, Gives (expression c) e d →
    ∃ x rest, dropBlanks c.rest = x :: rest ∧ isMark x = false

theorem isMark_eq_false_of_isWordStart {c : Char} (h : isWordStart c = true) :
    isMark c = false := by
  rw [Bool.eq_false_iff]
  intro hmark
  rcases eq_of_isMark hmark with rfl | rfl | rfl <;> revert h <;> decide

theorem isMark_eq_false_of_numberStart {c : Char} (h : (c.isDigit || c == '-') = true) :
    isMark c = false := by
  rw [Bool.eq_false_iff]
  intro hmark
  rcases eq_of_isMark hmark with rfl | rfl | rfl <;> revert h <;> decide

theorem Begins.opens {expression : ExprReader} {c d : Cursor} {e : Expr}
    (h : Begins expression c e d) : ∃ x rest, c.rest = x :: rest ∧ isMark x = false := by
  cases h with
  | text => exact ⟨_, _, rfl, by decide⟩
  | array => exact ⟨_, _, rfl, by decide⟩
  | number hc => exact ⟨_, _, rfl, isMark_eq_false_of_numberStart hc⟩
  | call hc => exact ⟨_, _, rfl, isMark_eq_false_of_isWordStart hc⟩
  | word hc => exact ⟨_, _, rfl, isMark_eq_false_of_isWordStart hc⟩
  | path hc => exact ⟨_, _, rfl, isMark_eq_false_of_isWordStart hc⟩

theorem opens_readExpr (depth : Nat) : Opens (readExpr depth) := by
  intro c d e h
  cases depth with
  | zero => exact absurd h not_gives_readExpr_zero
  | succ depth => exact (gives_readExpr_succ.1 h).opens

theorem ItemsFrom.opens {expression : ExprReader} (hopens : Opens expression) {close : Char}
    {c after : Cursor} {items : List Expr} (h : ItemsFrom expression close c items after) :
    ∃ x rest, dropBlanks c.rest = x :: rest ∧ isMark x = false := by
  cases h with
  | last he _ => exact hopens he
  | more he _ _ _ => exact hopens he

section

variable {t : List Char} {depth : Nat} {expression extended : ExprReader}
variable (ht : Ends t) (hopens : Opens expression) (hread : Extends t depth expression extended)

include ht hread

theorem ItemsFrom.append {close : Char} {c after : Cursor} {items : List Expr}
    (h : ItemsFrom expression close c items after) (hdepth : depthAll items ≤ depth) (p : Nat) :
    ∃ items' q, ItemsFrom extended close ⟨p, c.rest ++ t⟩ items' ⟨q, after.rest ++ t⟩ ∧
      bareAll items' = bareAll items := by
  induction h generalizing p with
  | last he hlast =>
    rcases hread he (by simpa [depthAll] using hdepth) p with ⟨e', q, he', hbare⟩
    rcases ht.take?_eq_some q hlast with ⟨r, hr⟩
    exact ⟨[e'], r, .last he' hr, by simp [bareAll, hbare]⟩
  | more he hlast hnext _ ih =>
    rcases Nat.max_le.1 hdepth with ⟨he_depth, hitems_depth⟩
    rcases hread he he_depth p with ⟨e', q, he', hbare⟩
    rcases ht.take?_eq_some q hnext with ⟨r, hr⟩
    rcases ih hitems_depth r with ⟨items', z, hitems', hbares⟩
    have hrest := (Cursor.take?_eq_some_iff.1 hnext).1
    have hnone := ht.take?_eq_none q hlast (.inl (by simp [hrest]))
    exact ⟨e' :: items', z, .more he' hnone hr hitems', by simp [bareAll, hbare, hbares]⟩

include hopens

theorem Items.append {close : Char} {c after : Cursor} {items : List Expr}
    (h : Items expression close c items after) (hdepth : depthAll items ≤ depth) (p : Nat) :
    ∃ items' q, Items extended close ⟨p, c.rest ++ t⟩ items' ⟨q, after.rest ++ t⟩ ∧
      bareAll items' = bareAll items := by
  cases h with
  | none hlast =>
    rcases ht.take?_eq_some p hlast with ⟨q, hq⟩
    exact ⟨[], q, .none hq, rfl⟩
  | some hlast hitems =>
    rcases hitems.append ht hread hdepth p with ⟨items', q, hitems', hbares⟩
    rcases hitems.opens hopens with ⟨x, rest, hx, -⟩
    exact ⟨items', q, .some (ht.take?_eq_none p hlast (.inl (by simp [hx]))) hitems', hbares⟩

theorem Begins.append {c d : Cursor} {e : Expr} (h : Begins expression c e d)
    (hdepth : e.depth ≤ depth + 1) (p : Nat) :
    ∃ e' q, Begins extended ⟨p, c.rest ++ t⟩ e' ⟨q, d.rest ++ t⟩ ∧ e'.bare = e.bare := by
  have hbehind : ∀ q c s, Cursor.behindWord p c (s ++ t) =
      ⟨p + extent (c :: s.takeWhile isWordPart), (Cursor.behindWord q c s).rest ++ t⟩ := by
    intro q c s
    simp [Cursor.behindWord, Cursor.past,
      ht.takeWhile_append (fun _ => isWordPart_eq_false_of_isMark),
      ht.dropWhile_append (fun _ => isWordPart_eq_false_of_isMark)]
  have hwordFrom : ∀ c s, wordFrom c (s ++ t) = wordFrom c s := by
    intro c s
    simp only [wordFrom, ht.takeWhile_append (fun _ => isWordPart_eq_false_of_isMark)]
  cases h with
  | text hsplit htext =>
    exact ⟨_, _, .text (splitLiteral?_append_right hsplit t) htext, rfl⟩
  | array hitems =>
    obtain ⟨items', q, hitems', hbares⟩ :=
      hitems.append ht hopens hread (Nat.le_of_succ_le_succ hdepth) (p + extent ['['])
    exact ⟨_, q, .array hitems', by simp [Expr.bare, hbares]⟩
  | @number _ c s n hc hn =>
    have htake := ht.takeWhile_append (fun _ => isNumberPart_eq_false_of_isMark) s
    have hdrop := ht.dropWhile_append (fun _ => isNumberPart_eq_false_of_isMark) s
    have hbegins : Begins extended ⟨p, c :: (s ++ t)⟩ _ _ := .number hc (by
      rw [htake]
      exact hn)
    rw [Cursor.past, hdrop] at hbegins
    exact ⟨_, _, hbegins, rfl⟩
  | @call q c s _ _ _ hc hinside hitems =>
    rcases ht.take?_eq_some (p + extent (c :: s.takeWhile isWordPart)) hinside with ⟨r, hr⟩
    obtain ⟨items', z, hitems', hbares⟩ :=
      hitems.append ht hopens hread (Nat.le_of_succ_le_succ hdepth) r
    rw [← hbehind] at hr
    exact ⟨_, z, .call hc hr hitems', by simp [Expr.bare, hwordFrom, hbares]⟩
  | @word q c s _ hc hinside hv =>
    have hnone := ht.take?_eq_none (p + extent (c :: s.takeWhile isWordPart)) hinside
      (.inr (by decide))
    rw [← hbehind] at hnone
    have hbegins : Begins extended _ _ _ := .word hc hnone (by
      rw [hwordFrom]
      exact hv)
    refine ⟨_, (Cursor.behindWord p c (s ++ t)).skipBlanks.position, ?_, rfl⟩
    have hrest : (Cursor.behindWord p c (s ++ t)).skipBlanks.rest =
        (Cursor.behindWord q c s).skipBlanks.rest ++ t := by
      simp only [hbehind q, Cursor.skipBlanks, ht.dropBlanks_append]
    rw [← hrest]
    exact hbegins
  | @path q c s after names hc hinside hv hnames =>
    have hnone := ht.take?_eq_none (p + extent (c :: s.takeWhile isWordPart)) hinside
      (.inr (by decide))
    rw [← hbehind] at hnone
    rcases hnames.append ht (Cursor.behindWord p c (s ++ t)).skipBlanks.position with ⟨r, hr⟩
    have hrest : (Cursor.behindWord p c (s ++ t)).skipBlanks.rest =
        (Cursor.behindWord q c s).skipBlanks.rest ++ t := by
      simp only [hbehind q, Cursor.skipBlanks, ht.dropBlanks_append]
    rw [← hrest] at hr
    have hbegins : Begins extended _ _ _ := .path hc hnone (by
      rw [hwordFrom]
      exact hv) hr
    rw [hwordFrom] at hbegins
    exact ⟨_, r, hbegins, rfl⟩

end

/-- An expression is read again with more code after it, by a reader of any depth that is enough. -/
theorem gives_append {t : List Char} (ht : Ends t) (n m : Nat) :
    Extends t m (readExpr n) (readExpr m) := by
  induction n generalizing m with
  | zero =>
    intro c d e h
    exact absurd h not_gives_readExpr_zero
  | succ n ih =>
    intro c d e h hdepth p
    cases m with
    | zero => exact absurd e.depth_pos (by omega)
    | succ m =>
      obtain ⟨e', q, hbegins, hbare⟩ := (gives_readExpr_succ.1 h).append ht (opens_readExpr n)
        (ih m) hdepth (Cursor.mk p (c.rest ++ t)).skipBlanks.position
      refine ⟨e', q, gives_readExpr_succ.2 ?_, hbare⟩
      have hrest : (Cursor.mk p (c.rest ++ t)).skipBlanks.rest = c.skipBlanks.rest ++ t :=
        ht.dropBlanks_append c.rest
      rw [← hrest] at hbegins
      exact hbegins

end HtmlTemplate.Code
