import HtmlTemplate.Code.Reader

/-!
# The grammar of render code

`Begins expression c e d` says, as a rule of the grammar and without a reader, that an expression
`e` stands at the cursor `c` and that `d` is behind it; what stands inside `e` is left to the
reader `expression`. The reader of render code accepts exactly what the grammar allows, level by
level (`gives_readExpr_succ`), and an expression it gives is no deeper than it was asked to look
(`depth_le_of_gives`).
-/

namespace HtmlTemplate.Code

open Text

/-- The reading succeeds, with this value and the cursor behind it. -/
def Gives {α : Type} {n : Nat} (r : Reading α n) (a : α) (d : Cursor) : Prop :=
  ∃ hd : d.size < n, r = .ok (a, ⟨d, hd⟩)

@[simp] theorem gives_ok {α : Type} {n : Nat} {a b : α} {c : CursorBelow n} {d : Cursor} :
    Gives (.ok (a, c)) b d ↔ a = b ∧ c.1 = d := by
  constructor
  · rintro ⟨hd, h⟩
    cases h
    exact ⟨rfl, rfl⟩
  · rintro ⟨rfl, rfl⟩
    exact ⟨c.2, rfl⟩

@[simp] theorem not_gives_error {α : Type} {n : Nat} {f : SyntaxError} {b : α} {d : Cursor} :
    ¬ Gives (n := n) (.error f) b d := by
  rintro ⟨hd, h⟩
  cases h

/-- Expressions with commas between, from one of them on, up to a closing mark and behind it. -/
inductive ItemsFrom (expression : ExprReader) (close : Char) : Cursor → List Expr → Cursor → Prop
  | last {c d after : Cursor} {e : Expr} : Gives (expression c) e d →
      d.take? close = some after → ItemsFrom expression close c [e] after
  | more {c d next after : Cursor} {e : Expr} {items : List Expr} : Gives (expression c) e d →
      d.take? close = none → d.take? ',' = some next →
      ItemsFrom expression close next items after →
      ItemsFrom expression close c (e :: items) after

/-- The same behind an opening mark, where there may be none. -/
inductive Items (expression : ExprReader) (close : Char) : Cursor → List Expr → Cursor → Prop
  | none {c after : Cursor} : c.take? close = some after → Items expression close c [] after
  | some {c after : Cursor} {items : List Expr} : c.take? close = none →
      ItemsFrom expression close c items after → Items expression close c items after

theorem itemsFrom_of_gives {expression : ExprReader} {close : Char} {bound : Nat}
    {done items : List Expr} {c after : Cursor} {hc : c.size ≤ bound}
    (h : Gives (readItemsFrom expression close bound done c hc) items after) :
    ∃ more, items = done.reverse ++ more ∧ ItemsFrom expression close c more after := by
  fun_induction readItemsFrom expression close bound done c hc generalizing items after with
  | case1 => simp at h
  | case2 done c hc e d hd heq last hlast =>
    rcases gives_ok.1 h with ⟨rfl, rfl⟩
    exact ⟨[e], by simp, .last ⟨hd, heq⟩ hlast⟩
  | case3 done c hc e d hd heq hlast next hnext _ ih =>
    obtain ⟨more, rfl, hmore⟩ := ih h
    exact ⟨e :: more, by simp, .more ⟨hd, heq⟩ hlast hnext hmore⟩
  | case4 => simp at h

theorem ItemsFrom.gives {expression : ExprReader} {close : Char} {items : List Expr}
    {c after : Cursor} (h : ItemsFrom expression close c items after) (bound : Nat)
    (done : List Expr) (hc : c.size ≤ bound) :
    Gives (readItemsFrom expression close bound done c hc) (done.reverse ++ items) after := by
  induction h generalizing done with
  | last he hlast =>
    rcases he with ⟨hd, heq⟩
    rw [readItemsFrom]
    split
    · next h => simp [heq] at h
    · next h =>
      rw [heq] at h
      cases h
      split
      · next h => simp_all
      · next h => simp [hlast] at h
  | more he hlast hnext _ ih =>
    rcases he with ⟨hd, heq⟩
    rw [readItemsFrom]
    split
    · next h => simp [heq] at h
    · next h =>
      rw [heq] at h
      cases h
      split
      · next h => simp [hlast] at h
      · split
        · next h =>
          rw [hnext] at h
          cases h
          simpa using ih (_ :: done) _
        · next h => simp [hnext] at h

theorem gives_readItems {expression : ExprReader} {close : Char} {c after : Cursor}
    {items : List Expr} :
    Gives (readItems expression close c) items after ↔ Items expression close c items after := by
  constructor
  · intro h
    unfold readItems at h
    split at h
    · next hlast =>
      rcases gives_ok.1 h with ⟨rfl, rfl⟩
      exact .none hlast
    · next hlast =>
      obtain ⟨more, rfl, hmore⟩ := itemsFrom_of_gives h
      exact .some hlast hmore
  · intro h
    unfold readItems
    cases h with
    | none hlast =>
      split
      · next h => simp_all
      · next h => simp [hlast] at h
    | some hlast hitems =>
      split
      · next h => simp [hlast] at h
      · simpa using hitems.gives c.size [] (Nat.le_refl _)

/-- Names of a path, each behind a point. -/
inductive Segments : Cursor → List String → Cursor → Prop
  | none {c : Cursor} : c.rest.head? ≠ some '.' → Segments c [] c
  | more {p : Nat} {d : Char} {rest : List Char} {names : List String} {after : Cursor} :
      isWordStart d = true →
      Segments ((Cursor.mk p ('.' :: d :: rest)).past ('.' :: d :: rest.takeWhile isWordPart)
        (rest.dropWhile isWordPart)) names after →
      Segments ⟨p, '.' :: d :: rest⟩ (String.ofList (d :: rest.takeWhile isWordPart) :: names)
        after

theorem segments_of_gives {bound : Nat} {done names : List String} {c after : Cursor}
    {hc : c.size < bound} (h : Gives (readSegments bound done c hc) names after) :
    ∃ more, names = done.reverse ++ more ∧ Segments c more after := by
  fun_induction readSegments bound done c hc with
  | case1 done c hc d rest hrest hd word _ _ ih =>
    obtain ⟨more, rfl, hmore⟩ := ih h
    rcases c with ⟨p, s⟩
    obtain rfl : s = '.' :: d :: rest := hrest
    exact ⟨String.ofList word :: more, by simp, .more hd hmore⟩
  | case2 => simp at h
  | case3 => simp at h
  | case4 done c hc hmore hlast =>
    rcases gives_ok.1 h with ⟨rfl, rfl⟩
    refine ⟨[], by simp, .none ?_⟩
    intro hhead
    rcases c with ⟨p, s⟩
    cases s with
    | nil => simp at hhead
    | cons d rest =>
      obtain rfl : d = '.' := by simpa using hhead
      cases rest with
      | nil => exact hlast rfl
      | cons e rest => exact hmore e rest rfl

theorem Segments.gives {names : List String} {c after : Cursor} (h : Segments c names after)
    (bound : Nat) (done : List String) (hc : c.size < bound) :
    Gives (readSegments bound done c hc) (done.reverse ++ names) after := by
  induction h generalizing done with
  | none hhead =>
    rw [readSegments]
    split
    · next h => simp [h] at hhead
    · next h => simp [h] at hhead
    · simp
  | more hd _ ih =>
    rw [readSegments]
    split
    · next h =>
      cases h
      rw [if_pos hd]
      simpa using ih (_ :: done) _
    · next h => simp at h
    · next h _ => exact absurd rfl (h _ _)

/-- The cursor behind the word that stands at the cursor. -/
def Cursor.behindWord (position : Nat) (c : Char) (s : List Char) : Cursor :=
  (Cursor.mk position (c :: s)).past (c :: s.takeWhile isWordPart) (s.dropWhile isWordPart)

/-- The word that begins with a character and goes on in the text after it. -/
def wordFrom (c : Char) (s : List Char) : String := String.ofList (c :: s.takeWhile isWordPart)

/-- The grammar of one expression without blanks before it. -/
inductive Begins (expression : ExprReader) : Cursor → Expr → Cursor → Prop
  | text {p : Nat} {s body rest text : List Char} : splitLiteral? s = some (body, rest) →
      Json.textOfLiteral (body ++ ['"']) = .ok text →
      Begins expression ⟨p, '"' :: s⟩ (.literal (.string (String.ofList text)))
        ((Cursor.mk p ('"' :: s)).past ('"' :: (body ++ ['"'])) rest)
  | array {p : Nat} {s : List Char} {items : List Expr} {after : Cursor} :
      Items expression ']' ((Cursor.mk p ('[' :: s)).past ['['] s) items after →
      Begins expression ⟨p, '[' :: s⟩ (.array items) after
  | number {p : Nat} {c : Char} {s : List Char} {n : Json.Number} :
      (c.isDigit || c == '-') = true → Json.number? (c :: s.takeWhile isNumberPart) = some n →
      Begins expression ⟨p, c :: s⟩ (.literal (.number n))
        ((Cursor.mk p (c :: s)).past (c :: s.takeWhile isNumberPart) (s.dropWhile isNumberPart))
  | call {p : Nat} {c : Char} {s : List Char} {inside after : Cursor} {arguments : List Expr} :
      isWordStart c = true → (Cursor.behindWord p c s).take? '(' = some inside →
      Items expression ')' inside arguments after →
      Begins expression ⟨p, c :: s⟩ (.call (wordFrom c s) arguments p) after
  | word {p : Nat} {c : Char} {s : List Char} {v : Json.Value} : isWordStart c = true →
      (Cursor.behindWord p c s).take? '(' = none → wordValue? (wordFrom c s) = some v →
      Begins expression ⟨p, c :: s⟩ (.literal v) (Cursor.behindWord p c s).skipBlanks
  | path {p : Nat} {c : Char} {s : List Char} {after : Cursor} {names : List String} :
      isWordStart c = true → (Cursor.behindWord p c s).take? '(' = none →
      wordValue? (wordFrom c s) = none → Segments (Cursor.behindWord p c s).skipBlanks names after →
      Begins expression ⟨p, c :: s⟩ (.path (wordFrom c s :: names)) after

theorem isAlpha_eq (c : Char) :
    c.isAlpha = (decide (65 ≤ c.val ∧ c.val ≤ 90) || decide (97 ≤ c.val) && decide (c.val ≤ 122)) :=
  rfl

theorem not_numberStart_of_isWordStart {c : Char} (h : isWordStart c = true) :
    (c.isDigit || c == '-') = false := by
  simp [isWordStart, isAlpha_eq, Char.isDigit, UInt32.le_iff_toNat_le,
    Char.ext_iff, ← UInt32.toNat_inj] at h ⊢
  omega

theorem gives_readLiteral {start after : Cursor} {s : List Char} {e : Expr} :
    Gives (readLiteral start s) e after ↔
      ∃ body rest text, splitLiteral? s = some (body, rest) ∧
        Json.textOfLiteral (body ++ ['"']) = .ok text ∧
        e = .literal (.string (String.ofList text)) ∧
        after = start.past ('"' :: (body ++ ['"'])) rest := by
  constructor
  · intro h
    unfold readLiteral at h
    split at h
    · simp at h
    · next body rest hsplit =>
      simp only at h
      split at h
      · simp at h
      · next text htext =>
        rcases gives_ok.1 h with ⟨rfl, rfl⟩
        exact ⟨body, rest, text, hsplit, htext, rfl, rfl⟩
  · rintro ⟨body, rest, text, hsplit, htext, rfl, rfl⟩
    unfold readLiteral
    split
    · next h => simp [hsplit] at h
    · next h =>
      rw [hsplit] at h
      cases h
      simp [htext]

theorem gives_readNumber {start after : Cursor} {c : Char} {s : List Char} {e : Expr} :
    Gives (readNumber start c s) e after ↔
      ∃ n, Json.number? (c :: s.takeWhile isNumberPart) = some n ∧ e = .literal (.number n) ∧
        after = start.past (c :: s.takeWhile isNumberPart) (s.dropWhile isNumberPart) := by
  unfold readNumber
  simp only
  split
  · next h => simp [h]
  · next n h => simp [h, eq_comm]

theorem begins_of_gives_readWordExpression {expression : ExprReader} {p : Nat} {c : Char}
    {s : List Char} {e : Expr} {after : Cursor}
    {hstart : (Cursor.mk p (c :: s)).size = s.length + 1} (hc : isWordStart c = true)
    (h : Gives (readWordExpression expression ⟨p, c :: s⟩ c s hstart) e after) :
    Begins expression ⟨p, c :: s⟩ e after := by
  unfold readWordExpression at h
  simp only at h
  split at h
  · next inside hinside =>
    split at h
    · simp at h
    · next items last hlast heq =>
      rcases gives_ok.1 h with ⟨rfl, rfl⟩
      exact .call hc hinside (gives_readItems.1 ⟨hlast, heq⟩)
  · next hinside =>
    split at h
    · next v hv =>
      rcases gives_ok.1 h with ⟨rfl, rfl⟩
      exact .word hc hinside hv
    · next hv =>
      split at h
      · simp at h
      · next names last heq =>
        rcases gives_ok.1 h with ⟨rfl, rfl⟩
        obtain ⟨more, rfl, hmore⟩ := segments_of_gives ⟨last.2, heq⟩
        exact .path hc hinside hv hmore

theorem begins_of_gives_readHere {expression : ExprReader} {start after : Cursor} {e : Expr}
    (h : Gives (readHere expression start) e after) : Begins expression start e after := by
  rcases start with ⟨p, s⟩
  cases s with
  | nil => simp [readHere] at h
  | cons c s =>
    simp only [readHere] at h
    split at h
    · next hc =>
      obtain rfl := beq_iff_eq.1 hc
      split at h
      · simp at h
      · next e last hlast heq =>
        rcases gives_ok.1 h with ⟨rfl, rfl⟩
        obtain ⟨body, rest, text, hsplit, htext, rfl, rfl⟩ := gives_readLiteral.1 ⟨hlast, heq⟩
        exact .text hsplit htext
    split at h
    · next hc =>
      obtain rfl := beq_iff_eq.1 hc
      split at h
      · simp at h
      · next items last hlast heq =>
        rcases gives_ok.1 h with ⟨rfl, rfl⟩
        exact .array (gives_readItems.1 ⟨hlast, heq⟩)
    split at h
    · next hc =>
      split at h
      · simp at h
      · next e last hlast heq =>
        rcases gives_ok.1 h with ⟨rfl, rfl⟩
        obtain ⟨n, hn, rfl, rfl⟩ := gives_readNumber.1 ⟨hlast, heq⟩
        exact .number hc hn
    split at h
    · next hc => exact begins_of_gives_readWordExpression hc h
    · simp at h

theorem ne_quote_of_isWordStart {c : Char} (h : isWordStart c = true) :
    (c == '"') = false ∧ (c == '[') = false := by
  constructor <;> (rw [beq_eq_false_iff_ne]; rintro rfl; revert h; decide)

theorem ne_quote_of_numberStart {c : Char} (h : (c.isDigit || c == '-') = true) :
    (c == '"') = false ∧ (c == '[') = false := by
  constructor <;> (rw [beq_eq_false_iff_ne]; rintro rfl; revert h; decide)

theorem Begins.gives_readWordExpression {expression : ExprReader} {p : Nat} {c : Char}
    {s : List Char} {e : Expr} {after : Cursor}
    {hstart : (Cursor.mk p (c :: s)).size = s.length + 1} (hc : isWordStart c = true)
    (h : Begins expression ⟨p, c :: s⟩ e after) :
    Gives (readWordExpression expression ⟨p, c :: s⟩ c s hstart) e after := by
  obtain ⟨hquote, hbracket⟩ := ne_quote_of_isWordStart hc
  have hdigit := not_numberStart_of_isWordStart hc
  unfold readWordExpression
  simp only
  cases h with
  | text => simp at hquote
  | array => simp at hbracket
  | number h => simp [hdigit] at h
  | call _ hinside hitems =>
    obtain ⟨hd, heq⟩ := gives_readItems.2 hitems
    split
    · next h =>
      cases h.symm.trans hinside
      simp [heq, wordFrom]
    · next h => cases h.symm.trans hinside
  | word _ hinside hv =>
    split
    · next h => cases h.symm.trans hinside
    · rw [wordFrom] at hv
      simp only [hv, gives_ok, Cursor.behindWord, and_self]
  | path _ hinside hv hnames =>
    split
    · next h => cases h.symm.trans hinside
    · obtain ⟨hd, heq⟩ := hnames.gives (Cursor.mk p (c :: s)).size [wordFrom c s] (by
        have := (Cursor.behindWord p c s).size_skipBlanks_le
        have := (List.dropWhile_sublist isWordPart (l := s)).length_le
        simp only [Cursor.behindWord, Cursor.past, Cursor.size, List.length_cons] at *
        omega)
      rw [wordFrom] at hv
      simp only [wordFrom, Cursor.behindWord] at heq
      simp only [hv, heq, wordFrom, gives_ok, List.reverse_singleton, List.singleton_append,
        and_self]

theorem Begins.gives_readHere {expression : ExprReader} {start after : Cursor} {e : Expr}
    (h : Begins expression start e after) : Gives (readHere expression start) e after := by
  have hword : ∀ {p : Nat} {c : Char} {s : List Char}, isWordStart c = true →
      Begins expression ⟨p, c :: s⟩ e after → Gives (readHere expression ⟨p, c :: s⟩) e after := by
    intro p c s hc h
    obtain ⟨hquote, hbracket⟩ := ne_quote_of_isWordStart hc
    simp only [readHere, hquote, hbracket, not_numberStart_of_isWordStart hc, hc, if_true,
      Bool.false_eq_true, if_false]
    exact h.gives_readWordExpression hc
  cases h with
  | @text p s _ _ _ hsplit htext =>
    obtain ⟨hd, heq⟩ : Gives (readLiteral ⟨p, '"' :: s⟩ s) _ _ :=
      gives_readLiteral.2 ⟨_, _, _, hsplit, htext, rfl, rfl⟩
    simp only [readHere, beq_self_eq_true, if_true, heq, gives_ok, true_and]
  | array hitems =>
    obtain ⟨hd, heq⟩ := gives_readItems.2 hitems
    simp [readHere, heq]
  | @number p c s _ hc hn =>
    obtain ⟨hquote, hbracket⟩ := ne_quote_of_numberStart hc
    obtain ⟨hd, heq⟩ : Gives (readNumber ⟨p, c :: s⟩ c s) _ _ :=
      gives_readNumber.2 ⟨_, hn, rfl, rfl⟩
    simp only [readHere, hquote, hbracket, hc, heq, if_true, Bool.false_eq_true, if_false,
      gives_ok, true_and]
  | call hc hinside hitems => exact hword hc (.call hc hinside hitems)
  | word hc hinside hv => exact hword hc (.word hc hinside hv)
  | path hc hinside hv hnames => exact hword hc (.path hc hinside hv hnames)

/-- The reader and the grammar agree, level by level. -/
theorem gives_readExpr_succ {depth : Nat} {c after : Cursor} {e : Expr} :
    Gives (readExpr (depth + 1) c) e after ↔ Begins (readExpr depth) c.skipBlanks e after := by
  constructor
  · intro h
    unfold readExpr at h
    split at h
    · simp at h
    · next last hlast heq =>
      rcases gives_ok.1 h with ⟨rfl, rfl⟩
      exact begins_of_gives_readHere ⟨hlast, heq⟩
  · intro h
    obtain ⟨hd, heq⟩ := h.gives_readHere
    unfold readExpr
    simp only [heq, gives_ok, and_self]

theorem not_gives_readExpr_zero {c after : Cursor} {e : Expr} :
    ¬ Gives (readExpr 0 c) e after := by
  simp [readExpr]

theorem ItemsFrom.depthAll_le {expression : ExprReader} {close : Char} {bound : Nat}
    {c after : Cursor} {items : List Expr}
    (hdepth : ∀ c e d, Gives (expression c) e d → e.depth ≤ bound)
    (h : ItemsFrom expression close c items after) : depthAll items ≤ bound := by
  induction h with
  | last he _ => simpa [depthAll] using hdepth _ _ _ he
  | more he _ _ _ ih => exact Nat.max_le.2 ⟨hdepth _ _ _ he, ih⟩

theorem Items.depthAll_le {expression : ExprReader} {close : Char} {bound : Nat}
    {c after : Cursor} {items : List Expr}
    (hdepth : ∀ c e d, Gives (expression c) e d → e.depth ≤ bound)
    (h : Items expression close c items after) : depthAll items ≤ bound := by
  cases h with
  | none _ => simp [depthAll]
  | some _ hitems => exact hitems.depthAll_le hdepth

/-- What is read at a depth is no deeper. -/
theorem depth_le_of_gives {depth : Nat} {c after : Cursor} {e : Expr}
    (h : Gives (readExpr depth c) e after) : e.depth ≤ depth := by
  induction depth generalizing c e after with
  | zero => exact absurd h not_gives_readExpr_zero
  | succ depth ih =>
    have hbegins := gives_readExpr_succ.1 h
    generalize c.skipBlanks = start at hbegins
    cases hbegins with
    | text | number | word | path => simp [Expr.depth]
    | array hitems => exact Nat.succ_le_succ (hitems.depthAll_le fun _ _ _ h => ih h)
    | call _ _ hitems => exact Nat.succ_le_succ (hitems.depthAll_le fun _ _ _ h => ih h)

end HtmlTemplate.Code
