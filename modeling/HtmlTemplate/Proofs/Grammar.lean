import HtmlTemplate.Proofs.Lexemes

/-!
# The grammar of render code in tokens

The grammar assigns sequences of tokens to an expression (`Derives`). The tokens of a path follow
each other at once, except that blanks may stand before the first point; a call keeps the byte at
which its name begins. Every layout of tokens that the grammar assigns to an expression is read as
that expression, if the expression is not nested too deep (`parse_of_derives`), and whatever is read
consists of tokens that the grammar assigns to the result (`derives_of_parse`).
-/

namespace HtmlTemplate.Code

open Text

/-- Names with a point before each, from byte `p` on and with nothing between. -/
inductive Dotted : Nat → List Lexeme → List String → Prop
  | none {p : Nat} : Dotted p [] []
  | more {p q r : Nat} {name : String} {ts : List Lexeme} {names : List String} :
      Dotted r ts names → Dotted p (⟨.mark '.', p, q⟩ :: ⟨.word name, q, r⟩ :: ts) (name :: names)

mutual

/-- The tokens are those of the expression. -/
inductive Derives : List Lexeme → Expr → Prop
  | text {p q : Nat} {s : String} : Derives [⟨.text s, p, q⟩] (.literal (.string s))
  | number {p q : Nat} {n : Json.Number} : Derives [⟨.number n, p, q⟩] (.literal (.number n))
  | word {p q : Nat} {name : String} {v : Json.Value} : wordValue? name = some v →
      Derives [⟨.word name, p, q⟩] (.literal v)
  | path {p q r : Nat} {name : String} {names : List String} {ts : List Lexeme} :
      wordValue? name = none → Dotted r ts names →
      Derives (⟨.word name, p, q⟩ :: ts) (.path (name :: names))
  | array {p q : Nat} {items : List Expr} {ts : List Lexeme} : DerivesItems ']' ts items →
      Derives (⟨.mark '[', p, q⟩ :: ts) (.array items)
  | call {p q p' q' : Nat} {name : String} {arguments : List Expr} {ts : List Lexeme} :
      DerivesItems ')' ts arguments →
      Derives (⟨.word name, p, q⟩ :: ⟨.mark '(', p', q'⟩ :: ts) (.call name arguments p)

/-- Any number of expressions with commas between, and the closing mark. -/
inductive DerivesItems : Char → List Lexeme → List Expr → Prop
  | none {close : Char} {p q : Nat} : DerivesItems close [⟨.mark close, p, q⟩] []
  | some {close : Char} {items : List Expr} {ts : List Lexeme} : DerivesFrom close ts items →
      DerivesItems close ts items

/-- Expressions with commas between, from one of them on, and the closing mark. -/
inductive DerivesFrom : Char → List Lexeme → List Expr → Prop
  | last {close : Char} {p q : Nat} {e : Expr} {ts : List Lexeme} : Derives ts e →
      DerivesFrom close (ts ++ [⟨.mark close, p, q⟩]) [e]
  | more {close : Char} {p q : Nat} {e : Expr} {items : List Expr} {ts more : List Lexeme} :
      Derives ts e → DerivesFrom close more items →
      DerivesFrom close (ts ++ ⟨.mark ',', p, q⟩ :: more) (e :: items)

end

/-! ## Every layout is read -/

/-- Whether a character ends a name of a path. -/
def isNameEnd (c : Char) : Bool := isMark c || c == '.'

theorem Marked.nameEnd {ts : List Lexeme} (h : Marked isMark ts) : Marked isNameEnd ts := by
  intro l hl
  obtain ⟨c, hmark, hc⟩ := h l hl
  exact ⟨c, hmark, by simp [isNameEnd, hc]⟩

theorem isWordPart_eq_false_of_isBlank {c : Char} (h : isBlank c = true) :
    isWordPart c = false := by
  rw [Bool.eq_false_iff]
  intro hpart
  simp [isBlank, isWordPart, Char.isAlphanum, isAlpha_eq, Char.isDigit, UInt32.le_iff_toNat_le,
    Char.ext_iff, ← UInt32.toNat_inj] at h hpart
  omega

theorem isNumberPart_eq_false_of_isBlank {c : Char} (h : isBlank c = true) :
    isNumberPart c = false := by
  rw [Bool.eq_false_iff]
  intro hpart
  simp [isBlank, isNumberPart, Char.isDigit, UInt32.le_iff_toNat_le, Char.ext_iff,
    ← UInt32.toNat_inj] at h hpart
  omega

theorem isWordPart_eq_false_of_isNameEnd {c : Char} (h : isNameEnd c = true) :
    isWordPart c = false := by
  rcases Bool.or_eq_true .. ▸ h with h | h
  · exact isWordPart_eq_false_of_isMark h
  · obtain rfl : c = '.' := by simpa using h
    decide

/-- A run of characters of a class ends where blanks come, or a character that is not of it. -/
theorem takeWhile_run {part : Char → Bool} (hblank : ∀ c, isBlank c = true → part c = false)
    {s rest : List Char} (hs : ∀ d ∈ s, part d = true)
    (hrest : ∀ c ∈ (dropBlanks rest).head?, part c = false) :
    (s ++ rest).takeWhile part = s ∧ (s ++ rest).dropWhile part = rest := by
  have hhead : ∀ d ∈ rest.head?, part d = false := fun d hd =>
    (isBlank_or_mem_head?_dropBlanks hd).elim (hblank d) (hrest d)
  rw [List.takeWhile_append_of_pos hs, List.dropWhile_append_of_pos hs]
  cases rest with
  | nil => simp
  | cons d rest => simp [hhead d rfl]

theorem wordFrom_behindWord {name : String} (hname : isWord name = true) {rest : List Char}
    (hrest : ∀ c ∈ (dropBlanks rest).head?, isWordPart c = false) (p : Nat) :
    ∃ c s, isWordStart c = true ∧ name.toList ++ rest = c :: s ∧ wordFrom c s = name ∧
      Cursor.behindWord p c s = ⟨p + extent name.toList, rest⟩ := by
  obtain ⟨c, s, hs, hc, hparts⟩ := eq_cons_of_isWord hname
  obtain ⟨htake, hdrop⟩ := takeWhile_run (fun _ => isWordPart_eq_false_of_isBlank) hparts hrest
  refine ⟨c, s ++ rest, hc, by rw [hs, List.cons_append], ?_, ?_⟩
  · rw [wordFrom, htake, ← hs, String.ofList_toList]
  · rw [Cursor.behindWord, Cursor.past, htake, hdrop, hs]

theorem Dotted.marked {p : Nat} {names : List String} {ts us : List Lexeme}
    (h : Dotted p ts names) (hus : Marked isMark us) : Marked isNameEnd (ts ++ us) := by
  cases h with
  | none => exact hus.nameEnd
  | more => exact marked_cons (by decide)

/-- Blanks may stand before the first point. -/
theorem Dotted.at_skipBlanks {p r : Nat} {s : List Char} {names : List String}
    {ts us : List Lexeme} (h : Dotted r ts names) (hlayout : Layout p s (ts ++ us)) :
    Dotted (Cursor.mk p s).skipBlanks.position ts names := by
  cases h with
  | none => exact .none
  | more hrest =>
    obtain ⟨rest, hskip, -⟩ := Layout.mark hlayout
    rw [hskip]
    exact .more hrest

/-- Behind a point and the name after it. -/
theorem past_point (p : Nat) (d : Char) (s : List Char) :
    (Cursor.mk p ('.' :: d :: s)).past ('.' :: d :: s.takeWhile isWordPart)
      (s.dropWhile isWordPart) = Cursor.behindWord (p + extent ['.']) d s := by
  simp [Cursor.behindWord, Cursor.past, Nat.add_assoc]

theorem head?_ne_point {s : List Char} (h : Ends (dropBlanks s)) : s.head? ≠ some '.' := by
  intro hpoint
  rcases isBlank_or_mem_head?_dropBlanks hpoint with hblank | hmark
  · exact absurd hblank (by decide)
  · exact absurd (h _ hmark) (by decide)

/-- The word that a layout begins with, before a mark or the end. -/
theorem Layout.word {p start stop : Nat} {s : List Char} {name : String} {ts : List Lexeme}
    (h : Layout p s (⟨.word name, start, stop⟩ :: ts)) {kind : Char → Bool}
    (hkind : ∀ c, kind c = true → isWordPart c = false) (hts : Marked kind ts) :
    ∃ c w, isWordStart c = true ∧ (Cursor.mk p s).skipBlanks = ⟨start, c :: w⟩ ∧
      wordFrom c w = name ∧ stop = (Cursor.behindWord start c w).position ∧
      Layout stop (Cursor.behindWord start c w).rest ts := by
  obtain ⟨_, rest, hspells, hskip, rfl, hrest⟩ := cons_iff.1 h
  cases hspells with
  | word hname =>
    obtain ⟨c, w, hc, hw, hword, hcursor⟩ := wordFrom_behindWord hname
      (fun c hc => hkind c (hrest.head?_of_marked hts c hc)) start
    exact ⟨c, w, hc, by rw [hskip, hw], hword, by rw [hcursor], by rwa [hcursor]⟩

/-- The names of a path behind the first one are read up to what follows the path. -/
theorem segments_of_dotted {names : List String} {ts us : List Lexeme} {p : Nat} {s : List Char}
    (h : Dotted p ts names) (hlayout : Layout p s (ts ++ us)) (hus : Marked isMark us) :
    ∃ d, Segments ⟨p, s⟩ names d ∧ Layout d.position d.rest us := by
  induction h generalizing s with
  | none => exact ⟨⟨_, s⟩, .none (head?_ne_point (hlayout.head?_of_marked hus)), hlayout⟩
  | @more p q r name ts names hdotted ih =>
    obtain ⟨rest, hpoint, rfl, hrest⟩ := Layout.mark hlayout
    obtain rfl := Cursor.eq_of_skipBlanks hpoint
    obtain ⟨c, w, hc, hskip, rfl, rfl, hbehind⟩ :=
      hrest.word (fun _ => isWordPart_eq_false_of_isNameEnd) (hdotted.marked hus)
    obtain rfl := Cursor.eq_of_skipBlanks hskip
    obtain ⟨d, hsegments, hd⟩ := ih hbehind
    refine ⟨d, .more hc ?_, hd⟩
    rw [past_point]
    exact hsegments

section

variable {n : Nat}

/-- What the readers of a depth do with the layouts of expressions: they read each, up to what
follows it. -/
def ReadsLayouts (n : Nat) : Prop :=
  ∀ {e : Expr} {ts us : List Lexeme} {p : Nat} {s : List Char}, Derives ts e → e.depth ≤ n →
    Layout p s (ts ++ us) → Marked isMark us →
    ∃ d, Gives (readExpr n ⟨p, s⟩) e d ∧ Layout d.position d.rest us

variable (hread : ReadsLayouts n)

include hread

theorem itemsFrom_of_derivesFrom {close : Char} (hclose : isMark close = true)
    (hcomma : close ≠ ',') {items : List Expr} {ts us : List Lexeme} {p : Nat} {s : List Char}
    (h : DerivesFrom close ts items) (hdepth : depthAll items ≤ n)
    (hlayout : Layout p s (ts ++ us)) :
    ∃ d, ItemsFrom (readExpr n) close ⟨p, s⟩ items d ∧ Layout d.position d.rest us := by
  induction items generalizing ts p s with
  | nil => cases h
  | cons e items ih =>
    obtain ⟨he, hitems⟩ := Nat.max_le.1 hdepth
    cases h with
    | last hts =>
      rw [List.append_assoc] at hlayout
      obtain ⟨d, hgives, hd⟩ := hread hts he hlayout (marked_cons hclose)
      obtain ⟨after, htake, hafter⟩ := hd.take?
      exact ⟨after, .last hgives htake, hafter⟩
    | more hts hmore =>
      rw [List.append_assoc] at hlayout
      obtain ⟨d, hgives, hd⟩ := hread hts he hlayout
        (marked_cons (by decide))
      have hnone : d.take? close = none :=
        hd.take?_eq_none marked_self (beq_eq_false_iff_ne.2 hcomma)
      obtain ⟨next, htake, hnext⟩ := hd.take?
      obtain ⟨after, hmore, hafter⟩ := ih hmore hitems hnext
      exact ⟨after, .more hgives hnone htake hmore, hafter⟩

theorem items_of_derivesItems {close : Char} (hclose : isMark close = true) (hcomma : close ≠ ',')
    {items : List Expr} {ts us : List Lexeme} {p : Nat} {s : List Char}
    (h : DerivesItems close ts items) (hdepth : depthAll items ≤ n)
    (hlayout : Layout p s (ts ++ us)) :
    ∃ d, Items (readExpr n) close ⟨p, s⟩ items d ∧ Layout d.position d.rest us := by
  cases h with
  | none =>
    obtain ⟨after, htake, hafter⟩ := hlayout.take?
    exact ⟨after, .none htake, hafter⟩
  | some h =>
    obtain ⟨after, hitems, hafter⟩ :=
      itemsFrom_of_derivesFrom hread hclose hcomma h hdepth hlayout
    refine ⟨after, .some ?_ hitems, hafter⟩
    obtain ⟨x, more, hx, hmark⟩ := hitems.opens (opens_readExpr n)
    rw [Cursor.take?_eq_none_iff, hx]
    rintro ⟨⟩
    rw [hclose] at hmark
    cases hmark

/-- The grammar of one level reads the layouts of expressions one level deeper. -/
theorem begins_of_derives {e : Expr} {ts us : List Lexeme} {p : Nat} {s : List Char}
    (h : Derives ts e) (hdepth : e.depth ≤ n + 1) (hlayout : Layout p s (ts ++ us))
    (hus : Marked isMark us) :
    ∃ d, Begins (readExpr n) (Cursor.mk p s).skipBlanks e d ∧ Layout d.position d.rest us := by
  cases h with
  | text =>
    obtain ⟨_, rest, hspells, hskip, rfl, hrest⟩ := Layout.cons_iff.1 hlayout
    cases hspells with
    | @text body value hvalue =>
      have hwritten : '"' :: (body ++ ['"']) ++ rest = '"' :: (body ++ '"' :: rest) := by simp
      rw [hskip, hwritten]
      exact ⟨⟨_, rest⟩, .text (Json.splitLiteral?_of_textOfLiteral hvalue rest) hvalue, hrest⟩
  | @number start =>
    obtain ⟨_, rest, hspells, hskip, rfl, hrest⟩ := Layout.cons_iff.1 hlayout
    cases hspells with
    | number hn =>
      obtain ⟨c, w, rfl, hc, hparts⟩ := Json.isNumberPart_of_number? hn
      obtain ⟨htake, hdrop⟩ := takeWhile_run (fun _ => isNumberPart_eq_false_of_isBlank) hparts
        fun c hc => isNumberPart_eq_false_of_isMark (hrest.head?_of_marked hus c hc)
      have hbegins : Begins (readExpr n) ⟨start, c :: (w ++ rest)⟩ _ _ := .number hc (by
        rw [htake]
        exact hn)
      rw [Cursor.past, htake, hdrop] at hbegins
      rw [hskip]
      exact ⟨_, hbegins, hrest⟩
  | word hv =>
    obtain ⟨c, w, hc, hskip, rfl, rfl, hrest⟩ :=
      Layout.word hlayout (fun _ => isWordPart_eq_false_of_isMark) hus
    rw [hskip]
    exact ⟨_, .word hc (hrest.take?_eq_none hus (by decide)) hv, Layout.skipBlanks hrest⟩
  | path hv hdotted =>
    have hends := hdotted.marked hus
    obtain ⟨c, w, hc, hskip, rfl, rfl, hrest⟩ :=
      Layout.word hlayout (fun _ => isWordPart_eq_false_of_isNameEnd) hends
    obtain ⟨d, hsegments, hd⟩ :=
      segments_of_dotted (hdotted.at_skipBlanks hrest) (Layout.skipBlanks hrest) hus
    rw [hskip]
    exact ⟨d, .path hc (hrest.take?_eq_none hends (by decide)) hv hsegments, hd⟩
  | array hitems =>
    obtain ⟨rest, hskip, rfl, hrest⟩ := Layout.mark hlayout
    obtain ⟨d, hread, hd⟩ := items_of_derivesItems hread (by decide) (by decide) hitems
      (Nat.le_of_succ_le_succ hdepth) hrest
    rw [hskip]
    exact ⟨d, .array hread, hd⟩
  | call hitems =>
    obtain ⟨c, w, hc, hskip, rfl, rfl, hparen⟩ := Layout.word hlayout (by simp; decide) marked_self
    obtain ⟨inside, htake, hinside⟩ := Layout.take? hparen
    obtain ⟨d, hread, hd⟩ := items_of_derivesItems hread (by decide) (by decide) hitems
      (Nat.le_of_succ_le_succ hdepth) hinside
    rw [hskip]
    exact ⟨d, .call hc htake hread, hd⟩

end

/-- Every layout of an expression is read, by every reader that looks deep enough. -/
theorem readsLayouts (n : Nat) : ReadsLayouts n := by
  induction n with
  | zero =>
    intro e _ _ _ _ _ hdepth
    exact absurd hdepth (Nat.not_le_of_gt e.depth_pos)
  | succ n ih =>
    intro e ts us p s h hdepth hlayout hus
    obtain ⟨d, hbegins, hd⟩ := begins_of_derives ih h hdepth hlayout hus
    exact ⟨d, gives_readExpr_succ.2 hbegins, hd⟩

theorem parse_of_derives {code : String} {e : Expr} {ts : List Lexeme} (h : Derives ts e)
    (hdepth : e.depth ≤ depthLimit) (hlayout : Layout 0 code.toList ts) : parse code = .ok e := by
  rw [← List.append_nil ts] at hlayout
  obtain ⟨d, hgives, hd⟩ := readsLayouts depthLimit h hdepth hlayout (by simp [Marked])
  exact parse_eq_ok_iff.2 ⟨d, hgives, hd.dropBlanks_eq_nil⟩

/-! ## What is read consists of the tokens of the result -/

/-- The tokens from `c` on are `ts` and then those from `d` on. -/
def Spans (c : Cursor) (ts : List Lexeme) (d : Cursor) : Prop :=
  ∀ us, lexemes? d.position d.rest = some us → lexemes? c.position c.rest = some (ts ++ us)

theorem Spans.refl (c : Cursor) : Spans c [] c := fun _ h => h

theorem Spans.trans {c d e : Cursor} {ts us : List Lexeme} (h : Spans c ts d) (h' : Spans d us e) :
    Spans c (ts ++ us) e := by
  intro more hmore
  rw [List.append_assoc]
  exact h _ (h' _ hmore)

theorem spans_skipBlanks {c : Cursor} : Spans c [] c.skipBlanks := by
  intro us h
  rwa [lexemes?_skipBlanks] at h

/-- A cursor before a token, without blanks before it. -/
theorem spans_of_read? {p : Nat} {s written rest : List Char} {t : Terminal}
    (h : Terminal.read? s = some (t, written, rest)) :
    Spans ⟨p, s⟩ [⟨t, p, p + extent written⟩] ⟨p + extent written, rest⟩ := by
  intro us hus
  obtain ⟨rfl, hspells⟩ := Terminal.spells_of_read? h
  obtain ⟨c, tail, rfl, hc⟩ := hspells.eq_cons
  have hdrop : dropBlanks (c :: tail ++ rest) = c :: tail ++ rest := by simp [dropBlanks, hc]
  have hlead : leadingBlanks (c :: tail ++ rest) = [] := by simp [leadingBlanks, hc]
  have hread := h
  have hrest := hus
  rw [← hdrop] at hread
  rw [← Nat.add_zero p, ← extent_nil, ← hlead] at hrest
  have hmore := lexemes?_of_read? hread hrest
  rwa [hlead] at hmore

theorem Terminal.read?_mark {m : Char} (hm : isPunctuation m = true) (s : List Char) :
    Terminal.read? (m :: s) = some (.mark m, [m], s) := by
  simp only [isPunctuation, Bool.or_eq_true, beq_iff_eq] at hm
  rcases hm with ((((rfl | rfl) | rfl) | rfl) | rfl) | rfl <;> rfl

theorem spans_take? {c d : Cursor} {m : Char} (hm : isPunctuation m = true)
    (h : c.take? m = some d) : Spans c [⟨.mark m, c.skipBlanks.position, d.position⟩] d := by
  obtain ⟨hrest, hposition⟩ := Cursor.take?_eq_some_iff.1 h
  have hmark := spans_of_read? (p := c.skipBlanks.position) (Terminal.read?_mark hm d.rest)
  rw [← hrest, extent_cons, extent_nil, Nat.add_zero, ← hposition] at hmark
  exact spans_skipBlanks.trans hmark

theorem spans_behindWord {c : Char} (hc : isWordStart c = true) (p : Nat) (s : List Char) :
    Spans ⟨p, c :: s⟩ [⟨.word (wordFrom c s), p, (Cursor.behindWord p c s).position⟩]
      (Cursor.behindWord p c s) := by
  have hquote := (ne_quote_of_isWordStart hc).1
  exact spans_of_read? (by
    simp only [Terminal.read?, hquote, hc, if_true, Bool.false_eq_true, if_false])

theorem dotted_of_segments {c d : Cursor} {names : List String} (h : Segments c names d) :
    ∃ ts, Dotted c.position ts names ∧ Spans c ts d := by
  induction h with
  | none => exact ⟨[], .none, .refl _⟩
  | @more p x rest names after hx _ ih =>
    rw [past_point] at ih
    obtain ⟨ts, hts, hspans⟩ := ih
    exact ⟨_, .more hts, (spans_of_read? (Terminal.read?_mark (by decide) _)).trans
      ((spans_behindWord hx _ rest).trans hspans)⟩

section

/-- What an expression is read from is made of its tokens. -/
def ReadsTokens (expression : ExprReader) : Prop :=
  ∀ {c d : Cursor} {e : Expr}, Gives (expression c) e d → ∃ ts, Derives ts e ∧ Spans c ts d

variable {expression : ExprReader} (hread : ReadsTokens expression)

include hread

theorem derivesFrom_of_itemsFrom {close : Char} (hclose : isPunctuation close = true)
    {c d : Cursor} {items : List Expr} (h : ItemsFrom expression close c items d) :
    ∃ ts, DerivesFrom close ts items ∧ Spans c ts d := by
  induction h with
  | last he hlast =>
    obtain ⟨ts, hts, hspans⟩ := hread he
    exact ⟨_, .last hts, hspans.trans (spans_take? hclose hlast)⟩
  | more he _ hnext _ ih =>
    obtain ⟨ts, hts, hspans⟩ := hread he
    obtain ⟨more, hmore, hrest⟩ := ih
    exact ⟨_, .more hts hmore, hspans.trans ((spans_take? (by decide) hnext).trans hrest)⟩

theorem derivesItems_of_items {close : Char} (hclose : isPunctuation close = true)
    {c d : Cursor} {items : List Expr} (h : Items expression close c items d) :
    ∃ ts, DerivesItems close ts items ∧ Spans c ts d := by
  cases h with
  | none hlast => exact ⟨_, .none, spans_take? hclose hlast⟩
  | some _ hitems =>
    obtain ⟨ts, hts, hspans⟩ := derivesFrom_of_itemsFrom hread hclose hitems
    exact ⟨ts, .some hts, hspans⟩

theorem derives_of_begins {c d : Cursor} {e : Expr} (h : Begins expression c e d) :
    ∃ ts, Derives ts e ∧ Spans c ts d := by
  cases h with
  | text hsplit htext =>
    exact ⟨_, .text, spans_of_read? (by
      simp only [Terminal.read?, beq_self_eq_true, if_true, hsplit, htext])⟩
  | array hitems =>
    obtain ⟨ts, hts, hspans⟩ := derivesItems_of_items hread (by decide) hitems
    exact ⟨_, .array hts, (spans_of_read? (Terminal.read?_mark (by decide) _)).trans hspans⟩
  | @number _ c _ _ hc hn =>
    obtain ⟨hquote, -⟩ := ne_quote_of_numberStart hc
    have hword : isWordStart c = false := by
      rw [Bool.eq_false_iff]
      intro hword
      rw [not_numberStart_of_isWordStart hword] at hc
      cases hc
    exact ⟨_, .number, spans_of_read? (by
      simp only [Terminal.read?, hquote, hword, hc, hn, if_true, Bool.false_eq_true, if_false])⟩
  | @call p c s _ _ _ hc hinside hitems =>
    obtain ⟨ts, hts, hspans⟩ := derivesItems_of_items hread (by decide) hitems
    exact ⟨_, .call hts, (spans_behindWord hc p s).trans
      ((spans_take? (by decide) hinside).trans hspans)⟩
  | @word p c s v hc _ hv =>
    exact ⟨_, .word hv, (spans_behindWord hc p s).trans spans_skipBlanks⟩
  | @path p c s _ _ hc _ hv hnames =>
    obtain ⟨ts, hts, hspans⟩ := dotted_of_segments hnames
    exact ⟨_, .path hv hts, (spans_behindWord hc p s).trans (spans_skipBlanks.trans hspans)⟩

end

theorem readsTokens (n : Nat) : ReadsTokens (readExpr n) := by
  induction n with
  | zero =>
    intro c d e h
    exact absurd h not_gives_readExpr_zero
  | succ n ih =>
    intro c d e h
    obtain ⟨ts, hts, hspans⟩ := derives_of_begins ih (gives_readExpr_succ.1 h)
    exact ⟨ts, hts, spans_skipBlanks.trans hspans⟩

theorem derives_of_parse {code : String} {e : Expr} (h : parse code = .ok e) :
    e.depth ≤ depthLimit ∧ ∃ ts, lexemes? 0 code.toList = some ts ∧ Derives ts e := by
  obtain ⟨d, hgives, hrest⟩ := parse_eq_ok_iff.1 h
  obtain ⟨ts, hts, hspans⟩ := readsTokens depthLimit hgives
  have hlexemes := hspans [] (lexemes?_of_blank hrest)
  rw [List.append_nil] at hlexemes
  exact ⟨depth_le_of_gives hgives, ts, hlexemes, hts⟩

/-- Code is accepted exactly if the grammar assigns its tokens to an expression that is not nested
too deep. -/
theorem parse_eq_ok_iff_derives {code : String} {e : Expr} :
    parse code = .ok e ↔
      e.depth ≤ depthLimit ∧ ∃ ts, lexemes? 0 code.toList = some ts ∧ Derives ts e := by
  constructor
  · exact derives_of_parse
  · rintro ⟨hdepth, ts, hlexemes, hts⟩
    exact parse_of_derives hts hdepth (layout_of_lexemes? hlexemes)

end HtmlTemplate.Code
