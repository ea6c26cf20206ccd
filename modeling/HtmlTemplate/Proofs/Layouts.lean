import HtmlTemplate.Proofs.Grammar

/-!
# Every plain expression has layouts, and they are what is accepted

The plain expressions are those that render code is documented to have (`Expr.IsPlain`). Each has a
layout (`IsPlain.exists_layout`), so that nothing the documentation promises is out of reach of the
grammar; every layout is read as its expression, and whatever is read is made of the tokens that the
grammar assigns to the result (`parse_accepts_grammar`).
-/

namespace HtmlTemplate.Code

open Text

/-- Texts, integers, truth values and null, paths of names, arrays and calls. An integer has 64 bits
if it is not negative, and 63 beside its sign if it is. -/
inductive Expr.IsPlain : Expr → Prop
  | string (s : String) : IsPlain (.literal (.string s))
  | integer {n : Int} : -Nat.pow 2 63 ≤ n → n ≤ Json.maxSignificand →
      IsPlain (.literal (.number (.integer n)))
  | bool (b : Bool) : IsPlain (.literal (.bool b))
  | null : IsPlain (.literal .null)
  | path {first : String} {names : List String} : wordValue? first = none →
      (∀ name ∈ first :: names, isWord name = true) → IsPlain (.path (first :: names))
  | array {items : List Expr} : (∀ e ∈ items, e.IsPlain) → IsPlain (.array items)
  | call {helper : String} {arguments : List Expr} {offset : Nat} : isWord helper = true →
      (∀ e ∈ arguments, e.IsPlain) → IsPlain (.call helper arguments offset)

/-- A layout of the tokens, whatever is laid out behind it. -/
def LaidOut (p : Nat) (s : List Char) (ts : List Lexeme) : Prop :=
  ∀ (rest : List Char) (us : List Lexeme), Layout (p + extent s) rest us →
    Layout p (s ++ rest) (ts ++ us)

theorem LaidOut.append {p : Nat} {s t : List Char} {ts us : List Lexeme} (hs : LaidOut p s ts)
    (ht : LaidOut (p + extent s) t us) : LaidOut p (s ++ t) (ts ++ us) := by
  intro rest more h
  rw [List.append_assoc, List.append_assoc]
  rw [extent_append, ← Nat.add_assoc] at h
  exact hs _ _ (ht _ _ h)

theorem laidOut_token {t : Terminal} {written : List Char} (h : t.Spells written) (p : Nat) :
    LaidOut p written [⟨t, p, p + extent written⟩] := by
  intro rest us hrest
  have hblanks : ∀ c ∈ ([] : List Char), isBlank c = true := by simp
  exact Layout.token hblanks h hrest

/-- Some layout at any byte stands for the expression, the offsets of its calls aside. -/
def HasLayout (e : Expr) : Prop :=
  ∀ p, ∃ s ts e', e'.bare = e.bare ∧ Derives ts e' ∧ LaidOut p s ts

theorem hasLayout_of_spells {e : Expr} {t : Terminal} {written : List Char} (h : t.Spells written)
    (he : ∀ p q, Derives [⟨t, p, q⟩] e) : HasLayout e :=
  fun p => ⟨written, _, e, rfl, he _ _, laidOut_token h p⟩

theorem hasLayout_of_wordValue? {word : String} {v : Json.Value} (hv : wordValue? word = some v)
    (hword : isWord word = true) : HasLayout (.literal v) :=
  hasLayout_of_spells (.word hword) fun _ _ => .word hv

theorem hasLayout_integer {n : Int} (hmin : -Nat.pow 2 63 ≤ n) (hmax : n ≤ Json.maxSignificand) :
    HasLayout (.literal (.number (.integer n))) := by
  cases n with
  | ofNat n =>
    exact hasLayout_of_spells (.number (Json.number?_toDigits (Int.ofNat_le.1 hmax)))
      fun _ _ => .number
  | negSucc n =>
    have hnumber := Json.number?_minus_toDigits (n := n + 1) (by omega) (by omega)
    exact hasLayout_of_spells (.number hnumber) fun _ _ => .number

theorem exists_dotted {names : List String} (h : ∀ name ∈ names, isWord name = true) (p : Nat) :
    ∃ s ts, Dotted p ts names ∧ LaidOut p s ts := by
  induction names generalizing p with
  | nil => exact ⟨[], [], .none, fun _ _ hrest => hrest⟩
  | cons name names ih =>
    have hpoint := laidOut_token (.mark (c := '.') (by decide)) p
    have hname := laidOut_token (.word (h name (by simp))) (p + extent ['.'])
    obtain ⟨s, ts, hdotted, hlayout⟩ :=
      ih (fun name hmem => h name (by simp [hmem])) (p + extent ['.'] + extent name.toList)
    exact ⟨_, _, .more hdotted, hpoint.append (hname.append hlayout)⟩

section

variable {close : Char} (hclose : isPunctuation close = true)

include hclose

theorem exists_derivesFrom {items : List Expr} (hitems : items ≠ [])
    (h : ∀ e ∈ items, HasLayout e) (p : Nat) :
    ∃ s ts items', bareAll items' = bareAll items ∧ DerivesFrom close ts items' ∧
      LaidOut p s ts := by
  induction items generalizing p with
  | nil => exact absurd rfl hitems
  | cons e items ih =>
    obtain ⟨s, ts, e', hbare, hderives, hlayout⟩ := h e (by simp) p
    by_cases hlast : items = []
    · subst hlast
      have hend := laidOut_token (.mark hclose) (p + extent s)
      exact ⟨s ++ [close], _, [e'], by simp [bareAll, hbare], .last hderives, hlayout.append hend⟩
    · have hcomma := laidOut_token (.mark (c := ',') (by decide)) (p + extent s)
      obtain ⟨t, us, items', hbares, hmore, hrest⟩ :=
        ih hlast (fun e hmem => h e (by simp [hmem])) (p + extent s + extent [','])
      exact ⟨s ++ ([','] ++ t), _, e' :: items', by simp [bareAll, hbare, hbares],
        .more hderives hmore, hlayout.append (hcomma.append hrest)⟩

theorem exists_derivesItems {items : List Expr} (h : ∀ e ∈ items, HasLayout e) (p : Nat) :
    ∃ s ts items', bareAll items' = bareAll items ∧ DerivesItems close ts items' ∧
      LaidOut p s ts := by
  by_cases hitems : items = []
  · subst hitems
    exact ⟨[close], _, [], rfl, .none, laidOut_token (.mark hclose) p⟩
  · obtain ⟨s, ts, items', hbares, hfrom, hlayout⟩ := exists_derivesFrom hclose hitems h p
    exact ⟨s, ts, items', hbares, .some hfrom, hlayout⟩

end

theorem Expr.IsPlain.hasLayout {e : Expr} (h : e.IsPlain) : HasLayout e := by
  induction h with
  | string s =>
    have hspells := Terminal.Spells.text (Json.textOfLiteral_escaped s.toList)
    rw [String.ofList_toList] at hspells
    exact hasLayout_of_spells hspells fun _ _ => .text
  | integer hmin hmax => exact hasLayout_integer hmin hmax
  | bool b =>
    cases b with
    | false => exact hasLayout_of_wordValue? (show wordValue? "false" = _ from rfl) (by decide)
    | true => exact hasLayout_of_wordValue? (show wordValue? "true" = _ from rfl) (by decide)
  | null => exact hasLayout_of_wordValue? (show wordValue? "null" = _ from rfl) (by decide)
  | @path first names hvalue hnames =>
    intro p
    have hfirst := laidOut_token (.word (hnames first (by simp))) p
    obtain ⟨s, ts, hdotted, hlayout⟩ := exists_dotted
      (fun name (hmem : name ∈ names) => hnames name (by simp [hmem])) (p + extent first.toList)
    exact ⟨_, _, _, rfl, .path hvalue hdotted, hfirst.append hlayout⟩
  | array _ ih =>
    intro p
    have hopen := laidOut_token (.mark (c := '[') (by decide)) p
    obtain ⟨s, ts, items, hbares, hitems, hlayout⟩ :=
      exists_derivesItems (show isPunctuation ']' = true from rfl) ih (p + extent ['['])
    exact ⟨_, _, _, by simp [Expr.bare, hbares], .array hitems, hopen.append hlayout⟩
  | @call helper _ _ hhelper _ ih =>
    intro p
    have hname := laidOut_token (.word hhelper) p
    have hopen := laidOut_token (.mark (c := '(') (by decide)) (p + extent helper.toList)
    obtain ⟨s, ts, items, hbares, hitems, hlayout⟩ :=
      exists_derivesItems (show isPunctuation ')' = true from rfl) ih
        (p + extent helper.toList + extent ['('])
    exact ⟨_, _, _, by simp [Expr.bare, hbares], .call hitems,
      hname.append (hopen.append hlayout)⟩

theorem Expr.IsPlain.exists_layout {e : Expr} (h : e.IsPlain) :
    ∃ e' ts code, e'.bare = e.bare ∧ Derives ts e' ∧ Layout 0 (String.toList code) ts := by
  obtain ⟨s, ts, e', hbare, hderives, hlayout⟩ := h.hasLayout 0
  refine ⟨e', ts, String.ofList s, hbare, hderives, ?_⟩
  have hend := hlayout [] [] (.blanks rfl)
  rwa [List.append_nil, List.append_nil, ← String.toList_ofList (l := s)] at hend

/-- The code that is accepted is that of the grammar. Every plain expression can be laid out. Every
layout of an expression that is nested at most 1024 deep is read as that expression, with the byte
of each call. Whatever is read is nested no deeper, and its tokens, to the last, are those that the
grammar assigns to the result. -/
theorem parse_accepts_grammar :
    (∀ e : Expr, e.IsPlain →
      ∃ e' ts code, e'.bare = e.bare ∧ Derives ts e' ∧ Layout 0 (String.toList code) ts) ∧
    (∀ (e : Expr) (ts : List Lexeme) (code : String), Derives ts e → Layout 0 code.toList ts →
      e.depth ≤ depthLimit → parse code = .ok e) ∧
    (∀ (e : Expr) (code : String), parse code = .ok e →
      e.depth ≤ depthLimit ∧ ∃ ts, lexemes? 0 code.toList = some ts ∧ Derives ts e) := by
  refine ⟨?_, ?_, ?_⟩
  · intro e he
    exact he.exists_layout
  · intro e ts code hderives hlayout hdepth
    exact parse_of_derives hderives hdepth hlayout
  · intro e code hparse
    exact derives_of_parse hparse

/-- A path in a call, with blanks behind the parenthesis and at the end. -/
theorem parse_accepts_grammar_blanks :
    (∃ e' ts code, e'.bare = (Expr.call "f" [.path ["a", "b"]] 0).bare ∧ Derives ts e' ∧
      Layout 0 (String.toList code) ts) ∧
    parse "f( a.b) " = .ok (.call "f" [.path ["a", "b"]] 0) ∧
    ∃ ts, lexemes? 0 "f( a.b) ".toList = some ts ∧ Derives ts (.call "f" [.path ["a", "b"]] 0) := by
  have hplain : (Expr.call "f" [.path ["a", "b"]] 0).IsPlain := by
    refine .call (by decide) ?_
    intro e he
    obtain rfl := List.mem_singleton.1 he
    exact .path rfl (by decide)
  have hpath : Derives [⟨.word "a", 3, 4⟩, ⟨.mark '.', 4, 5⟩, ⟨.word "b", 5, 6⟩]
      (.path ["a", "b"]) := .path rfl (.more .none)
  have hderives : Derives [⟨.word "f", 0, 1⟩, ⟨.mark '(', 1, 2⟩, ⟨.word "a", 3, 4⟩,
      ⟨.mark '.', 4, 5⟩, ⟨.word "b", 5, 6⟩, ⟨.mark ')', 6, 7⟩]
      (.call "f" [.path ["a", "b"]] 0) := .call (.some (.last hpath))
  have hlayout : Layout 0 "f( a.b) ".toList [⟨.word "f", 0, 1⟩, ⟨.mark '(', 1, 2⟩,
      ⟨.word "a", 3, 4⟩, ⟨.mark '.', 4, 5⟩, ⟨.word "b", 5, 6⟩, ⟨.mark ')', 6, 7⟩] := by
    refine Layout.cons_iff.2 ⟨['f'], _, .word (show isWord "f" = true from rfl), rfl, rfl, ?_⟩
    refine Layout.cons_iff.2 ⟨['('], _, .mark rfl, rfl, rfl, ?_⟩
    refine Layout.cons_iff.2 ⟨['a'], _, .word (show isWord "a" = true from rfl), rfl, rfl, ?_⟩
    refine Layout.cons_iff.2 ⟨['.'], _, .mark rfl, rfl, rfl, ?_⟩
    refine Layout.cons_iff.2 ⟨['b'], _, .word (show isWord "b" = true from rfl), rfl, rfl, ?_⟩
    refine Layout.cons_iff.2 ⟨[')'], _, .mark rfl, rfl, rfl, ?_⟩
    exact .blanks rfl
  obtain ⟨hwritable, hcomplete, hsound⟩ := parse_accepts_grammar
  have hparse := hcomplete _ _ _ hderives hlayout (by decide)
  exact ⟨hwritable _ hplain, hparse, (hsound _ _ hparse).2⟩

end HtmlTemplate.Code
