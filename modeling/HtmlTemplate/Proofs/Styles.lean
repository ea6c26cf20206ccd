import HtmlTemplate.Proofs.DirectiveNames
import HtmlTemplate.Proofs.Splitting
import HtmlTemplate.Template.Module

/-!
# The normal form of a style

Only a `;` outside parentheses ends a declaration, where a closing parenthesis that nothing opened
counts for nothing (`styleDepth`). In a style that closes all parentheses it opens, every
declaration does so too (`whole_of_mem_declarationsFrom`); the blanks that are taken off neither
open nor close anything, so what is kept of a declaration is read again as this one declaration. The
normal form is therefore its own normal form, and the normal forms of such styles can be put one
behind the other (`normalStyle_stable`).
-/

namespace HtmlTemplate.Template

open Text

/-! ### Depth -/

/-- How many parentheses are open after a character. -/
def nested (depth : Nat) (c : Char) : Nat :=
  if c == '(' then depth + 1 else if c == ')' then depth - 1 else depth

/-- How many parentheses are open at the end of a style. -/
def styleDepth (style : String) : Nat := style.toList.foldl nested 0

/-- As `nested`, but nothing if the character ends a declaration. -/
def within? (depth : Nat) (c : Char) : Option Nat :=
  if c == ';' && depth == 0 then none else some (nested depth c)

/-- No character ends the declaration, and all parentheses are closed at its end. -/
def Whole (declaration : List Char) : Prop := declaration.foldlM within? 0 = some 0

theorem within?_eq_none {depth : Nat} {c : Char} (h : within? depth c = none) :
    c = ';' ∧ depth = 0 := by
  unfold within? at h
  split at h
  · next hends => simpa using hends
  · cases h

theorem nested_of_within? {depth next : Nat} {c : Char} (h : within? depth c = some next) :
    nested depth c = next := by
  unfold within? at h
  split at h
  · cases h
  · exact Option.some.inj h

theorem foldl_nested_of_within? {s : List Char} {depth final : Nat}
    (h : s.foldlM within? depth = some final) : s.foldl nested depth = final := by
  induction s generalizing depth with
  | nil => simpa using h
  | cons c s ih =>
    obtain ⟨next, hnext, hrest⟩ := Option.bind_eq_some_iff.1 (by simpa using h)
    obtain rfl := nested_of_within? hnext
    exact ih hrest

/-! ### Cutting a style into declarations -/

theorem declarationsFrom_cons (depth : Nat) (begun : List Char) (c : Char) (rest : List Char) :
    declarationsFrom depth begun (c :: rest) =
      match within? depth c with
      | none => begun.reverse :: declarationsFrom 0 [] rest
      | some next => declarationsFrom next (c :: begun) rest := by
  rw [declarationsFrom, within?]
  split <;> rfl

/-- Behind a `;` outside parentheses the cutting begins anew. -/
theorem declarationsFrom_append_cons {s : List Char} {depth : Nat} (h : s.foldl nested depth = 0)
    (begun t : List Char) :
    declarationsFrom depth begun (s ++ ';' :: t) =
      declarationsFrom depth begun s ++ declarationsFrom 0 [] t := by
  induction s generalizing depth begun with
  | nil =>
    obtain rfl : depth = 0 := h
    rfl
  | cons c s ih =>
    rw [List.cons_append, declarationsFrom_cons, declarationsFrom_cons]
    split
    · next hends =>
      obtain ⟨rfl, rfl⟩ := within?_eq_none hends
      have hrest : s.foldl nested 0 = 0 := h
      rw [ih hrest, List.cons_append]
    · next hinside =>
      obtain rfl := nested_of_within? hinside
      exact ih h _

theorem declarationsFrom_of_within? {s : List Char} {depth final : Nat}
    (h : s.foldlM within? depth = some final) (begun : List Char) :
    declarationsFrom depth begun s = [begun.reverse ++ s] := by
  induction s generalizing depth begun with
  | nil => simp [declarationsFrom]
  | cons c s ih =>
    obtain ⟨next, hnext, hrest⟩ := Option.bind_eq_some_iff.1 (by simpa using h)
    rw [declarationsFrom_cons, hnext]
    refine (ih hrest (c :: begun)).trans ?_
    rw [List.reverse_cons, List.append_assoc, List.singleton_append]

/-- The declarations of a style that closes its parentheses close theirs. -/
theorem whole_of_mem_declarationsFrom {s begun : List Char} {depth : Nat}
    (hbegun : begun.reverse.foldlM within? 0 = some depth) (h : s.foldl nested depth = 0) :
    ∀ d ∈ declarationsFrom depth begun s, Whole d := by
  induction s generalizing depth begun with
  | nil =>
    obtain rfl : depth = 0 := h
    exact List.forall_mem_singleton.2 hbegun
  | cons c s ih =>
    rw [declarationsFrom_cons]
    split
    · next hends =>
      obtain ⟨rfl, rfl⟩ := within?_eq_none hends
      have hnew : ([] : List Char).reverse.foldlM within? 0 = some 0 := rfl
      exact List.forall_mem_cons.2 ⟨hbegun, ih hnew h⟩
    · next after hinside =>
      obtain rfl := nested_of_within? hinside
      refine ih ?_ h
      rw [List.reverse_cons, List.foldlM_append, hbegun]
      simpa using hinside

/-! ### One declaration -/

theorem within?_of_isBlank {c : Char} (h : isBlank c = true) (depth : Nat) :
    within? depth c = some depth := by
  have hne : ∀ d, isBlank d = false → c ≠ d := by
    rintro d hd rfl
    rw [h] at hd
    cases hd
  simp [within?, nested, hne ';' (by decide), hne '(' (by decide), hne ')' (by decide)]

theorem foldlM_within?_of_blank {s : List Char} (h : ∀ c ∈ s, isBlank c = true) (depth : Nat) :
    s.foldlM within? depth = some depth := by
  induction s with
  | nil => rfl
  | cons c s ih =>
    rw [List.foldlM_cons, within?_of_isBlank (h c (by simp))]
    exact ih fun d hd => h d (by simp [hd])

/-- The blanks at the ends of a text neither open nor close anything. -/
theorem foldlM_within?_trimChars (s : List Char) (depth : Nat) :
    (trimChars s).foldlM within? depth = s.foldlM within? depth := by
  obtain ⟨trailing, hs, htrailing⟩ := exists_append_trimChars s
  have hleading : ∀ c ∈ leadingBlanks s, isBlank c = true := fun c hc => List.mem_takeWhile_imp hc
  have hend : ∀ n : Nat, trailing.foldlM within? n = some n :=
    foldlM_within?_of_blank (List.all_eq_true.1 htrailing)
  conv_rhs => rw [hs]
  rw [List.foldlM_append, List.foldlM_append, foldlM_within?_of_blank hleading]
  simp [hend]

theorem trimChars_trimChars (s : List Char) : trimChars (trimChars s) = trimChars s := by
  obtain ⟨hhead, hlast⟩ := trimmed_trimChars s
  generalize trimChars s = t at hhead hlast
  have hkeeps : ∀ {u : List Char}, (∀ c, u.head? = some c → isBlank c = false) →
      u.dropWhile isBlank = u := by
    intro u hu
    cases u with
    | nil => rfl
    | cons c u => rw [List.dropWhile_cons_of_neg (by simp [hu c rfl])]
  rw [trimChars, dropBlanks, hkeeps hhead, dropBlanksEnd, hkeeps, List.reverse_reverse]
  simpa using hlast

theorem normalDeclaration_append_cons {property : List Char} (h : ':' ∉ property)
    (value : List Char) :
    normalDeclaration (property ++ ':' :: value) =
      if (trimChars property).isEmpty then []
      else trimChars property ++ ':' :: trimChars value ++ [';'] := by
  rw [normalDeclaration, splitOnce?_append_cons h]

/-- A declaration is dropped, or what is kept of it is kept as it is when it is read again. -/
theorem normalDeclaration_cases (s : List Char) :
    normalDeclaration s = [] ∨
      ∃ kept, normalDeclaration s = kept ++ [';'] ∧ normalDeclaration kept = kept ++ [';'] ∧
        (Whole s → Whole kept) := by
  by_cases hcolon : ':' ∈ s
  · obtain ⟨property, value, rfl, hproperty⟩ := List.eq_append_cons_of_mem hcolon
    rw [normalDeclaration_append_cons hproperty]
    split
    · exact .inl rfl
    · next hne =>
      have htrimmed : ':' ∉ trimChars property := by
        obtain ⟨trailing, heq, -⟩ := exists_append_trimChars property
        refine fun hmem => hproperty ?_
        rw [heq]
        exact List.mem_append_left _ (List.mem_append_right _ hmem)
      refine .inr ⟨trimChars property ++ ':' :: trimChars value, rfl, ?_, fun hwhole => ?_⟩
      · rw [normalDeclaration_append_cons htrimmed, trimChars_trimChars, trimChars_trimChars,
          if_neg hne]
      · unfold Whole at hwhole ⊢
        simpa only [List.foldlM_append, List.foldlM_cons, foldlM_within?_trimChars] using hwhole
  · left
    rw [normalDeclaration, splitOnce?_of_not_mem hcolon]

/-! ### Whole styles -/

theorem normalStyleChars_append_cons {s : List Char} (h : s.foldl nested 0 = 0) (t : List Char) :
    normalStyleChars (s ++ ';' :: t) = normalStyleChars s ++ normalStyleChars t := by
  rw [normalStyleChars, declarationsFrom_append_cons h, List.flatMap_append]
  rfl

/-- Normalized declarations in front of a text are normalized on their own. -/
theorem normalStyleChars_flatMap_append {declarations : List (List Char)}
    (h : ∀ d ∈ declarations, Whole d) (t : List Char) :
    normalStyleChars (declarations.flatMap normalDeclaration ++ t) =
      declarations.flatMap normalDeclaration ++ normalStyleChars t := by
  induction declarations with
  | nil => rfl
  | cons d declarations ih =>
    obtain ⟨hd, hrest⟩ := List.forall_mem_cons.1 h
    rw [List.flatMap_cons, List.append_assoc, List.append_assoc, ← ih hrest]
    obtain hdropped | ⟨kept, hkept, hagain, hwhole⟩ := normalDeclaration_cases d
    · rw [hdropped]
      rfl
    · have hsingle : normalStyleChars kept = kept ++ [';'] := by
        rw [normalStyleChars, declarationsFrom_of_within? (hwhole hd), List.reverse_nil,
          List.nil_append, List.flatMap_singleton, hagain]
      rw [hkept, List.append_assoc, List.singleton_append,
        normalStyleChars_append_cons (foldl_nested_of_within? (hwhole hd)), hsingle]

theorem normalStyleChars_normalStyleChars_append {s : List Char} (h : s.foldl nested 0 = 0)
    (t : List Char) :
    normalStyleChars (normalStyleChars s ++ t) = normalStyleChars s ++ normalStyleChars t :=
  normalStyleChars_flatMap_append (whole_of_mem_declarationsFrom rfl h) t

theorem flatMap_normalDeclaration_ends (declarations : List (List Char)) :
    declarations.flatMap normalDeclaration = [] ∨
      ∃ front, declarations.flatMap normalDeclaration = front ++ [';'] := by
  induction declarations with
  | nil => exact .inl rfl
  | cons d declarations ih =>
    rw [List.flatMap_cons]
    obtain hrest | ⟨front, hrest⟩ := ih
    · rw [hrest, List.append_nil]
      obtain hd | ⟨kept, hd, -⟩ := normalDeclaration_cases d
      · exact .inl hd
      · exact .inr ⟨kept, hd⟩
    · exact .inr ⟨normalDeclaration d ++ front, by rw [hrest, List.append_assoc]⟩

/-- The normal form of a style that closes all its parentheses is its own normal form. The style
with `;` and another style behind it has the two normal forms one after the other, and so has its
normal form with the other style right behind it: what is appended is a further declaration. The
normal form of any style is empty or ends with `;`. -/
theorem normalStyle_stable (style : String) :
    (styleDepth style = 0 →
      normalStyle (normalStyle style) = normalStyle style ∧
        ∀ other, normalStyle (style ++ ";" ++ other) = normalStyle style ++ normalStyle other ∧
          normalStyle (normalStyle style ++ other) = normalStyle style ++ normalStyle other) ∧
    (normalStyle style = "" ∨ ∃ front, normalStyle style = front ++ ";") := by
  constructor
  · intro hdepth
    have hbehind : ∀ other, normalStyle (normalStyle style ++ other) =
        normalStyle style ++ normalStyle other := by
      intro other
      rw [normalStyle, normalStyle, String.toList_append, String.toList_ofList,
        normalStyleChars_normalStyleChars_append hdepth, String.ofList_append]
      rfl
    refine ⟨?_, fun other => ⟨?_, hbehind other⟩⟩
    · have hempty : normalStyle "" = "" := rfl
      simpa only [hempty, String.append_empty] using hbehind ""
    · rw [normalStyle, String.append_assoc, String.toList_append, String.toList_append,
        show ";".toList ++ other.toList = ';' :: other.toList from rfl,
        normalStyleChars_append_cons hdepth, String.ofList_append]
      rfl
  · obtain hnil | ⟨front, hfront⟩ := flatMap_normalDeclaration_ends (declarationsFrom 0 [] style.toList)
    · exact .inl (congrArg String.ofList hnil)
    · refine .inr ⟨String.ofList front, (congrArg String.ofList hfront).trans ?_⟩
      rw [String.ofList_append]

/-- A style with a `;` in parentheses, a parenthesis that nothing opened and two declarations that
are dropped. -/
def sampleStyle : String := " background: url(a;b) no-repeat ;; : x; color :red) "

theorem normalStyle_stable_sample :
    styleDepth sampleStyle = 0 ∧
      normalStyle sampleStyle = "background:url(a;b) no-repeat;color:red);" ∧
      normalStyle (normalStyle sampleStyle) = "background:url(a;b) no-repeat;color:red);" ∧
      normalStyle (sampleStyle ++ ";" ++ "margin : 0") =
        "background:url(a;b) no-repeat;color:red);margin:0;" := by
  have hdepth : styleDepth sampleStyle = 0 := by decide
  have hnormal : normalStyle sampleStyle = "background:url(a;b) no-repeat;color:red);" := by decide
  have hmargin : normalStyle "margin : 0" = "margin:0;" := by decide
  obtain ⟨hstable, hbehind⟩ := (normalStyle_stable sampleStyle).1 hdepth
  refine ⟨hdepth, hnormal, by rw [hstable, hnormal], ?_⟩
  rw [(hbehind "margin : 0").1, hnormal, hmargin]
  rfl

/-- What is not closed goes on in the normal form, whose last `;` then ends nothing. -/
example : normalStyle "a: (" = "a:(;" ∧ normalStyle "a:(;" = "a:(;;" := by decide

end HtmlTemplate.Template
