import HtmlTemplate.Proofs.Scan.Bytes

/-!
# Small letters of a text

What is written in small letters stays as it is when it is written in small letters again
(`lowercase_lowercase`), for no small form in the table of capitals is itself a capital of it, and
the case of ASCII letters makes no difference (`lowercase_of_eqIgnoringAsciiCase`). So a text that
agrees with the small letters of another one up to the case of ASCII letters has the same small
letters. The converse fails: `É` and `é` have the same small letters and so have `k` and the sign of
the unit kelvin.
-/

namespace HtmlTemplate.Text

/-! ### The table of capitals -/

namespace CapitalRun

/-- The code of the small form of a capital with the code `n`. -/
def small (run : CapitalRun) (n : Nat) : Nat := (n + run.shift).toNat

/-- Codes of ASCII that are no small letters, and the two capitals that are not in the table. -/
def others : List CapitalRun :=
  [⟨0, 96, 1, 0⟩, ⟨123, 127, 1, 0⟩, ⟨0x130, 0x130, 1, 0⟩, ⟨0x3a3, 0x3a3, 1, 0⟩]

/-- The small forms of the one run and the members of the other are apart, or
else they alternate. -/
def avoids (run other : CapitalRun) : Bool :=
  Nat.blt (run.small run.last) other.first || Nat.blt other.last (run.small run.first) ||
    ((run.small run.first + other.first) % 2 == 1 &&
      (run.step == 2 || run.first == run.last) && (other.step == 2 || other.first == other.last))

/-- The small forms of a run are characters. -/
def isSound (run : CapitalRun) : Bool :=
  (run.step == 1 || run.step == 2) && decide (0 ≤ run.first + run.shift) &&
    (Nat.blt (run.small run.last) 0xd800 ||
      (Nat.blt 0xdfff (run.small run.first) && Nat.blt (run.small run.last) 0x110000))

theorem isSound_of_mem : ∀ run ∈ capitalRuns, run.isSound = true := by decide +kernel

theorem avoids_of_mem :
    (capitalRuns.all fun run => (others ++ capitalRuns).all run.avoids) = true := by
  decide +kernel

variable {run other : CapitalRun} {n : Nat}

theorem contains_eq_true :
    run.contains n = true ↔ (run.first ≤ n ∧ n ≤ run.last) ∧ (n - run.first) % run.step = 0 := by
  simp [contains]

/-- No member of a run that another one avoids is among its small forms. -/
theorem not_contains_small (hsound : run.isSound = true) (h : run.avoids other = true)
    (hn : run.contains n = true) : other.contains (run.small n) = false := by
  rw [Bool.eq_false_iff, Ne, contains_eq_true]
  rintro ⟨⟨hfirst, hlast⟩, hstep⟩
  obtain ⟨⟨hn, hn'⟩, hnstep⟩ := contains_eq_true.1 hn
  simp only [isSound, avoids, small, Bool.and_eq_true, Bool.or_eq_true, beq_iff_eq, Nat.blt_eq,
    decide_eq_true_eq] at hsound h hfirst hlast hstep
  have hsmall : ((n + run.shift).toNat : Int) = n + run.shift := by omega
  obtain (h | h) | ⟨⟨hodd, hrun⟩, hother⟩ := h
  · omega
  · omega
  · have hrun : (n - run.first) % 2 = 0 := by
      obtain h | h := hrun
      · rwa [h] at hnstep
      · omega
    have hother : ((n + run.shift).toNat - other.first) % 2 = 0 := by
      obtain h | h := hother
      · rwa [h] at hstep
      · omega
    omega

/-- The small form of a capital is a character. -/
theorem toNat_small (hsound : run.isSound = true) (hn : run.contains n = true) :
    (Char.ofNat (run.small n)).toNat = run.small n := by
  obtain ⟨⟨hn, hn'⟩, -⟩ := contains_eq_true.1 hn
  simp only [isSound, small, Bool.and_eq_true, Bool.or_eq_true, Nat.blt_eq, decide_eq_true_eq]
    at hsound
  have hvalid : (run.small n).isValidChar := by
    simp only [small, Nat.isValidChar]
    omega
  rw [Char.ofNat, dif_pos hvalid]
  rfl

end CapitalRun

/-! ### Characters -/

/-- A character that is its own small form wherever it stands. -/
def IsSmall (c : Char) : Prop := smallForm c = [c] ∧ c ≠ 'Σ'

instance (c : Char) : Decidable (IsSmall c) := inferInstanceAs (Decidable (_ ∧ _))

/-- A small form that differs from its character stands behind the capitals of ASCII. -/
def IsFormOf (c d : Char) : Prop := d = c ∨ 97 ≤ d.toNat

instance (c d : Char) : Decidable (IsFormOf c d) := inferInstanceAs (Decidable (_ ∨ _))

/-- A character in none of the runs is small. -/
theorem isSmall_of_not_contains {d : Char}
    (h : ∀ other ∈ CapitalRun.others ++ capitalRuns, other.contains d.toNat = false) :
    IsSmall d ∧ 97 ≤ d.toNat := by
  obtain ⟨hothers, htable⟩ := List.forall_mem_append.1 h
  simp only [CapitalRun.others, List.forall_mem_cons, ← Bool.not_eq_true,
    CapitalRun.contains_eq_true] at hothers
  obtain ⟨hfirst, hmiddle, hdot, hsigma, -⟩ := hothers
  have hfind : capitalRuns.find? (·.contains d.toNat) = none :=
    List.find?_eq_none.2 fun run hrun => by simp [htable run hrun]
  have hdot : d ≠ 'İ' := by rintro rfl; revert hdot; decide
  have hsigma : d ≠ 'Σ' := by rintro rfl; revert hsigma; decide
  by_cases hascii : d.toNat < 128
  · exact forall_ascii (P := fun d => 97 ≤ d.toNat ∧ d.toNat ≤ 122 → IsSmall d ∧ 97 ≤ d.toNat)
      (by decide +kernel) d hascii (by omega)
  · exact ⟨⟨by simp [smallForm, hascii, hdot, hsigma, hfind], hsigma⟩, by omega⟩

theorem small_capital {run : CapitalRun} (hrun : run ∈ capitalRuns) {n : Nat}
    (hn : run.contains n = true) :
    IsSmall (Char.ofNat (run.small n)) ∧ 97 ≤ (Char.ofNat (run.small n)).toNat := by
  have hsound := CapitalRun.isSound_of_mem run hrun
  refine isSmall_of_not_contains fun other hother => ?_
  rw [CapitalRun.toNat_small hsound hn]
  exact CapitalRun.not_contains_small hsound
    (List.all_eq_true.1 (List.all_eq_true.1 CapitalRun.avoids_of_mem run hrun) other hother) hn

theorem isSmall_of_mem_smallForm {c d : Char} (h : d ∈ smallForm c) :
    IsSmall d ∧ IsFormOf c d := by
  unfold smallForm at h
  split at h
  · next hc =>
    obtain rfl := List.mem_singleton.1 h
    exact forall_ascii (P := fun c => IsSmall c.toLower ∧ IsFormOf c c.toLower) (by decide +kernel) c
      hc
  · next hc =>
    split at h
    · next hdot =>
      obtain rfl := beq_iff_eq.1 hdot
      obtain rfl | rfl : d = 'i' ∨ d = '\u0307' := by simpa using h
      · decide +kernel
      · decide +kernel
    · next hdot =>
      split at h
      · next hsigma =>
        obtain rfl := List.mem_singleton.1 h
        obtain rfl := beq_iff_eq.1 hsigma
        decide +kernel
      · next hsigma =>
        split at h
        · next run hfind =>
          obtain rfl := List.mem_singleton.1 h
          have hrun := List.find?_some hfind
          exact (small_capital (List.mem_of_find?_eq_some hfind) hrun).imp_right .inr
        · next hfind =>
          obtain rfl := List.mem_singleton.1 h
          refine ⟨⟨?_, by simpa using hsigma⟩, .inl rfl⟩
          simp only [smallForm, hc, hdot, hsigma, hfind]
          rfl

theorem isSmall_of_mem_smallFormBetween {before after : List Char} {c d : Char}
    (h : d ∈ smallFormBetween before c after) : IsSmall d ∧ IsFormOf c d := by
  unfold smallFormBetween at h
  split at h
  · have hd : d = 'ς' ∨ d = 'σ' := by
      split at h
      · exact .inl (List.mem_singleton.1 h)
      · exact .inr (List.mem_singleton.1 h)
    rcases hd with rfl | rfl <;>
      exact ⟨by decide +kernel, .inr (by decide)⟩
  · exact isSmall_of_mem_smallForm h

/-! ### Texts -/

theorem isSmall_of_mem_lowercaseFrom {before done s : List Char} {d : Char}
    (h : d ∈ lowercaseFrom before done s) : d ∈ done ∨ IsSmall d ∧ ∃ c ∈ s, IsFormOf c d := by
  induction s generalizing before done with
  | nil => exact .inl (by simpa [lowercaseFrom] using h)
  | cons c s ih =>
    obtain hd | ⟨hsmall, b, hb, hform⟩ := ih h
    · rcases List.mem_append.1 hd with hd | hd
      · obtain ⟨hsmall, hform⟩ := isSmall_of_mem_smallFormBetween (List.mem_reverse.1 hd)
        exact .inr ⟨hsmall, c, by simp, hform⟩
      · exact .inl hd
    · exact .inr ⟨hsmall, b, List.mem_cons_of_mem c hb, hform⟩

/-- Each character of a text in small letters is small and comes from one of the text. -/
theorem isSmall_of_mem_lowercase {v : String} {d : Char} (h : d ∈ (lowercase v).toList) :
    IsSmall d ∧ ∃ c ∈ v.toList, IsFormOf c d := by
  rw [lowercase, String.toList_ofList] at h
  exact (isSmall_of_mem_lowercaseFrom h).resolve_left (by simp)

/-- A character before the small letters of ASCII stands in the small letters of a text only if it
stands in the text. -/
theorem mem_of_mem_lowercase {v : String} {c : Char} (hc : c.toNat < 97)
    (h : c ∈ (lowercase v).toList) : c ∈ v.toList := by
  obtain ⟨-, b, hb, rfl | hform⟩ := isSmall_of_mem_lowercase h
  · exact hb
  · omega

theorem lowercaseFrom_of_isSmall {s : List Char} (h : ∀ c ∈ s, IsSmall c) (before done : List Char) :
    lowercaseFrom before done s = done.reverse ++ s := by
  induction s generalizing before done with
  | nil => simp [lowercaseFrom]
  | cons c s ih =>
    obtain ⟨⟨hform, hsigma⟩, hs⟩ := List.forall_mem_cons.1 h
    simp [lowercaseFrom, smallFormBetween, hsigma, hform, ih hs]

/-- What is in small letters stays as it is. -/
theorem lowercase_lowercase (v : String) : lowercase (lowercase v) = lowercase v := by
  have hsmall : ∀ d ∈ (lowercase v).toList, IsSmall d := fun d hd => (isSmall_of_mem_lowercase hd).1
  rw [lowercase, lowercaseFrom_of_isSmall hsmall, List.reverse_nil, List.nil_append,
    String.ofList_toList]

/-! ### The case of ASCII letters -/

/-- Only the capitals of ASCII differ from what `Char.toLower` gives for them. -/
theorem toLower_cases (c : Char) :
    c.toLower = c ∨ (65 ≤ c.toNat ∧ c.toNat ≤ 90) ∧ 97 ≤ c.toLower.toNat ∧ c.toLower.toNat ≤ 122 := by
  by_cases hc : c.toNat < 128
  · exact forall_ascii (P := fun c => c.toLower = c ∨ (65 ≤ c.toNat ∧ c.toNat ≤ 90) ∧
      97 ≤ c.toLower.toNat ∧ c.toLower.toNat ≤ 122) (by decide) c hc
  · exact .inl (toLower_of_not_ascii hc)

theorem isWithin_eq_false {runs : List (Nat × Nat)} {c : Char}
    (h : ∀ run ∈ runs, c.toNat < run.1 ∨ run.2 < c.toNat) : isWithin runs c = false := by
  rw [isWithin, List.any_eq_false]
  intro run hrun
  have := h run hrun
  simp only [Bool.and_eq_true, decide_eq_true_eq]
  omega

theorem isWithin_eq_true {runs : List (Nat × Nat)} {c : Char} {run : Nat × Nat}
    (hrun : run ∈ runs) (h : run.1 ≤ c.toNat ∧ c.toNat ≤ run.2) : isWithin runs c = true := by
  rw [isWithin, List.any_eq_true]
  exact ⟨run, hrun, by simpa using h⟩

theorem not_letter_of_caseIgnorableRuns : ∀ run ∈ caseIgnorableRuns,
    run.2 < 65 ∨ 90 < run.1 ∧ run.2 < 97 ∨ 122 < run.1 := by
  decide +kernel

theorem isWithin_caseIgnorableRuns_toLower (c : Char) :
    isWithin caseIgnorableRuns c.toLower = isWithin caseIgnorableRuns c := by
  obtain h | ⟨hc, hlower⟩ := toLower_cases c
  · rw [h]
  · rw [isWithin_eq_false fun run hrun => ?_, isWithin_eq_false fun run hrun => ?_]
    all_goals
      have := not_letter_of_caseIgnorableRuns run hrun
      omega

theorem isWithin_casedRuns_toLower (c : Char) :
    isWithin casedRuns c.toLower = isWithin casedRuns c := by
  obtain h | ⟨hc, hlower⟩ := toLower_cases c
  · rw [h]
  · have hcapitals : (65, 90) ∈ casedRuns := by decide +kernel
    have hsmall : (97, 122) ∈ casedRuns := by decide +kernel
    rw [isWithin_eq_true hcapitals hc, isWithin_eq_true hsmall hlower]

theorem beginsCased_map_toLower (s : List Char) :
    beginsCased (s.map Char.toLower) = beginsCased s := by
  have hignored : isWithin caseIgnorableRuns ∘ Char.toLower = isWithin caseIgnorableRuns :=
    funext isWithin_caseIgnorableRuns_toLower
  rw [beginsCased, beginsCased, List.dropWhile_map, hignored]
  cases s.dropWhile (isWithin caseIgnorableRuns) with
  | nil => rfl
  | cons c rest => exact isWithin_casedRuns_toLower c

theorem smallFormBetween_toLower (before after : List Char) (c : Char) :
    smallFormBetween (before.map Char.toLower) c.toLower (after.map Char.toLower) =
      smallFormBetween before c after := by
  simp only [smallFormBetween, beginsCased_map_toLower]
  obtain h | ⟨hc, hlower⟩ := toLower_cases c
  · rw [h]
  · have hne : ∀ d : Char, d.toNat < 128 → (d == 'Σ') = false := by
      intro d hd
      rw [beq_eq_false_iff_ne]
      rintro rfl
      exact absurd hd (by decide)
    have hforms : smallForm c.toLower = smallForm c :=
      forall_ascii (P := fun c => smallForm c.toLower = smallForm c) (by decide +kernel) c (by omega)
    rw [hne c (by omega), hne c.toLower (by omega), hforms]

theorem lowercaseFrom_map_toLower (before done s : List Char) :
    lowercaseFrom (before.map Char.toLower) done (s.map Char.toLower) =
      lowercaseFrom before done s := by
  induction s generalizing before done with
  | nil => rfl
  | cons c s ih =>
    rw [List.map_cons, lowercaseFrom, lowercaseFrom, smallFormBetween_toLower, ← List.map_cons, ih]

/-- The case of ASCII letters makes no difference to the small letters. -/
theorem lowercase_of_eqIgnoringAsciiCase {s t : List Char} (h : eqIgnoringAsciiCase s t = true) :
    lowercase (String.ofList s) = lowercase (String.ofList t) := by
  rw [eqIgnoringAsciiCase, beq_iff_eq] at h
  rw [lowercase, lowercase, String.toList_ofList, String.toList_ofList,
    ← lowercaseFrom_map_toLower [] [] s, h, lowercaseFrom_map_toLower [] [] t]

end HtmlTemplate.Text
