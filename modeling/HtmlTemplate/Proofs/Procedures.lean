import HtmlTemplate.Code.Procedure
import HtmlTemplate.Proofs.Writing

/-!
# Procedures of code that stands for an expression

Code that stands for an expression gives a procedure exactly if the expression is acceptable, and
then renders as the expression does; otherwise a blank procedure takes its place. Static procedures
that call no others render alike however many may still be running.
-/

namespace HtmlTemplate.Code

/-- Not nested too deep, and with calls as they should be. -/
def Expr.Acceptable (e : Expr) : Prop := e.depth ≤ depthLimit ∧ e.checkCalls = .ok ()

section

variable {code : String} {e : Expr} (h : Writes code e)
include h

theorem interpret_of_acceptable (hok : e.Acceptable) :
    ∃ e', interpret code = .ok (.code e') ∧ e'.bare = e := by
  rcases h.parse hok.1 with ⟨e', hparse, hbare⟩
  have hcalls : e'.checkCalls = .ok () := by
    rw [← e'.checkCalls_bare, hbare]
    exact hok.2
  exact ⟨e', by simp only [interpret, hparse, hcalls], hbare⟩

theorem exists_interpret_iff : (∃ p, interpret code = .ok p) ↔ e.Acceptable := by
  constructor
  · rintro ⟨p, hp⟩
    unfold interpret at hp
    split at hp
    · cases hp
    · next e' hparse =>
      have hbare := h.bare_eq hparse
      refine ⟨h.parse_isOk_iff.1 ⟨e', hparse⟩, ?_⟩
      split at hp
      · cases hp
      · next hcalls =>
        rw [← hbare, e'.checkCalls_bare]
        exact hcalls
  · intro hok
    rcases interpret_of_acceptable h hok with ⟨e', he', -⟩
    exact ⟨_, he'⟩

/-- The procedure of acceptable code renders as the expression does. -/
theorem buildOrBlank_of_acceptable (hok : e.Acceptable) :
    (buildOrBlank interpret code).2 = none ∧ ∀ data callStatic,
      (buildOrBlank interpret code).1.run data callStatic = e.render data callStatic := by
  rcases interpret_of_acceptable h hok with ⟨e', he', hbare⟩
  simp only [buildOrBlank, he', Procedure.run, true_and]
  intro data callStatic
  rw [← hbare, Expr.render_bare]

theorem buildOrBlank_of_not_acceptable (hbad : ¬ e.Acceptable) :
    ∃ failed, buildOrBlank interpret code = (.blank, some failed) := by
  unfold buildOrBlank
  split
  · next p hp => exact absurd ((exists_interpret_iff h).1 ⟨p, hp⟩) hbad
  · exact ⟨_, rfl⟩

/-- Whatever the static code, there is nothing to see of a main procedure that is blank. -/
theorem render_of_not_acceptable (hbad : ¬ e.Acceptable) (statics : List String)
    (data : Json.Value) : (buildFunctions interpret code statics).render data = .ok "" := by
  rcases buildOrBlank_of_not_acceptable h hbad with ⟨failed, hblank⟩
  rw [Functions.render, buildFunctions, hblank]
  rfl

end

/-- No piece fails exactly if every piece gives a procedure. -/
theorem failedPieces_eq_nil_iff {build : Builder} {main : String} {statics : List String} :
    failedPieces build main statics = [] ↔
      ∀ code ∈ main :: statics, ∃ p, build code = .ok p := by
  rw [failedPieces, List.filterMap_eq_nil_iff]
  apply forall₂_congr
  intro code _
  unfold buildOrBlank
  cases build code <;> simp

theorem buildOrBlank_ne_blank_iff {code : String} :
    (buildOrBlank interpret code).1 ≠ .blank ↔ ∃ p, interpret code = .ok p := by
  have hcode : interpret code ≠ .ok .blank := by
    unfold interpret
    split
    · simp
    · split <;> simp
  unfold buildOrBlank
  cases hbuilt : interpret code with
  | error f => simp
  | ok p =>
    rw [hbuilt] at hcode
    simpa using hcode

theorem forall_interpret_iff {main : String} {statics : List String} {e : Expr}
    {exprs : List Expr} (hmain : Writes main e) (hstatics : List.Forall₂ Writes statics exprs) :
    (∀ code ∈ main :: statics, ∃ p, interpret code = .ok p) ↔
      e.Acceptable ∧ ∀ s ∈ exprs, s.Acceptable := by
  have hrest : (∀ code ∈ statics, ∃ p, interpret code = .ok p) ↔ ∀ s ∈ exprs, s.Acceptable := by
    induction hstatics with
    | nil => simp
    | cons h _ ih => rw [List.forall_mem_cons, List.forall_mem_cons, exists_interpret_iff h, ih]
  rw [List.forall_mem_cons, exists_interpret_iff hmain, hrest]

/-! ### Running static procedures -/

section

variable {statics : List String} {exprs : List Expr} (h : List.Forall₂ Writes statics exprs)
include h

theorem exists_writes_of_getElem? {index : Nat} {e : Expr} (he : exprs[index]? = some e) :
    ∃ code, statics[index]? = some code ∧ Writes code e := by
  rcases List.getElem?_eq_some_iff.1 he with ⟨hindex, rfl⟩
  have hcode : index < statics.length := by rw [h.length_eq]; exact hindex
  exact ⟨statics[index], List.getElem?_eq_getElem hcode, h.get hcode hindex⟩

/-- As long as another static procedure may be running, that of acceptable code renders as its
expression does. -/
theorem runStatic_of_acceptable {index : Nat} {e : Expr} (he : exprs[index]? = some e)
    (hok : e.Acceptable) (data : Json.Value) (more : Nat) :
    ∃ callStatic, runStatic (statics.map fun code => (buildOrBlank interpret code).1) data
      (more + 1) index = e.render data callStatic := by
  rcases exists_writes_of_getElem? h he with ⟨code, hcode, hwrites⟩
  have hrun := (buildOrBlank_of_acceptable hwrites hok).2
  rw [runStatic, List.getElem?_map, hcode, Option.map_some]
  exact ⟨_, hrun data _⟩

/-- Static procedures whose expressions do not fail do not fail. -/
theorem exists_runStatic {data : Json.Value}
    (hrender : ∀ e ∈ exprs, e.Acceptable → ∀ callStatic, ∃ html,
      e.render data callStatic = .ok html) (more : Nat) {index : Nat}
    (hindex : index < exprs.length) :
    ∃ html, runStatic (statics.map fun code => (buildOrBlank interpret code).1) data (more + 1)
      index = .ok html := by
  have he := List.getElem?_eq_getElem hindex
  by_cases hok : exprs[index].Acceptable
  · rcases runStatic_of_acceptable h he hok data more with ⟨callStatic, hrun⟩
    rw [hrun]
    exact hrender _ (List.getElem_mem hindex) hok callStatic
  · rcases exists_writes_of_getElem? h he with ⟨code, hcode, hwrites⟩
    rcases buildOrBlank_of_not_acceptable hwrites hok with ⟨failed, hblank⟩
    rw [runStatic, List.getElem?_map, hcode, Option.map_some, hblank]
    exact ⟨"", rfl⟩

end

end HtmlTemplate.Code
