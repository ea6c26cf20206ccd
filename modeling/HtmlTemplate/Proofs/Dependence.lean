import HtmlTemplate.Proofs.CheckedCalls

/-!
# What rendering depends on

Code looks at the data only along the paths that stand in it. If two documents agree on those of the
main code and of all static codes, then rendering gives the same for both, text or failure
(`render_eq_of_agree`). A path that leads nowhere counts as one that leads to null.
-/

namespace HtmlTemplate.Code

/-! ### The paths of an expression -/

mutual

/-- The paths in an expression, from left to right. -/
def Expr.paths : Expr → List (List String)
  | .literal _ => []
  | .path segments => [segments]
  | .array items => pathsAll items
  | .call _ arguments _ => pathsAll arguments

def pathsAll : List Expr → List (List String)
  | [] => []
  | e :: rest => e.paths ++ pathsAll rest

end

theorem mem_pathsAll {items : List Expr} {path : List String} :
    path ∈ pathsAll items ↔ ∃ e ∈ items, path ∈ e.paths := by
  induction items with
  | nil => simp [pathsAll]
  | cons e rest ih => simp [pathsAll, ih]

/-- Two documents have the same values at these paths. -/
def Agree (paths : List (List String)) (data data' : Json.Value) : Prop :=
  ∀ path ∈ paths, lookup data path = lookup data' path

theorem Agree.mono {paths part : List (List String)} {data data' : Json.Value}
    (h : Agree paths data data') (hsub : part ⊆ paths) : Agree part data data' :=
  fun path hpath => h path (hsub hpath)

theorem paths_subset_pathsAll {items : List Expr} {e : Expr} (he : e ∈ items) :
    e.paths ⊆ pathsAll items :=
  fun _ hpath => mem_pathsAll.2 ⟨e, he, hpath⟩

/-! ### Evaluation -/

section

variable {data data' : Json.Value} {callStatic : Nat → Except RenderFailure String}

theorem evalAll_congr {items : List Expr}
    (h : ∀ e ∈ items, e.eval data callStatic = e.eval data' callStatic) :
    evalAll data callStatic items = evalAll data' callStatic items := by
  induction items with
  | nil => rfl
  | cons e rest ih =>
    rw [List.forall_mem_cons] at h
    rw [evalAll, evalAll, h.1, ih h.2]

theorem evalCondition_congr {name : String} {arguments : List Expr}
    (h : ∀ e ∈ arguments, e.eval data callStatic = e.eval data' callStatic) :
    evalCondition data callStatic name arguments =
      evalCondition data' callStatic name arguments := by
  match arguments with
  | [] => rfl
  | [condition] => rw [evalCondition, evalCondition, h condition (by simp)]
  | condition :: node :: rest =>
    rw [evalCondition, evalCondition, h condition (by simp), h node (by simp)]

/-- An expression evaluates alike for documents that agree on its paths. -/
theorem Expr.eval_congr {e : Expr} (h : Agree e.paths data data') :
    e.eval data callStatic = e.eval data' callStatic := by
  induction e using Expr.induction with
  | literal v => rfl
  | path segments => rw [Expr.eval, Expr.eval, h segments (by simp [Expr.paths])]
  | array items ih =>
    have hitems : ∀ e ∈ items, e.eval data callStatic = e.eval data' callStatic :=
      fun e he => ih e he (h.mono (paths_subset_pathsAll he))
    rw [Expr.eval, Expr.eval, evalAll_congr hitems]
  | call name arguments offset ih =>
    have harguments : ∀ e ∈ arguments, e.eval data callStatic = e.eval data' callStatic :=
      fun e he => ih e he (h.mono (paths_subset_pathsAll he))
    rw [Expr.eval, Expr.eval, evalAll_congr harguments, evalCondition_congr harguments]

/-! ### Procedures -/

/-- The paths in a procedure. -/
def Procedure.paths : Procedure → List (List String)
  | .blank => []
  | .code e => e.paths

theorem Procedure.run_congr {p : Procedure} (h : Agree p.paths data data') :
    p.run data callStatic = p.run data' callStatic := by
  cases p with
  | blank => rfl
  | code e => rw [run, run, Expr.render, Expr.render, Expr.eval_congr h]

end

/-- Static procedures run alike, and so do those that they call, for documents that agree on the
paths of all of them. -/
theorem runStatic_congr {statics : List Procedure} {data data' : Json.Value}
    (h : ∀ p ∈ statics, Agree p.paths data data') (more : Nat) :
    runStatic statics data more = runStatic statics data' more := by
  induction more with
  | zero => rfl
  | succ more ih =>
    funext index
    rw [runStatic, runStatic]
    cases hindex : statics[index]? with
    | none => rfl
    | some p =>
      dsimp only
      rw [ih, Procedure.run_congr (h p (List.mem_of_getElem? hindex))]

/-- The paths that stand in code. Code that is refused has none: its procedure is blank. -/
def pathsOf (code : String) : List (List String) := (buildOrBlank interpret code).1.paths

/-- Rendering gives the same for documents that agree on the paths of the codes. -/
theorem render_eq_of_agree {main : String} {statics : List String} {data data' : Json.Value}
    (h : ∀ code ∈ main :: statics, ∀ path ∈ pathsOf code, lookup data path = lookup data' path) :
    (buildFunctions interpret main statics).render data =
      (buildFunctions interpret main statics).render data' := by
  rw [List.forall_mem_cons] at h
  have hstatics : ∀ p ∈ (buildFunctions interpret main statics).statics,
      Agree p.paths data data' := by
    intro p hp
    obtain ⟨code, hcode, rfl⟩ := List.mem_map.1 hp
    exact h.2 code hcode
  rw [Functions.render, Functions.render, runStatic_congr hstatics]
  exact Procedure.run_congr h.1

/-- The documents differ in a member that no code mentions and in one that is null in one of them
and missing in the other. -/
theorem render_eq_of_agree_sample :
    let main := "_c(\"p\",[],[_v(_s(user.name)),_m(0)])"
    let statics := ["_i(user.mail.work,_e())"]
    let data := Json.Value.object [("user", .object [("mail", .null), ("name", .string "Ada")])]
    let data' := Json.Value.object
      [("other", .bool true), ("user", .object [("name", .string "Ada")])]
    (∀ code ∈ main :: statics, ∀ path ∈ pathsOf code, lookup data path = lookup data' path) ∧
      (buildFunctions interpret main statics).render data =
        (buildFunctions interpret main statics).render data' := by
  intro main statics data data'
  have hmain : pathsOf main = [["user", "name"]] := by decide +kernel
  have hstatics : ∀ code ∈ statics, pathsOf code = [["user", "mail", "work"]] := by
    decide +kernel
  have hagree : ∀ code ∈ main :: statics, ∀ path ∈ pathsOf code,
      lookup data path = lookup data' path := by
    rw [List.forall_mem_cons]
    constructor
    · rw [hmain]
      simp
      rfl
    · intro code hcode
      rw [hstatics code hcode]
      simp
      rfl
  exact ⟨hagree, render_eq_of_agree hagree⟩

end HtmlTemplate.Code
