import HtmlTemplate.Proofs.CheckedCalls

/-!
# Static procedures that run inside each other

Static procedures may call each other and themselves. `Evaluation` says how code is evaluated, one
rule for each way to go on: arguments from left to right, a node only if its condition holds,
nothing behind the first failure; a call of a static procedure runs it with one more procedure
running. Nothing in the rules bounds a run; that there always is an outcome (`exists_run`) is an
induction on how many more procedures may be running and, for each such number, on the size of the
code. The rules also collect the calls of static procedures in the order in which they are reached.
Which of them failed, if one did, is what rendering fails for (`render_outcome`).
-/

namespace HtmlTemplate.Code

/-- A call of a static procedure that is reached while so many static procedures are running. -/
structure StaticCall where
  running : Nat
  index : Nat
  deriving DecidableEq, Repr

/-- The text that a procedure renders for a result. -/
def Result.rendered : Result → String
  | .markup html => html
  | r => Markup.encodeText r.display

/-! ### Evaluation in order -/

section

variable (statics : List Procedure) (data : Json.Value)

mutual

/-- While so many static procedures are running, evaluating the expression reaches these calls and
has this outcome. -/
inductive Evaluation : Nat → Expr → List StaticCall → Except RenderFailure Result → Prop where
  | literal (running : Nat) (v : Json.Value) : Evaluation running (.literal v) [] (.ok (.data v))
  | path (running : Nat) (segments : List String) :
    Evaluation running (.path segments) [] (.ok (.data (lookup data segments)))
  | array {running : Nat} {items : List Expr} {calls : List StaticCall}
      {outcome : Except RenderFailure (List Result)}
      (hitems : Evaluations running items calls outcome) :
    Evaluation running (.array items) calls (outcome.map .list)
  | conditionFails {running : Nat} {name : String} {condition node : Expr} {offset : Nat}
      {calls : List StaticCall} {f : RenderFailure}
      (hname : Helper.named? name = some .condition)
      (hcondition : Evaluation running condition calls (.error f)) :
    Evaluation running (.call name [condition, node] offset) calls (.error f)
  | nodeSkipped {running : Nat} {name : String} {condition node : Expr} {offset : Nat}
      {calls : List StaticCall} {r : Result} (hname : Helper.named? name = some .condition)
      (hcondition : Evaluation running condition calls (.ok r)) (hr : r.isTrue = false) :
    Evaluation running (.call name [condition, node] offset) calls (.ok (.markup emptyNode))
  | node {running : Nat} {name : String} {condition node : Expr} {offset : Nat}
      {calls more : List StaticCall} {r : Result} {outcome : Except RenderFailure Result}
      (hname : Helper.named? name = some .condition)
      (hcondition : Evaluation running condition calls (.ok r)) (hr : r.isTrue = true)
      (hnode : Evaluation running node more outcome) :
    Evaluation running (.call name [condition, node] offset) (calls ++ more) outcome
  | argumentsFail {running : Nat} {name : String} {helper : Helper} {arguments : List Expr}
      {offset : Nat} {calls : List StaticCall} {f : RenderFailure}
      (hname : Helper.named? name = some helper) (hcondition : helper ≠ .condition)
      (harguments : Evaluations running arguments calls (.error f)) :
    Evaluation running (.call name arguments offset) calls (.error f)
  | helper {running : Nat} {name : String} {helper : Helper} {arguments : List Expr}
      {offset : Nat} {calls : List StaticCall} {results : List Result}
      (hname : Helper.named? name = some helper) (hcondition : helper ≠ .condition)
      (hstatic : helper ≠ .static)
      (harguments : Evaluations running arguments calls (.ok results)) :
    Evaluation running (.call name arguments offset) calls
      (applyHelper (fun _ => .ok "") name (some helper) results)
  | noIndex {running : Nat} {name : String} {arguments : List Expr} {offset : Nat}
      {calls : List StaticCall} {r : Result} (hname : Helper.named? name = some .static)
      (harguments : Evaluations running arguments calls (.ok [r])) (hr : staticIndex? r = none) :
    Evaluation running (.call name arguments offset) calls
      (.error (.mismatch name "index must be a non-negative integer"))
  | missing {running index : Nat} {name : String} {arguments : List Expr} {offset : Nat}
      {calls : List StaticCall} {r : Result} (hname : Helper.named? name = some .static)
      (harguments : Evaluations running arguments calls (.ok [r]))
      (hr : staticIndex? r = some index) (hindex : statics[index]? = none) :
    Evaluation running (.call name arguments offset) (calls ++ [⟨running, index⟩])
      (.error (.missingStatic index))
  | tooDeep {running index : Nat} {name : String} {arguments : List Expr} {offset : Nat}
      {calls : List StaticCall} {r : Result} {p : Procedure}
      (hname : Helper.named? name = some .static)
      (harguments : Evaluations running arguments calls (.ok [r]))
      (hr : staticIndex? r = some index) (hindex : statics[index]? = some p)
      (hrunning : running = staticNestingLimit) :
    Evaluation running (.call name arguments offset) (calls ++ [⟨running, index⟩])
      (.error (.tooDeep staticNestingLimit))
  | static {running index : Nat} {name : String} {arguments : List Expr} {offset : Nat}
      {calls more : List StaticCall} {r : Result} {p : Procedure}
      {outcome : Except RenderFailure String} (hname : Helper.named? name = some .static)
      (harguments : Evaluations running arguments calls (.ok [r]))
      (hr : staticIndex? r = some index) (hindex : statics[index]? = some p)
      (hrunning : running < staticNestingLimit) (hrun : Run (running + 1) p more outcome) :
    Evaluation running (.call name arguments offset) (calls ++ ⟨running, index⟩ :: more)
      (outcome.map .markup)

/-- The same for expressions one after the other, up to the first that fails. -/
inductive Evaluations :
    Nat → List Expr → List StaticCall → Except RenderFailure (List Result) → Prop where
  | nil (running : Nat) : Evaluations running [] [] (.ok [])
  | stop {running : Nat} {e : Expr} {rest : List Expr} {calls : List StaticCall}
      {f : RenderFailure} (he : Evaluation running e calls (.error f)) :
    Evaluations running (e :: rest) calls (.error f)
  | next {running : Nat} {e : Expr} {rest : List Expr} {calls more : List StaticCall}
      {r : Result} {outcome : Except RenderFailure (List Result)}
      (he : Evaluation running e calls (.ok r)) (hrest : Evaluations running rest more outcome) :
    Evaluations running (e :: rest) (calls ++ more) (outcome.map (r :: ·))

/-- The same for a procedure. -/
inductive Run : Nat → Procedure → List StaticCall → Except RenderFailure String → Prop where
  | blank (running : Nat) : Run running .blank [] (.ok "")
  | code {running : Nat} {e : Expr} {calls : List StaticCall}
      {outcome : Except RenderFailure Result} (he : Evaluation running e calls outcome) :
    Run running (.code e) calls (outcome.map Result.rendered)

end

end

variable {statics : List Procedure} {data : Json.Value}

/-! ### The outcome is what the program computes -/

section

variable {callStatic : Nat → Except RenderFailure String}

theorem Expr.eval_array_eq (items : List Expr) :
    (Expr.array items).eval data callStatic = (evalAll data callStatic items).map .list := by
  rw [Expr.eval]
  cases evalAll data callStatic items <;> rfl

theorem evalAll_cons_eq (e : Expr) (rest : List Expr) :
    evalAll data callStatic (e :: rest) =
      (e.eval data callStatic).bind fun r => (evalAll data callStatic rest).map (r :: ·) := by
  rw [evalAll]
  cases e.eval data callStatic with
  | error f => rfl
  | ok r => cases evalAll data callStatic rest <;> rfl

theorem Expr.eval_condition_eq {name : String} (hname : Helper.named? name = some .condition)
    (condition node : Expr) (offset : Nat) :
    (Expr.call name [condition, node] offset).eval data callStatic =
      (condition.eval data callStatic).bind fun r =>
        if r.isTrue then node.eval data callStatic else .ok (.markup emptyNode) := by
  rw [Expr.eval, hname]
  dsimp only
  rw [evalCondition]
  cases condition.eval data callStatic <;> rfl

theorem Expr.eval_call_eq {name : String} {helper : Helper}
    (hname : Helper.named? name = some helper) (hcondition : helper ≠ .condition)
    (arguments : List Expr) (offset : Nat) :
    (Expr.call name arguments offset).eval data callStatic =
      (evalAll data callStatic arguments).bind (applyHelper callStatic name (some helper)) := by
  rw [Expr.eval, hname]
  split
  · next h => exact absurd (Option.some.inj h) hcondition
  · cases evalAll data callStatic arguments <;> rfl

theorem Expr.render_eq (e : Expr) :
    e.render data callStatic = (e.eval data callStatic).map Result.rendered := by
  unfold Expr.render
  cases e.eval data callStatic with
  | error f => rfl
  | ok r => cases r <;> rfl

theorem applyHelper_eq_of_ne_static {callStatic' : Nat → Except RenderFailure String}
    {helper : Helper} (h : helper ≠ .static) (name : String) (results : List Result) :
    applyHelper callStatic name (some helper) results =
      applyHelper callStatic' name (some helper) results := by
  cases helper <;> first | rfl | exact absurd rfl h

theorem applyHelper_noIndex {r : Result} (hr : staticIndex? r = none) (name : String) :
    applyHelper callStatic name (some .static) [r] =
      .error (.mismatch name "index must be a non-negative integer") := by
  simp only [applyHelper, hr]

theorem applyHelper_index {r : Result} {index : Nat} (hr : staticIndex? r = some index)
    (name : String) :
    applyHelper callStatic name (some .static) [r] = (callStatic index).map .markup := by
  simp only [applyHelper, hr]

end

/-- What a call of a static procedure does while so many are running. -/
def callAt (statics : List Procedure) (data : Json.Value) (running : Nat) :
    Nat → Except RenderFailure String :=
  runStatic statics data (staticNestingLimit - running)

theorem callAt_missing {index : Nat} (hindex : statics[index]? = none) (running : Nat) :
    callAt statics data running index = .error (.missingStatic index) := by
  unfold callAt
  cases staticNestingLimit - running <;> rw [runStatic, hindex]

theorem callAt_tooDeep {index : Nat} {p : Procedure} (hindex : statics[index]? = some p) :
    callAt statics data staticNestingLimit index = .error (.tooDeep staticNestingLimit) := by
  rw [callAt, Nat.sub_self, runStatic, hindex]

theorem callAt_run {running index : Nat} {p : Procedure} (hindex : statics[index]? = some p)
    (hrunning : running < staticNestingLimit) :
    callAt statics data running index = p.run data (callAt statics data (running + 1)) := by
  have hmore : staticNestingLimit - running = staticNestingLimit - (running + 1) + 1 := by omega
  rw [callAt, hmore, runStatic, hindex]
  rfl

mutual

theorem Evaluation.eval_eq {running : Nat} {e : Expr} {calls : List StaticCall}
    {outcome : Except RenderFailure Result} (h : Evaluation statics data running e calls outcome) :
    e.eval data (callAt statics data running) = outcome := by
  cases h with
  | literal v => rfl
  | path segments => rfl
  | array hitems => rw [Expr.eval_array_eq, hitems.evalAll_eq]
  | conditionFails hname hcondition =>
    rw [Expr.eval_condition_eq hname, hcondition.eval_eq]
    rfl
  | nodeSkipped hname hcondition hr =>
    rw [Expr.eval_condition_eq hname, hcondition.eval_eq]
    exact if_neg (by simp [hr])
  | node hname hcondition hr hnode =>
    rw [Expr.eval_condition_eq hname, hcondition.eval_eq, ← hnode.eval_eq]
    exact if_pos hr
  | argumentsFail hname hcondition harguments =>
    rw [Expr.eval_call_eq hname hcondition, harguments.evalAll_eq]
    rfl
  | helper hname hcondition hstatic harguments =>
    rw [Expr.eval_call_eq hname hcondition, harguments.evalAll_eq]
    exact applyHelper_eq_of_ne_static hstatic _ _
  | noIndex hname harguments hr =>
    rw [Expr.eval_call_eq hname (by decide), harguments.evalAll_eq]
    exact applyHelper_noIndex hr _
  | missing hname harguments hr hindex =>
    rw [Expr.eval_call_eq hname (by decide), harguments.evalAll_eq]
    exact (applyHelper_index hr _).trans (by rw [callAt_missing hindex]; rfl)
  | tooDeep hname harguments hr hindex hrunning =>
    rw [Expr.eval_call_eq hname (by decide), harguments.evalAll_eq]
    exact (applyHelper_index hr _).trans (by rw [hrunning, callAt_tooDeep hindex]; rfl)
  | static hname harguments hr hindex hrunning hrun =>
    have := Nat.sub_succ_lt_self _ _ hrunning
    rw [Expr.eval_call_eq hname (by decide), harguments.evalAll_eq]
    exact (applyHelper_index hr _).trans (by rw [callAt_run hindex hrunning, hrun.run_eq])
termination_by (staticNestingLimit - running, sizeOf e)
decreasing_by all_goals (subst_vars; decreasing_tactic)

theorem Evaluations.evalAll_eq {running : Nat} {items : List Expr} {calls : List StaticCall}
    {outcome : Except RenderFailure (List Result)}
    (h : Evaluations statics data running items calls outcome) :
    evalAll data (callAt statics data running) items = outcome := by
  cases h with
  | nil => rfl
  | stop he =>
    rw [evalAll_cons_eq, he.eval_eq]
    rfl
  | next he hrest =>
    rw [evalAll_cons_eq, he.eval_eq, ← hrest.evalAll_eq]
    rfl
termination_by (staticNestingLimit - running, sizeOf items)
decreasing_by all_goals (subst_vars; decreasing_tactic)

/-- The outcome of a procedure is what the program computes. -/
theorem Run.run_eq {running : Nat} {p : Procedure} {calls : List StaticCall}
    {outcome : Except RenderFailure String} (h : Run statics data running p calls outcome) :
    p.run data (callAt statics data running) = outcome := by
  cases h with
  | blank => rfl
  | code he => rw [Procedure.run, Expr.render_eq, he.eval_eq]
termination_by (staticNestingLimit - running, sizeOf p)
decreasing_by all_goals (subst_vars; decreasing_tactic)

end

/-! ### There always is an outcome -/

theorem Evaluations.length_eq {running : Nat} {items : List Expr} {calls : List StaticCall}
    {results : List Result}
    (h : Evaluations statics data running items calls (.ok results)) :
    results.length = items.length :=
  length_of_evalAll h.evalAll_eq

mutual

theorem exists_evaluation (hstatics : ∀ p ∈ statics, p.Built) {running : Nat}
    (hrunning : running ≤ staticNestingLimit) (e : Expr) (he : e.checkCalls = .ok ()) :
    ∃ calls outcome, Evaluation statics data running e calls outcome := by
  cases e with
  | literal v => exact ⟨_, _, .literal running v⟩
  | path segments => exact ⟨_, _, .path running segments⟩
  | array items =>
    obtain ⟨calls, outcome, hitems⟩ :=
      exists_evaluations hstatics hrunning items (Expr.checkCalls_array.1 he)
    exact ⟨_, _, .array hitems⟩
  | call name arguments offset =>
    obtain ⟨helper, hname, hadmits, hchecked⟩ := Expr.checkCalls_call_iff.1 he
    by_cases hcondition : helper = .condition
    · subst hcondition
      obtain ⟨condition, node, rfl⟩ := List.length_eq_two.1 (Arity.eq_of_admits hadmits)
      obtain ⟨calls, outcome, hfirst⟩ :=
        exists_evaluation hstatics hrunning condition (hchecked condition (by simp))
      cases outcome with
      | error f => exact ⟨_, _, .conditionFails hname hfirst⟩
      | ok r =>
        cases hr : r.isTrue with
        | false => exact ⟨_, _, .nodeSkipped hname hfirst hr⟩
        | true =>
          obtain ⟨more, outcome, hnode⟩ :=
            exists_evaluation hstatics hrunning node (hchecked node (by simp))
          exact ⟨_, _, .node hname hfirst hr hnode⟩
    obtain ⟨calls, outcome, harguments⟩ := exists_evaluations hstatics hrunning arguments hchecked
    cases outcome with
    | error f => exact ⟨_, _, .argumentsFail hname hcondition harguments⟩
    | ok results =>
      by_cases hstatic : helper = .static
      · subst hstatic
        obtain ⟨r, rfl⟩ := List.length_eq_one_iff.1
          (harguments.length_eq.trans (Arity.eq_of_admits hadmits))
        cases hr : staticIndex? r with
        | none => exact ⟨_, _, .noIndex hname harguments hr⟩
        | some index =>
          cases hindex : statics[index]? with
          | none => exact ⟨_, _, .missing hname harguments hr hindex⟩
          | some p =>
            rcases Nat.eq_or_lt_of_le hrunning with hlimit | hlimit
            · exact ⟨_, _, .tooDeep hname harguments hr hindex hlimit⟩
            · have := Nat.sub_succ_lt_self _ _ hlimit
              obtain ⟨more, outcome, hrun⟩ :=
                exists_run hstatics hlimit p (hstatics p (List.mem_of_getElem? hindex))
              exact ⟨_, _, .static hname harguments hr hindex hlimit hrun⟩
      · exact ⟨_, _, .helper hname hcondition hstatic harguments⟩
termination_by (staticNestingLimit - running, sizeOf e)

theorem exists_evaluations (hstatics : ∀ p ∈ statics, p.Built) {running : Nat}
    (hrunning : running ≤ staticNestingLimit) (items : List Expr)
    (hitems : ∀ e ∈ items, e.checkCalls = .ok ()) :
    ∃ calls outcome, Evaluations statics data running items calls outcome := by
  cases items with
  | nil => exact ⟨_, _, .nil running⟩
  | cons e rest =>
    obtain ⟨calls, outcome, he⟩ := exists_evaluation hstatics hrunning e (hitems e (by simp))
    cases outcome with
    | error f => exact ⟨_, _, .stop he⟩
    | ok r =>
      obtain ⟨more, outcome, hrest⟩ :=
        exists_evaluations hstatics hrunning rest fun e he => hitems e (by simp [he])
      exact ⟨_, _, .next he hrest⟩
termination_by (staticNestingLimit - running, sizeOf items)

/-- Procedures that were built come to an end, whatever they call. -/
theorem exists_run (hstatics : ∀ p ∈ statics, p.Built) {running : Nat}
    (hrunning : running ≤ staticNestingLimit) (p : Procedure) (hp : p.Built) :
    ∃ calls outcome, Run statics data running p calls outcome := by
  cases p with
  | blank => exact ⟨_, _, .blank running⟩
  | code e =>
    obtain ⟨calls, outcome, he⟩ :=
      exists_evaluation hstatics hrunning e (hp.checkCalls e.mem_parts_self)
    exact ⟨_, _, .code he⟩
termination_by (staticNestingLimit - running, sizeOf p)

end

/-! ### Where an evaluation stops -/

/-- Why a call of a static procedure fails at once, if it does. -/
def StaticCall.failure? (statics : List Procedure) (c : StaticCall) : Option RenderFailure :=
  if statics.length ≤ c.index then some (.missingStatic c.index)
  else if c.running = staticNestingLimit then some (.tooDeep staticNestingLimit)
  else none

/-- The calls go through, or all but the last do and the outcome is the failure of that one. -/
inductive Stops (statics : List Procedure) {α : Type} :
    List StaticCall → Except RenderFailure α → Prop where
  | done {calls : List StaticCall} (h : ∀ c ∈ calls, c.failure? statics = none) (a : α) :
    Stops statics calls (.ok a)
  | complaint {calls : List StaticCall} (h : ∀ c ∈ calls, c.failure? statics = none)
      (helper message : String) : Stops statics calls (.error (.mismatch helper message))
  | failed {calls : List StaticCall} (h : ∀ c ∈ calls, c.failure? statics = none)
      {c : StaticCall} {f : RenderFailure} (hf : c.failure? statics = some f) :
    Stops statics (calls ++ [c]) (.error f)

namespace Stops

variable {α β : Type} {calls more : List StaticCall}

/-- The calls of an evaluation that does not fail go through. -/
theorem passes {a : α} (h : Stops statics calls (.ok a)) :
    ∀ c ∈ calls, c.failure? statics = none := by
  cases h with
  | done h => exact h

theorem error {f : RenderFailure} (h : Stops statics calls (.error f : Except _ α)) :
    Stops statics calls (.error f : Except _ β) := by
  cases h with
  | complaint h helper message => exact .complaint h helper message
  | failed h hf => exact .failed h hf

theorem map {outcome : Except RenderFailure α} (h : Stops statics calls outcome) (g : α → β) :
    Stops statics calls (outcome.map g) := by
  cases outcome with
  | error f => exact h.error
  | ok a => exact .done h.passes (g a)

theorem append (hcalls : ∀ c ∈ calls, c.failure? statics = none) {outcome : Except RenderFailure α}
    (h : Stops statics more outcome) : Stops statics (calls ++ more) outcome := by
  have hall : ∀ {more}, (∀ c ∈ more, c.failure? statics = none) →
      ∀ c ∈ calls ++ more, c.failure? statics = none :=
    fun hmore => List.forall_mem_append.2 ⟨hcalls, hmore⟩
  cases h with
  | done h a => exact .done (hall h) a
  | complaint h helper message => exact .complaint (hall h) helper message
  | failed h hf =>
    rw [← List.append_assoc]
    exact .failed (hall h) hf

/-- An evaluation fails for a call that it reaches exactly if that call fails. -/
theorem error_iff {outcome : Except RenderFailure α} (h : Stops statics calls outcome)
    {f : RenderFailure} (hf : ∀ helper message, f ≠ .mismatch helper message) :
    outcome = .error f ↔ ∃ c ∈ calls, c.failure? statics = some f := by
  cases h with
  | done h a =>
    refine iff_of_false (by simp) ?_
    rintro ⟨c, hc, hfailure⟩
    rw [h c hc] at hfailure
    cases hfailure
  | complaint h helper message =>
    refine iff_of_false (by simpa using (hf helper message).symm) ?_
    rintro ⟨c, hc, hfailure⟩
    rw [h c hc] at hfailure
    cases hfailure
  | @failed before h c f' hfailure =>
    constructor
    · intro heq
      cases heq
      exact ⟨c, by simp, hfailure⟩
    · rintro ⟨c', hc', hfailure'⟩
      rcases List.mem_append.1 hc' with hc' | hc'
      · rw [h c' hc'] at hfailure'
        cases hfailure'
      · rw [List.mem_singleton.1 hc', hfailure] at hfailure'
        cases hfailure'
        rfl

end Stops

theorem complaint_of_applyHelper {callStatic : Nat → Except RenderFailure String} {name : String}
    {helper : Helper} (hstatic : helper ≠ .static) {results : List Result} {f : RenderFailure}
    (h : applyHelper callStatic name (some helper) results = .error f) :
    ∃ message, f = .mismatch name message := by
  cases helper with
  | static => exact absurd rfl hstatic
  | condition =>
    cases h
    exact ⟨_, rfl⟩
  | empty | join => cases h
  | text | display | markup | comment =>
    cases results <;> cases h
    exact ⟨_, rfl⟩
  | «attribute» =>
    rcases results with _ | ⟨key, _ | ⟨value, rest⟩⟩
    · cases h
      exact ⟨_, rfl⟩
    · cases h
      exact ⟨_, rfl⟩
    · cases h
  | element =>
    rcases results with _ | ⟨tag, _ | ⟨attributes, rest⟩⟩
    · cases h
      exact ⟨_, rfl⟩
    · cases h
      exact ⟨_, rfl⟩
    · obtain ⟨message, -, hf⟩ := complaint_of_writeElement h
      exact ⟨message, hf⟩

theorem failure?_missing {running index : Nat} (hindex : statics[index]? = none) :
    StaticCall.failure? statics ⟨running, index⟩ = some (.missingStatic index) :=
  if_pos (List.getElem?_eq_none_iff.1 hindex)

theorem failure?_present {running index : Nat} {p : Procedure} (hindex : statics[index]? = some p) :
    StaticCall.failure? statics ⟨running, index⟩ =
      if running = staticNestingLimit then some (.tooDeep staticNestingLimit) else none :=
  if_neg (Nat.not_le_of_lt (List.getElem?_eq_some_iff.1 hindex).1)

mutual

theorem Evaluation.stops {running : Nat} {e : Expr} {calls : List StaticCall}
    {outcome : Except RenderFailure Result} (h : Evaluation statics data running e calls outcome) :
    Stops statics calls outcome := by
  cases h with
  | literal v => exact .done (by simp) _
  | path segments => exact .done (by simp) _
  | array hitems => exact hitems.stops.map _
  | conditionFails hname hcondition => exact hcondition.stops
  | nodeSkipped hname hcondition hr => exact .done hcondition.stops.passes _
  | node hname hcondition hr hnode => exact hnode.stops.append hcondition.stops.passes
  | argumentsFail hname hcondition harguments => exact harguments.stops.error
  | helper hname hcondition hstatic harguments =>
    have hpasses := harguments.stops.passes
    cases houtcome : applyHelper _ _ _ _ with
    | ok r => exact .done hpasses r
    | error f =>
      obtain ⟨message, rfl⟩ := complaint_of_applyHelper hstatic houtcome
      exact .complaint hpasses _ message
  | noIndex hname harguments hr => exact .complaint harguments.stops.passes _ _
  | missing hname harguments hr hindex =>
    exact .failed harguments.stops.passes (failure?_missing hindex)
  | tooDeep hname harguments hr hindex hrunning =>
    exact .failed harguments.stops.passes ((failure?_present hindex).trans (if_pos hrunning))
  | static hname harguments hr hindex hrunning hrun =>
    have := Nat.sub_succ_lt_self _ _ hrunning
    have hpasses := (failure?_present hindex).trans (if_neg (Nat.ne_of_lt hrunning))
    rw [← List.singleton_append, ← List.append_assoc]
    exact (hrun.stops.append (List.forall_mem_append.2
      ⟨harguments.stops.passes, List.forall_mem_singleton.2 hpasses⟩)).map _
termination_by (staticNestingLimit - running, sizeOf e)
decreasing_by all_goals (subst_vars; decreasing_tactic)

theorem Evaluations.stops {running : Nat} {items : List Expr} {calls : List StaticCall}
    {outcome : Except RenderFailure (List Result)}
    (h : Evaluations statics data running items calls outcome) : Stops statics calls outcome := by
  cases h with
  | nil => exact .done (by simp) _
  | stop he => exact he.stops.error
  | next he hrest => exact (hrest.stops.map _).append he.stops.passes
termination_by (staticNestingLimit - running, sizeOf items)
decreasing_by all_goals (subst_vars; decreasing_tactic)

theorem Run.stops {running : Nat} {p : Procedure} {calls : List StaticCall}
    {outcome : Except RenderFailure String} (h : Run statics data running p calls outcome) :
    Stops statics calls outcome := by
  cases h with
  | blank => exact .done (by simp) _
  | code he => exact he.stops.map _
termination_by (staticNestingLimit - running, sizeOf p)
decreasing_by all_goals (subst_vars; decreasing_tactic)

end

/-! ### Rendering -/

theorem failure?_eq_tooDeep_iff {c : StaticCall} :
    c.failure? statics = some (.tooDeep staticNestingLimit) ↔
      c.index < statics.length ∧ c.running = staticNestingLimit := by
  unfold StaticCall.failure?
  split
  · next h => simp [Nat.not_lt_of_le h]
  · next h =>
    rw [and_iff_right (Nat.lt_of_not_le h)]
    split
    · next hrunning => simp [hrunning]
    · next hrunning => simp [hrunning]

theorem failure?_eq_missingStatic_iff {c : StaticCall} {index : Nat} :
    c.failure? statics = some (.missingStatic index) ↔
      statics.length ≤ c.index ∧ c.index = index := by
  unfold StaticCall.failure?
  split
  · next h => simp [h]
  · next h =>
    refine iff_of_false ?_ fun hindex => h hindex.1
    split <;> simp

theorem Functions.render_eq (f : Functions) (data : Json.Value) :
    f.render data = f.main.run data (callAt f.statics data 0) :=
  rfl

theorem built_buildFunctions (main : String) (statics : List String) :
    (buildFunctions interpret main statics).main.Built ∧
      ∀ p ∈ (buildFunctions interpret main statics).statics, p.Built := by
  refine ⟨built_buildOrBlank main, fun p hp => ?_⟩
  obtain ⟨code, -, rfl⟩ := List.mem_map.1 hp
  exact built_buildOrBlank code

/-- Rendering comes to an end, also if static procedures call themselves or each other, and its
result is the outcome of the evaluation in order. That is a failure for nesting exactly if a call of
a static procedure that is there is reached while 64 of them are running, and a failure for a
missing one exactly if a call of one that is not there is reached; the evaluation stops there. -/
theorem render_outcome (main : String) (statics : List String) (data : Json.Value) :
    let f := buildFunctions interpret main statics
    (∃ calls outcome, Run f.statics data 0 f.main calls outcome) ∧
      ∀ calls outcome, Run f.statics data 0 f.main calls outcome →
        f.render data = outcome ∧ Stops f.statics calls outcome ∧
        (f.render data = .error (.tooDeep staticNestingLimit) ↔
          ∃ index < statics.length, ⟨staticNestingLimit, index⟩ ∈ calls) ∧
        ∀ index, f.render data = .error (.missingStatic index) ↔
          statics.length ≤ index ∧ ∃ running, ⟨running, index⟩ ∈ calls := by
  intro f
  obtain ⟨hmain, hstatics⟩ := built_buildFunctions main statics
  have hlength : f.statics.length = statics.length := List.length_map _
  refine ⟨exists_run hstatics (Nat.zero_le _) f.main hmain, fun calls outcome hrun => ?_⟩
  have houtcome : f.render data = outcome := hrun.run_eq
  rw [houtcome]
  refine ⟨rfl, hrun.stops, ?_, fun index => ?_⟩
  · rw [hrun.stops.error_iff (by simp)]
    simp only [failure?_eq_tooDeep_iff, hlength]
    constructor
    · rintro ⟨⟨running, index⟩, hc, hindex, rfl⟩
      exact ⟨index, hindex, hc⟩
    · rintro ⟨index, hindex, hc⟩
      exact ⟨_, hc, hindex, rfl⟩
  · rw [hrun.stops.error_iff (by simp)]
    simp only [failure?_eq_missingStatic_iff, hlength]
    constructor
    · rintro ⟨⟨running, index⟩, hc, hindex, rfl⟩
      exact ⟨hindex, running, hc⟩
    · rintro ⟨hindex, running, hc⟩
      exact ⟨_, hc, hindex, rfl⟩

/-- A static procedure that calls itself is cut off. -/
example : (buildFunctions interpret "_m(0)" ["_m(0)"]).render .null =
    .error (.tooDeep staticNestingLimit) := by
  decide +kernel

end HtmlTemplate.Code
