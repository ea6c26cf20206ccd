import HtmlTemplate.Proofs.History
import HtmlTemplate.Template.Literal

/-!
# What a call tells when it compiles

A call that finds no entry compiles its template, and says what came of it to one outlet: something
about every error of the compile, every tip, and, if there are no errors, all pieces of code that
gave no procedure. So wherever a blank procedure stands in for a piece of code, an error was told
(`functions_reported`).
-/

namespace HtmlTemplate.Session

open Code (Builder Failed Materializer Procedure)

/-! ### Texts that list others -/

/-- The items stand in the text, each behind the one before it. -/
def Lists : List String → String → Prop
  | [], _ => True
  | item :: more, text => ∃ before rest, text = before ++ item ++ rest ∧ Lists more rest

theorem Lists.self (item : String) : Lists [item] item := ⟨"", "", by simp, trivial⟩

theorem Lists.after {items : List String} {text : String} (h : Lists items text)
    (before : String) : Lists items (before ++ text) := by
  cases items with
  | nil => trivial
  | cons item more =>
    obtain ⟨first, rest, rfl, hmore⟩ := h
    exact ⟨before ++ first, rest, by simp only [String.append_assoc], hmore⟩

theorem Lists.before {items : List String} {text : String} (h : Lists items text)
    (after : String) : Lists items (text ++ after) := by
  induction items generalizing text with
  | nil => trivial
  | cons item more ih =>
    obtain ⟨first, rest, rfl, hmore⟩ := h
    exact ⟨first, rest ++ after, by simp only [String.append_assoc], ih hmore⟩

/-- Behind an item and a separator comes what lists the other items. -/
theorem Lists.cons {item entry : String} (hitem : Lists [item] entry) {more : List String}
    {text : String} (h : Lists more text) : Lists (item :: more) (entry ++ text) := by
  obtain ⟨first, rest, rfl, -⟩ := hitem
  exact ⟨first, rest ++ text, by simp only [String.append_assoc], h.after rest⟩

theorem lists_intercalate {α : Type} {item entry : α → String}
    (h : ∀ a, Lists [item a] (entry a)) (separator : String) (members : List α) :
    Lists (members.map item) (separator.intercalate (members.map entry)) := by
  induction members with
  | nil => trivial
  | cons a members ih =>
    cases members with
    | nil => simpa using h a
    | cons b members =>
      have hrest : (b :: members).map entry ≠ [] := List.cons_ne_nil _ _
      rw [List.map_cons, List.map_cons (f := entry), String.intercalate_cons_of_ne_nil hrest,
        String.append_assoc]
      exact (h a).cons (ih.after separator)

/-! ### Messages -/

/-- The advisory is said by the first call, where the surroundings allow no procedures. -/
def TellsAdvisory (m : Materializer) (probed : Bool) (said : List String) : Prop :=
  (probed = false ∧ m.probe = .error .restricted) ∧ said = [advisory] ∨
    ¬ (probed = false ∧ m.probe = .error .restricted) ∧ said = []

/-- What is said about errors: with positions one thing about each, else one about all of them. -/
def TellsErrors (positions : Bool) (errors : List Report) (said : List String) : Prop :=
  if positions then List.Forall₂ (fun r message => Lists [r.message] message) errors said
  else (errors = [] ∧ said = []) ∨
    errors ≠ [] ∧ ∃ message, said = [message] ∧ Lists (errors.map Report.message) message

/-- What is said about pieces that gave no procedure: one thing about all of them, unless there are
errors that explain them. -/
def TellsFailures (errors : List Report) (failed : List Failed) (said : List String) : Prop :=
  if errors = [] ∧ failed ≠ [] then
    ∃ message, said = [message] ∧ Lists (failed.map failedMessage) message
  else said = []

theorem tellsAdvisory_probe (setup : Setup) (probed : Bool) (r : Request) :
    ∃ said, TellsAdvisory setup.materializer probed said ∧
      (if probed then [] else probe setup r) =
        (said.map (Severity.error, ·)).map (setup.notice r) := by
  by_cases hdue : probed = false ∧ setup.materializer.probe = .error .restricted
  · refine ⟨[advisory], .inl ⟨hdue, rfl⟩, ?_⟩
    simp [hdue.1, probe, hdue.2]
  · refine ⟨[], .inr ⟨hdue, rfl⟩, ?_⟩
    cases probed with
    | true => rfl
    | false =>
      simp only [Bool.false_eq_true, if_false, probe]
      split
      · next h => exact absurd ⟨rfl, h⟩ hdue
      · rfl

theorem lists_framedError (template : String) (r : Report) :
    Lists [r.message] (framedError template r) :=
  (((Lists.self r.message).after _).before _).before _

theorem lists_listedErrors (template : String) (errors : List Report) :
    Lists (errors.map Report.message) (listedErrors template errors) := by
  have hitem : ∀ r : Report, Lists [r.message] ("- " ++ r.message) := fun r =>
    (Lists.self r.message).after "- "
  exact ((lists_intercalate hitem "\n" errors).after _).before _

theorem tellsErrors_errorMessages (positions : Bool) (template : String) (errors : List Report) :
    TellsErrors positions errors (errorMessages positions template errors) := by
  unfold TellsErrors errorMessages
  cases positions with
  | true =>
    simp only [if_true]
    induction errors with
    | nil => exact .nil
    | cons r errors ih => exact .cons (lists_framedError template r) ih
  | false =>
    cases errors with
    | nil => exact .inl ⟨rfl, rfl⟩
    | cons r errors => exact .inr ⟨List.cons_ne_nil _ _, _, rfl, lists_listedErrors template _⟩

theorem tellsFailures_failureMessages (errors : List Report) (failed : List Failed) :
    TellsFailures errors failed (failureMessages errors failed) := by
  have hlists := lists_intercalate (fun f => Lists.self (failedMessage f)) "\n" failed
  unfold TellsFailures failureMessages
  cases errors with
  | nil =>
    cases failed with
    | nil => simp
    | cons f failed =>
      rw [if_pos ⟨rfl, List.cons_ne_nil f failed⟩]
      exact ⟨_, rfl, hlists.after _⟩
  | cons r errors => simp

/-- Nothing is kept back: a piece that gave no procedure comes with a message about errors. -/
theorem ne_nil_of_failed {positions : Bool} {errors : List Report} {failed : List Failed}
    {told more : List String} (herrors : TellsErrors positions errors told)
    (hfailures : TellsFailures errors failed more) (hfailed : failed ≠ []) : told ++ more ≠ [] := by
  cases errors with
  | nil =>
    rw [TellsFailures, if_pos ⟨rfl, hfailed⟩] at hfailures
    obtain ⟨message, rfl, -⟩ := hfailures
    simp
  | cons r errors =>
    cases positions with
    | true =>
      cases herrors with
      | cons _ _ => simp
    | false =>
      obtain ⟨⟨⟩, -⟩ | ⟨-, message, rfl, -⟩ := herrors
      simp

/-! ### Calls -/

/-- The failure of a piece of code, unless it gives a procedure. -/
def failure? (build : Builder) (code : String) : Option Failed :=
  match build code with
  | .ok _ => none
  | .error e => some ⟨e, code⟩

/-- A procedure for a piece of code, or a blank one in its place. -/
def StandsFor (build : Builder) (code : String) (p : Procedure) : Prop :=
  build code = .ok p ∨ ∃ e, build code = .error e ∧ p = .blank

theorem standsFor_buildOrBlank (build : Builder) (code : String) :
    StandsFor build code (Code.buildOrBlank build code).1 := by
  unfold StandsFor Code.buildOrBlank
  cases build code with
  | ok p => exact .inl rfl
  | error e => exact .inr ⟨e, rfl, rfl⟩

theorem failedPieces_eq (build : Builder) (main : String) (statics : List String) :
    Code.failedPieces build main statics = (main :: statics).filterMap (failure? build) := by
  apply List.filterMap_congr
  intro code _
  unfold failure? Code.buildOrBlank
  cases build code <;> rfl

theorem failures_ne_nil {build : Builder} {pieces : List String}
    (h : ∃ code ∈ pieces, ∃ e, build code = .error e) :
    pieces.filterMap (failure? build) ≠ [] := by
  obtain ⟨code, hcode, e, he⟩ := h
  have hfailure : failure? build code = some ⟨e, code⟩ := by rw [failure?, he]
  exact List.ne_nil_of_mem (List.mem_filterMap.2 ⟨code, hcode, hfailure⟩)

/-- A call that finds no entry sends all it says to one outlet, its own if it brings one along and
else that of the session: the advisory first, if it is due, then what there is to say about the
errors of the compile, its tips, and the pieces of code that gave no procedure, the main one first.
There is one procedure for every piece, and if a blank one stands in for any, an error was told that
is not the advisory. -/
theorem functions_reported {s : State} {r : Request} (h : s.store.find? r.key = none)
    (setup : Setup) :
    let build := setup.materializer.build
    let compiled := setup.compiler.compile r.overrides r.template
    let pieces := compiled.code.main :: compiled.code.statics
    let f := (s.functions setup r).1
    let notices := (s.functions setup r).2.2
    List.Forall₂ (StandsFor build) pieces (f.main :: f.statics) ∧
    (∀ n ∈ notices, n.outlet = r.outlet.getD setup.outlet ∧ n.caller = r.caller) ∧
    ∃ advice told failures : List String,
      notices = (advice.map (Severity.error, ·) ++ told.map (Severity.error, ·) ++
        compiled.tips.map (fun tip => (Severity.tip, tip.message)) ++
        failures.map (Severity.error, ·)).map (setup.notice r) ∧
      TellsAdvisory setup.materializer s.probed advice ∧
      TellsErrors (setup.compiler.optionsFor r.overrides).givePositions compiled.errors told ∧
      TellsFailures compiled.errors (pieces.filterMap (failure? build)) failures ∧
      ((∃ code ∈ pieces, ∃ e, build code = .error e) → told ++ failures ≠ []) := by
  intro build compiled pieces f notices
  obtain ⟨advice, hadvice, hprobe⟩ := tellsAdvisory_probe setup s.probed r
  have htold := tellsErrors_errorMessages (setup.compiler.optionsFor r.overrides).givePositions
    r.template compiled.errors
  have hfailures := tellsFailures_failureMessages compiled.errors
    (pieces.filterMap (failure? build))
  have hfunctions := State.functions_of_find?_eq_none setup s h
  have hnotices : notices = (advice.map (Severity.error, ·) ++
      messages (setup.compiler.optionsFor r.overrides).givePositions r.template compiled
        (pieces.filterMap (failure? build))).map (setup.notice r) := by
    rw [← failedPieces_eq, List.map_append, ← hprobe]
    exact congrArg (·.2.2) hfunctions
  refine ⟨?_, ?_, advice, _, _, ?_, hadvice, htold, hfailures, fun hfailed =>
    ne_nil_of_failed htold hfailures (failures_ne_nil hfailed)⟩
  · have hf : f = Code.buildFunctions build compiled.code.main compiled.code.statics :=
      congrArg (·.1) hfunctions
    rw [hf]
    exact .cons (standsFor_buildOrBlank ..)
      (List.forall₂_map_right_iff.2 (List.forall₂_same.2 fun _ _ => standsFor_buildOrBlank ..))
  · intro n hn
    rw [hnotices] at hn
    obtain ⟨said, -, rfl⟩ := List.mem_map.1 hn
    exact ⟨rfl, rfl⟩
  · rw [hnotices, messages]
    simp only [List.append_assoc]

/-- The second piece calls what is no helper. Procedures can be built, though the surroundings say
that they cannot, and the call brings an outlet along. -/
theorem functions_reported_sample :
    let setup : Setup := ⟨.literal, { build := Code.interpret, probe := .error .restricted }, ⟨0⟩⟩
    let r : Request := ⟨"_e()@@_oops(1)!tip", {}, some "page", some ⟨1⟩⟩
    let notices := (({} : State).functions setup r).2.2
    ({} : State).store.find? r.key = none ∧
      (∃ e, setup.materializer.build "_oops(1)!tip" = .error e) ∧
      (∀ n ∈ notices, n.outlet = ⟨1⟩ ∧ n.caller = some "page") ∧
      ∃ told failures : List String,
        notices = ((Severity.error, advisory) :: told.map (Severity.error, ·) ++
          [(Severity.tip, "consider this")] ++ failures.map (Severity.error, ·)).map
            (setup.notice r) ∧
        told ++ failures ≠ [] := by
  intro setup r notices
  have hmiss : ({} : State).store.find? r.key = none := rfl
  have hcompiled : (setup.compiler.compile r.overrides r.template).code.statics = ["_oops(1)!tip"] ∧
      (setup.compiler.compile r.overrides r.template).tips.map
        (fun tip => (Severity.tip, tip.message)) = [(Severity.tip, "consider this")] := by
    decide +kernel
  have hfails : (setup.materializer.build "_oops(1)!tip").toOption.isNone = true := by
    decide +kernel
  obtain ⟨e, he⟩ : ∃ e, setup.materializer.build "_oops(1)!tip" = .error e := by
    cases hbuild : setup.materializer.build "_oops(1)!tip" with
    | ok p => simp [hbuild, Except.toOption] at hfails
    | error e => exact ⟨e, rfl⟩
  obtain ⟨-, hown, advice, told, failures, hnotices, hadvice, -, -, hsaid⟩ :=
    functions_reported hmiss setup
  obtain ⟨-, rfl⟩ | ⟨hnone, -⟩ := hadvice
  · rw [hcompiled.2] at hnotices
    refine ⟨hmiss, ⟨e, he⟩, hown, told, failures, hnotices, hsaid ?_⟩
    rw [hcompiled.1]
    exact ⟨_, by simp, e, he⟩
  · exact absurd ⟨rfl, rfl⟩ hnone

end HtmlTemplate.Session
