import HtmlTemplate.CommandLine
import HtmlTemplate.Proofs.Notices

/-!
# Runs of the command line

A run does what the library does with the template, the data and the options of its arguments, among
which every combination of options can be asked for (`parse_arguments`). It ends with status 0
exactly if the template compiles without errors, every piece of its code gives a procedure, and the
data, if there are any, are one document that the procedures render, and then it has printed the
code and what these rendered (`run_agrees`). The number of errors in its last line is that of the
reports it has seen (`Invocation.counted`). Without positions one report lists all errors of a
template, so the number is right only for one error or with positions.
-/

namespace HtmlTemplate.CommandLine

open Template (Compiled Compiler Delimiters)
open Session (Notice failure?)

/-! ### Arguments -/

/-- Arguments that ask for an invocation, with the paths behind `--`. -/
def Invocation.arguments (i : Invocation) : List String :=
  (if i.ranges then ["--ranges"] else []) ++ (if i.comments then ["--comments"] else []) ++
    (if i.noOptimize then ["--no-optimize"] else []) ++
    (match i.delimiters with
      | some d => ["--delimiters", d.opening, d.closing]
      | none => []) ++
    "--" :: i.template :: i.data.toList

/-- No path is empty and no delimiter looks like an option. -/
structure Invocation.Askable (i : Invocation) : Prop where
  template : i.template ≠ ""
  data : ∀ path ∈ i.data, path ≠ ""
  delimiters : ∀ d ∈ i.delimiters, isOptionLike d.opening = false ∧ isOptionLike d.closing = false

theorem takePositional_paths (t : Taken) (ht : t.positional = []) {template : String}
    (htemplate : template ≠ "") {data : Option String} (hdata : ∀ path ∈ data, path ≠ "") :
    takePositional t (template :: data.toList) =
      .run ⟨template, data, t.ranges, t.comments, t.noOptimize, pair? t.delimiters⟩ := by
  cases data with
  | none => simp [takePositional, Taken.positional?, Taken.finish, htemplate, ht]
  | some path =>
    simp [takePositional, Taken.positional?, Taken.finish, htemplate, ht, hdata path rfl]

/-- Every combination of options can be asked for. -/
theorem parse_arguments {i : Invocation} (h : i.Askable) : parse i.arguments = .run i := by
  obtain ⟨template, data, ranges, comments, noOptimize, delimiters⟩ := i
  obtain ⟨htemplate, hdata, hdelimiters⟩ := h
  simp only at htemplate hdata hdelimiters
  have hpaths : ∀ t : Taken, t.positional = [] → take t ("--" :: template :: data.toList) =
      .run ⟨template, data, t.ranges, t.comments, t.noOptimize, pair? t.delimiters⟩ :=
    fun t ht => takePositional_paths t ht htemplate hdata
  unfold parse Invocation.arguments
  cases delimiters with
  | none => cases ranges <;> cases comments <;> cases noOptimize <;> exact hpaths _ rfl
  | some d =>
    obtain ⟨hopening, hclosing⟩ := hdelimiters d rfl
    have hpair : ∀ t : Taken, take t ("--delimiters" :: d.opening :: d.closing ::
        "--" :: template :: data.toList) = take { t with delimiters := t.delimiters ++
          [d.opening, d.closing] } ("--" :: template :: data.toList) := by
      intro t
      simp [take, hopening, hclosing]
    cases ranges <;> cases comments <;> cases noOptimize <;>
      exact (hpair _).trans (hpaths _ rfl)

/-! ### Reports -/

/-- The pieces of code that give no procedure. -/
def failures (code : Template.Code) : List Code.Failed :=
  (code.main :: code.statics).filterMap (failure? Code.interpret)

/-- How many errors a run counts: reports of errors, with positions one for each and else one for
all, and one report of all pieces that give no procedure. -/
def Invocation.counted (i : Invocation) (compiled : Compiled) : Nat :=
  if compiled.errors = [] then if failures compiled.code = [] then 0 else 1
  else if i.ranges then compiled.errors.length else 1

theorem counted_eq_zero_iff (i : Invocation) (compiled : Compiled) :
    i.counted compiled = 0 ↔ compiled.errors = [] ∧ failures compiled.code = [] := by
  unfold Invocation.counted
  split
  · next h => split <;> simp [*]
  · next h => split <;> simp [h]

theorem length_errorMessages (positions : Bool) (template : String) (errors : List Report) :
    (Session.errorMessages positions template errors).length =
      if errors = [] then 0 else if positions then errors.length else 1 := by
  cases positions <;> cases errors <;> simp [Session.errorMessages]

theorem length_failureMessages (errors : List Report) (failed : List Code.Failed) :
    (Session.failureMessages errors failed).length =
      if errors = [] then if failed = [] then 0 else 1 else 0 := by
  cases errors <;> cases failed <;> rfl

/-- The errors among the messages of a compile. -/
theorem length_errors_messages (positions : Bool) (template : String) (compiled : Compiled)
    (failed : List Code.Failed) (setup : Session.Setup) (r : Session.Request) :
    (((Session.messages positions template compiled failed).map (setup.notice r)).filter
      fun n => n.severity == .error).length =
      (Session.errorMessages positions template compiled.errors).length +
        (Session.failureMessages compiled.errors failed).length := by
  have herrors : ∀ said : List String,
      ((said.map (Severity.error, ·)).map (setup.notice r)).filter (fun n => n.severity == .error) =
        (said.map (Severity.error, ·)).map (setup.notice r) :=
    fun said => List.filter_eq_self.2 (by simp [Session.Setup.notice])
  have htips : ((compiled.tips.map fun tip => (Severity.tip, tip.message)).map
      (setup.notice r)).filter (fun n => n.severity == .error) = [] :=
    List.filter_eq_nil_iff.2 (by simp [Session.Setup.notice])
  rw [Session.messages, List.map_append, List.map_append, List.filter_append, List.filter_append,
    herrors, herrors, htips]
  simp

/-- What the library answers a run: procedures and reports. -/
def Invocation.answer (i : Invocation) (template : String) :
    Code.Functions × Session.State × List Notice :=
  Session.State.functions setup (i.request template) {}

section

variable (i : Invocation) (template : String)

theorem answer_functions :
    (i.answer template).1 =
      let code := (Compiler.web.compile i.overrides template).code
      Code.buildFunctions Code.interpret code.main code.statics := by
  rw [Invocation.answer, Session.State.functions_of_find?_eq_none _ _ rfl]
  rfl

theorem length_errors_answer :
    ((i.answer template).2.2.filter fun n => n.severity == .error).length =
      i.counted (Compiler.web.compile i.overrides template) := by
  set compiled := Compiler.web.compile i.overrides template
  have hprobe : Session.probe setup (i.request template) = [] := rfl
  have hproduce : (Session.produce setup (i.request template)).2 =
      (Session.messages i.ranges template compiled
        (Code.failedPieces Code.interpret compiled.code.main compiled.code.statics)).map
          (setup.notice (i.request template)) := rfl
  rw [Invocation.answer, Session.State.functions_of_find?_eq_none _ _ rfl]
  simp only [hproduce, hprobe, ite_self, List.nil_append, length_errors_messages,
    length_errorMessages, length_failureMessages, Session.failedPieces_eq, Invocation.counted,
    failures]
  split
  · rw [Nat.zero_add]
    congr
  · rw [Nat.add_zero]

end

/-! ### The last line -/

/-- The last line of a text that ends with a line feed. -/
def lastLine (text : String) : String :=
  String.ofList ((text.toList.reverse.drop 1).takeWhile (· != '\n')).reverse

/-- A text that is empty or ends with a line feed. -/
def EndsLine (text : String) : Prop := ∀ c ∈ text.toList.getLast?, c = '\n'

theorem lastLine_append_line {before text : String} (hbefore : EndsLine before)
    (htext : '\n' ∉ text.toList) : lastLine (before ++ line text) = text := by
  have hreverse : (before ++ line text).toList.reverse.drop 1 =
      text.toList.reverse ++ before.toList.reverse := by simp [line]
  have hends : before.toList.reverse.takeWhile (· != '\n') = [] := by
    rw [EndsLine, ← List.head?_reverse] at hbefore
    cases h : before.toList.reverse with
    | nil => rfl
    | cons c more =>
      rw [h] at hbefore
      simp [hbefore c rfl]
  have hwhole : ∀ c ∈ text.toList.reverse, (c != '\n') = true := by
    intro c hc
    rw [bne_iff_ne]
    rintro rfl
    exact htext (List.mem_reverse.1 hc)
  rw [lastLine, hreverse, List.takeWhile_append_of_pos hwhole, hends, List.append_nil,
    List.reverse_reverse, String.ofList_toList]

theorem endsLine_noticeLines (notices : List Notice) :
    EndsLine (String.join (notices.map noticeLine)) := by
  intro c hc
  rw [String.toList_join, List.flatMap_map] at hc
  obtain rfl | ⟨n, earlier, rfl⟩ := notices.eq_nil_or_concat
  · cases hc
  · simp [noticeLine, line] at hc
    exact hc.symm

/-- What a run says last about errors of the template. -/
def errorsLine (count : Nat) : String := "tplc: " ++ (Trouble.errors count).message

theorem toList_errorsLine (count : Nat) : (errorsLine count).toList =
    "tplc: ".toList ++ ("template has ".toList ++ (Nat.toDigits 10 count ++ " error(s)".toList)) := by
  have hmessage : (Trouble.errors count).message = "template has " ++ count.repr ++ " error(s)" := rfl
  have hdigits : count.repr.toList = Nat.toDigits 10 count := by
    rw [Nat.repr_eq_ofList_toDigits, String.toList_ofList]
  rw [errorsLine, hmessage, String.toList_append, String.toList_append, String.toList_append,
    List.append_assoc, hdigits]

theorem lineFeed_notMem_errorsLine (count : Nat) : '\n' ∉ (errorsLine count).toList := by
  have hname : '\n' ∉ "tplc: ".toList := by decide
  have hbegin : '\n' ∉ "template has ".toList := by decide
  have hend : '\n' ∉ " error(s)".toList := by decide
  have hdigits : '\n' ∉ Nat.toDigits 10 count := fun h =>
    absurd (Nat.isDigit_of_mem_toDigits (by decide) (by decide) h) (by decide)
  rw [toList_errorsLine]
  simp only [List.mem_append, not_or]
  exact ⟨hname, hbegin, hdigits, hend⟩

theorem errorsLine_inj {m n : Nat} : errorsLine m = errorsLine n ↔ m = n := by
  constructor
  · intro h
    rw [← String.toList_inj, toList_errorsLine, toList_errorsLine, List.append_cancel_left_eq,
      List.append_cancel_left_eq, List.append_cancel_right_eq] at h
    rw [← Nat.ofDigitChars_toDigits (b := 10) (n := m) (by decide) (by decide), h,
      Nat.ofDigitChars_toDigits (by decide) (by decide)]
  · rintro rfl
    rfl

/-! ### The outcome -/

/-- Each piece of the code gives a procedure. -/
def Materializes (code : Template.Code) (f : Code.Functions) : Prop :=
  List.Forall₂ (fun piece p => Code.interpret piece = .ok p) (code.main :: code.statics)
    (f.main :: f.statics)

/-- What a run prints behind the code: what the procedures render if there are data. -/
def Invocation.Renders (i : Invocation) (read : String → Except String String) (f : Code.Functions)
    (printed : String) : Prop :=
  match i.data with
  | none => printed = ""
  | some path => ∃ text value html, read path = .ok text ∧ Json.parse text = .ok value ∧
      f.render value = .ok html ∧ printed = line html

theorem forall₂_built_iff {pieces : List String} {procedures : List Code.Procedure} :
    List.Forall₂ (fun piece p => Code.interpret piece = .ok p) pieces procedures ↔
      pieces.filterMap (failure? Code.interpret) = [] ∧
        procedures = pieces.map fun piece => (Code.buildOrBlank Code.interpret piece).1 := by
  induction pieces generalizing procedures with
  | nil => simp
  | cons piece pieces ih =>
    rw [List.forall₂_cons_left_iff]
    cases hbuilt : Code.interpret piece with
    | error e => simp [failure?, hbuilt]
    | ok p =>
      have hnone : failure? Code.interpret piece = none := by rw [failure?, hbuilt]
      have hpiece : (Code.buildOrBlank Code.interpret piece).1 = p := by
        rw [Code.buildOrBlank, hbuilt]
      rw [List.filterMap_cons_none hnone, List.map_cons, hpiece]
      simp only [ih]
      constructor
      · rintro ⟨q, rest, hq, ⟨hfailures, rfl⟩, rfl⟩
        exact ⟨hfailures, by rw [Except.ok.inj hq]⟩
      · rintro ⟨hfailures, rfl⟩
        exact ⟨p, _, rfl, ⟨hfailures, rfl⟩, rfl⟩

/-- All pieces give procedures exactly if none fails, and then these are those of the library. -/
theorem materializes_iff {code : Template.Code} {f : Code.Functions} :
    Materializes code f ↔ failures code = [] ∧
      f = Code.buildFunctions Code.interpret code.main code.statics := by
  obtain ⟨main, statics⟩ := f
  rw [Materializes, forall₂_built_iff, failures, Code.buildFunctions, List.map_cons, List.cons.injEq,
    Code.Functions.mk.injEq]

theorem renderData_eq_ok_iff {i : Invocation} {read : String → Except String String}
    {f : Code.Functions} {printed : String} :
    renderData f (i.data.map fun path => (path, read path)) = .ok printed ↔
      i.Renders read f printed := by
  unfold Invocation.Renders
  cases i.data with
  | none => simp [renderData, eq_comm]
  | some path =>
    simp only [Option.map_some, renderData]
    cases read path with
    | error reason => simp
    | ok text =>
      cases hvalue : Json.parse text with
      | error reason => simp [hvalue]
      | ok value =>
        cases hhtml : f.render value with
        | error e => simp [hvalue, hhtml]
        | ok html => simp [hvalue, hhtml, eq_comm]

theorem Invocation.run_eq (i : Invocation) {read : String → Except String String} {template : String}
    (hread : read i.template = .ok template) :
    i.run read =
      let compiled := Compiler.web.compile i.overrides template
      conclude (codeLines compiled.code) (String.join ((i.answer template).2.2.map noticeLine))
        (if 0 < i.counted compiled then .error (.errors (i.counted compiled))
        else renderData (Code.buildFunctions Code.interpret compiled.code.main compiled.code.statics)
          (i.data.map fun path => (path, read path))) := by
  simp only [← answer_functions, ← length_errors_answer]
  unfold Invocation.run
  simp only [hread]
  rfl

theorem conclude_status_eq_zero_iff {stdout stderr : String} {result : Except Trouble String} :
    (conclude stdout stderr result).status = 0 ↔ ∃ printed, result = .ok printed := by
  cases result <;> simp [conclude]

theorem conclude_of_status_ne_zero {stdout stderr : String} {result : Except Trouble String}
    (h : (conclude stdout stderr result).status ≠ 0) :
    (conclude stdout stderr result).status = 1 ∧ (conclude stdout stderr result).stdout = stdout := by
  cases result with
  | ok printed => exact absurd rfl h
  | error t => exact ⟨rfl, rfl⟩

/-- The code is printed in any case. Errors that were counted end the run. -/
theorem Invocation.run_of_counted_ne_zero {i : Invocation} {read : String → Except String String}
    {template : String} (hread : read i.template = .ok template)
    (hcount : i.counted (Compiler.web.compile i.overrides template) ≠ 0) :
    (i.run read).status = 1 ∧
      (i.run read).stdout = codeLines (Compiler.web.compile i.overrides template).code ∧
      lastLine (i.run read).stderr =
        errorsLine (i.counted (Compiler.web.compile i.overrides template)) := by
  have hrun := i.run_eq hread
  simp only [if_pos (Nat.pos_of_ne_zero hcount)] at hrun
  rw [hrun]
  exact ⟨rfl, rfl, lastLine_append_line (endsLine_noticeLines _) (lineFeed_notMem_errorsLine _)⟩

/-- Where nothing is wrong with the template, the data decide. -/
theorem Invocation.run_of_counted_eq_zero {i : Invocation} {read : String → Except String String}
    {template : String} (hread : read i.template = .ok template)
    (hcount : i.counted (Compiler.web.compile i.overrides template) = 0) :
    let code := (Compiler.web.compile i.overrides template).code
    let f := Code.buildFunctions Code.interpret code.main code.statics
    ((i.run read).status = 0 ↔ ∃ printed, i.Renders read f printed) ∧
      (∀ printed, i.Renders read f printed → (i.run read).stdout = codeLines code ++ printed) ∧
      ((i.run read).status ≠ 0 → (i.run read).status = 1 ∧ (i.run read).stdout = codeLines code) := by
  intro code f
  have hrun := i.run_eq hread
  simp only [hcount, Nat.lt_irrefl, if_false] at hrun
  rw [hrun]
  refine ⟨?_, fun printed hprinted => ?_, conclude_of_status_ne_zero⟩
  · simp only [conclude_status_eq_zero_iff, renderData_eq_ok_iff]
    rfl
  · rw [renderData_eq_ok_iff.2 hprinted]
    rfl

/-- A run does what the library does with the text of its template. It ends with status 0 exactly if
the template compiles without errors, every piece of its code gives a procedure, and the data, if
there are any, are one document that the procedures render; then it has printed the code and what
they rendered. If the template has errors, the last line on the other stream has their number
exactly if positions were asked for or there is one error only; without positions it says that there
is one. -/
theorem run_agrees {arguments : List String} {i : Invocation}
    (hparse : parse arguments = .run i) {read : String → Except String String} {template : String}
    (hread : read i.template = .ok template) :
    let compiled := Compiler.web.compile i.overrides template
    let outcome := run arguments read
    (outcome.status = 0 ↔ compiled.errors = [] ∧
      ∃ f printed, Materializes compiled.code f ∧ i.Renders read f printed) ∧
    (outcome.status = 0 → ∀ f printed, Materializes compiled.code f → i.Renders read f printed →
      outcome.stdout = codeLines compiled.code ++ printed) ∧
    (outcome.status ≠ 0 → outcome.status = 1 ∧ outcome.stdout = codeLines compiled.code) ∧
    (compiled.errors ≠ [] →
      (lastLine outcome.stderr = errorsLine compiled.errors.length ↔
        i.ranges = true ∨ compiled.errors.length = 1) ∧
      (i.ranges = false → lastLine outcome.stderr = errorsLine 1)) := by
  intro compiled outcome
  have hrun : outcome = i.run read := by simp only [outcome, run, hparse]
  rw [hrun]
  by_cases hcount : i.counted compiled = 0
  · obtain ⟨herrors, hfailures⟩ := (counted_eq_zero_iff i compiled).1 hcount
    obtain ⟨hstatus, hprinted, hfailed⟩ := Invocation.run_of_counted_eq_zero hread hcount
    refine ⟨?_, fun _ f printed hf => ?_, hfailed, fun h => absurd herrors h⟩
    · rw [hstatus]
      simp only [herrors, materializes_iff, hfailures, true_and, exists_and_left, exists_eq_left]
      rfl
    · obtain ⟨-, rfl⟩ := materializes_iff.1 hf
      exact hprinted printed
  · obtain ⟨hstatus, hstdout, hlast⟩ := Invocation.run_of_counted_ne_zero hread hcount
    have hne : (i.run read).status ≠ 0 := by rw [hstatus]; decide
    refine ⟨⟨fun h => absurd h hne, ?_⟩, fun h => absurd h hne, fun _ => ⟨hstatus, hstdout⟩, ?_⟩
    · rintro ⟨herrors, f, -, hf, -⟩
      have hfailures := (materializes_iff.1 hf).1
      exact absurd ((counted_eq_zero_iff i compiled).2 ⟨herrors, hfailures⟩) hcount
    · intro herrors
      rw [hlast, errorsLine_inj, errorsLine_inj, Invocation.counted, if_neg herrors]
      cases i.ranges <;> simp [compiled, eq_comm]

/-- A template with data for it. -/
theorem run_agrees_sample :
    let arguments := ["--comments", "t.html", "d.json"]
    let i : Invocation := ⟨"t.html", some "d.json", false, true, false, none⟩
    let read : String → Except String String := fun path =>
      .ok (if path = "t.html" then "<p :id=\"a\"></p>" else "\x7b\"a\":\"x\"\x7d")
    let compiled := Compiler.web.compile i.overrides "<p :id=\"a\"></p>"
    parse arguments = .run i ∧ read i.template = .ok "<p :id=\"a\"></p>" ∧
      (run arguments read).stdout = codeLines compiled.code ++ "<p id=\"x\"></p>\n" ∧
      compiled.errors = [] ∧
      ∃ f printed, Materializes compiled.code f ∧ i.Renders read f printed ∧
        codeLines compiled.code ++ "<p id=\"x\"></p>\n" = codeLines compiled.code ++ printed := by
  intro arguments i read compiled
  have hparse : parse arguments = .run i := by decide +kernel
  have hread : read i.template = .ok "<p :id=\"a\"></p>" := rfl
  obtain ⟨hstatus, hstdout⟩ : (run arguments read).status = 0 ∧
      (run arguments read).stdout = codeLines compiled.code ++ "<p id=\"x\"></p>\n" := by
    decide +kernel
  obtain ⟨hiff, hprinted, -⟩ := run_agrees hparse hread
  obtain ⟨herrors, f, printed, hf, hrenders⟩ := hiff.1 hstatus
  exact ⟨hparse, hread, hstdout, herrors, f, printed, hf, hrenders,
    hstdout.symm.trans (hprinted hstatus f printed hf hrenders)⟩

/-- Two errors that one report lists count as one. -/
theorem run_counts_reports :
    let template := "<div :a=\"+\" :b=\"+\"></div>"
    let read : String → Except String String := fun _ => .ok template
    let i : Invocation := ⟨"t.html", none, false, false, false, none⟩
    let framed : Invocation := { i with ranges := true }
    ((Compiler.web.compile i.overrides template).errors.length = 2 ∧
      lastLine (run ["t.html"] read).stderr = "tplc: template has 1 error(s)") ∧
    (Compiler.web.compile framed.overrides template).errors.length = 2 ∧
      lastLine (run ["--ranges", "t.html"] read).stderr = "tplc: template has 2 error(s)" := by
  intro template read i framed
  obtain ⟨htwo, hone, hframed, hcount⟩ :
      (Compiler.web.compile i.overrides template).errors.length = 2 ∧
        i.counted (Compiler.web.compile i.overrides template) = 1 ∧
        (Compiler.web.compile framed.overrides template).errors.length = 2 ∧
        framed.counted (Compiler.web.compile framed.overrides template) = 2 := by
    decide +kernel
  have hread : read i.template = .ok template := rfl
  have hread' : read framed.template = .ok template := rfl
  have hlast := (Invocation.run_of_counted_ne_zero hread (by rw [hone]; decide)).2.2
  have hlast' := (Invocation.run_of_counted_ne_zero hread' (by rw [hcount]; decide)).2.2
  rw [hone] at hlast
  rw [hcount] at hlast'
  exact ⟨⟨htwo, hlast⟩, hframed, hlast'⟩

end HtmlTemplate.CommandLine
