import HtmlTemplate.Proofs.Procedures
import HtmlTemplate.Proofs.Evaluation

/-!
# What the check of calls is good for

The number of arguments of every call is checked before code ever runs. So a call of a procedure
fails only for what its arguments are, never for how many there are or for its name: the failures
that are left are those of `RenderFailure.OfValues` (`Expr.ofValues_of_eval`,
`ofValues_of_runStatic`). It does not matter whether an expression stands in a list, in a branch
that is passed over or in a static procedure that runs inside others (`run_covered_by_check`).
-/

namespace HtmlTemplate.Code

/-- What holds of an expression if it holds of its items or arguments first. -/
theorem Expr.induction {motive : Expr → Prop} (literal : ∀ v, motive (.literal v))
    (path : ∀ segments, motive (.path segments))
    (array : ∀ items, (∀ e ∈ items, motive e) → motive (.array items))
    (call : ∀ name arguments offset, (∀ e ∈ arguments, motive e) →
      motive (.call name arguments offset)) (e : Expr) : motive e :=
  match e with
  | .literal v => literal v
  | .path segments => path segments
  | .array items => array items fun e _ => Expr.induction literal path array call e
  | .call name arguments offset =>
    call name arguments offset fun e _ => Expr.induction literal path array call e

mutual

/-- All expressions in an expression, itself included. -/
def Expr.parts : Expr → List Expr
  | .literal v => [.literal v]
  | .path segments => [.path segments]
  | .array items => .array items :: partsAll items
  | .call name arguments offset => .call name arguments offset :: partsAll arguments

def partsAll : List Expr → List Expr
  | [] => []
  | e :: rest => e.parts ++ partsAll rest

end

theorem mem_partsAll {items : List Expr} {part : Expr} :
    part ∈ partsAll items ↔ ∃ e ∈ items, part ∈ e.parts := by
  induction items with
  | nil => simp [partsAll]
  | cons e rest ih => simp [partsAll, ih]

/-! ### Calls as they should be -/

/-- A call is as it should be if there is a helper of its name that takes so many arguments and the
calls in the arguments are. -/
theorem Expr.checkCalls_call_iff {name : String} {arguments : List Expr} {offset : Nat} :
    (Expr.call name arguments offset).checkCalls = .ok () ↔
      ∃ helper, Helper.named? name = some helper ∧
        helper.arity.admits arguments.length = true ∧ ∀ e ∈ arguments, e.checkCalls = .ok () := by
  rw [Expr.checkCalls]
  cases Helper.named? name with
  | none => simp
  | some helper =>
    dsimp only
    split
    · next hadmits => simp [hadmits, checkCallsAll_iff]
    · next hadmits => simp [hadmits]

/-- Every expression in one with calls as they should be is such an expression. -/
theorem Expr.checkCalls_of_mem_parts {e part : Expr} (h : e.checkCalls = .ok ())
    (hpart : part ∈ e.parts) : part.checkCalls = .ok () := by
  induction e using Expr.induction with
  | literal v =>
    rw [Expr.parts, List.mem_singleton] at hpart
    rwa [hpart]
  | path segments =>
    rw [Expr.parts, List.mem_singleton] at hpart
    rwa [hpart]
  | array items ih =>
    rw [Expr.parts, List.mem_cons, mem_partsAll] at hpart
    rcases hpart with rfl | ⟨e, he, hpart⟩
    · exact h
    · exact ih e he (Expr.checkCalls_array.1 h e he) hpart
  | call name arguments offset ih =>
    rw [Expr.parts, List.mem_cons, mem_partsAll] at hpart
    rcases hpart with rfl | ⟨e, he, hpart⟩
    · exact h
    · obtain ⟨helper, -, -, harguments⟩ := Expr.checkCalls_call_iff.1 h
      exact ih e he (harguments e he) hpart

/-! ### Failures for what values are -/

/-- The complaints about what an element is given. -/
def elementComplaints : List String :=
  ["attributes must be a list", "attribute list holds a non-attribute", "attribute in child list",
    "children must be a list"]

/-- The complaints about a value of the wrong kind, each with the helper that has it. -/
def kindComplaints : List (String × String) :=
  ("_m", "index must be a non-negative integer") :: elementComplaints.map fun message =>
    ("_c", message)

/-- A failure for what a value is: not the name of a call or the number of its arguments. -/
inductive RenderFailure.OfValues : RenderFailure → Prop where
  | missingStatic (index : Nat) : OfValues (.missingStatic index)
  | tooDeep (limit : Nat) : OfValues (.tooDeep limit)
  | kind {helper message : String} (h : (helper, message) ∈ kindComplaints) :
    OfValues (.mismatch helper message)

/-- A complaint of a helper with these words in it. -/
def RenderFailure.Says (f : RenderFailure) (words : String) : Prop :=
  ∃ helper message, f = .mismatch helper message ∧ words.toList <:+: message.toList

theorem RenderFailure.OfValues.not_says {f : RenderFailure} (h : f.OfValues) :
    ¬ f.Says "unknown helper" ∧ ¬ f.Says "missing argument" := by
  cases h with
  | missingStatic index => simp [Says]
  | tooDeep limit => simp [Says]
  | @kind helper message h =>
    have hmessages : ∀ complaint ∈ kindComplaints,
        ¬ "unknown helper".toList <:+: complaint.2.toList ∧
          ¬ "missing argument".toList <:+: complaint.2.toList := by
      decide +kernel
    obtain ⟨hunknown, hmissing⟩ := hmessages _ h
    simp only [Says, RenderFailure.mismatch.injEq]
    constructor
    · rintro ⟨_, _, ⟨rfl, rfl⟩, hwords⟩
      exact hunknown hwords
    · rintro ⟨_, _, ⟨rfl, rfl⟩, hwords⟩
      exact hmissing hwords

theorem exists_of_mapM_eq_error {α β ε : Type} {f : α → Except ε β} {items : List α} {e : ε}
    (h : items.mapM f = .error e) : ∃ a ∈ items, f a = .error e := by
  induction items with
  | nil => cases h
  | cons a rest ih =>
    rw [List.mapM_cons] at h
    cases ha : f a with
    | error e' =>
      rw [ha] at h
      cases h
      exact ⟨a, by simp, ha⟩
    | ok b =>
      rw [ha] at h
      cases hrest : rest.mapM f with
      | error e' =>
        rw [hrest] at h
        cases h
        obtain ⟨a', ha', hf⟩ := ih hrest
        exact ⟨a', by simp [ha'], hf⟩
      | ok bs =>
        rw [hrest] at h
        cases h

theorem complaint_of_attributeText {helper : String} {r : Result} {f : RenderFailure}
    (h : attributeText helper r = .error f) :
    ∃ message ∈ elementComplaints, f = .mismatch helper message := by
  unfold attributeText at h
  split at h
  · cases h
  · cases h
    exact ⟨_, by simp [elementComplaints], rfl⟩

theorem complaint_of_childText {helper : String} {r : Result} {f : RenderFailure}
    (h : childText helper r = .error f) :
    ∃ message ∈ elementComplaints, f = .mismatch helper message := by
  unfold childText at h
  split at h
  · cases h
  · cases h
    exact ⟨_, by simp [elementComplaints], rfl⟩
  · cases h

theorem complaint_of_writeElement {helper : String} {name attributes : Result}
    {children : Option Result} {f : RenderFailure}
    (h : writeElement helper name attributes children = .error f) :
    ∃ message ∈ elementComplaints, f = .mismatch helper message := by
  unfold writeElement at h
  split at h
  · split at h
    · next hfailed =>
      cases h
      obtain ⟨r, -, hr⟩ := exists_of_mapM_eq_error hfailed
      exact complaint_of_attributeText hr
    · dsimp only at h
      split at h
      · cases h
      · split at h
        · next hfailed =>
          cases h
          obtain ⟨r, -, hr⟩ := exists_of_mapM_eq_error hfailed
          exact complaint_of_childText hr
        · cases h
      · cases h
        exact ⟨_, by simp [elementComplaints], rfl⟩
  · cases h
    exact ⟨_, by simp [elementComplaints], rfl⟩

/-- The name by which a helper is called. -/
def Helper.name : Helper → String
  | .element => "_c"
  | .attribute => "_a"
  | .condition => "_i"
  | .text => "_v"
  | .display => "_s"
  | .markup => "_h"
  | .static => "_m"
  | .comment => "_cm"
  | .empty => "_e"
  | .join => "_j"

theorem Helper.eq_name_of_named? {name : String} {helper : Helper}
    (h : Helper.named? name = some helper) : name = helper.name := by
  unfold Helper.named? at h
  split at h <;> cases h <;> rfl

/-! ### Calls do not fail for the number of their arguments -/

theorem Arity.least_le_of_admits {a : Arity} {n : Nat} (h : a.admits n = true) : a.least ≤ n :=
  of_decide_eq_true (Bool.and_eq_true_iff.1 h).1

/-- A helper with one number of arguments takes that number only. -/
theorem Arity.eq_of_admits {k n : Nat} (h : (Arity.mk k (some k)).admits n = true) : n = k :=
  have hgreatest : n ≤ k := of_decide_eq_true (Bool.and_eq_true_iff.1 h).2
  Nat.le_antisymm hgreatest (Arity.least_le_of_admits h)

theorem exists_cons_cons_of_length {α : Type} {items : List α} (h : 2 ≤ items.length) :
    ∃ a b rest, items = a :: b :: rest := by
  match items, h with
  | a :: b :: rest, _ => exact ⟨a, b, rest, rfl⟩

theorem exists_of_evalAll_eq_error {data : Json.Value}
    {callStatic : Nat → Except RenderFailure String} {items : List Expr} {f : RenderFailure}
    (h : evalAll data callStatic items = .error f) :
    ∃ e ∈ items, e.eval data callStatic = .error f := by
  induction items with
  | nil => cases h
  | cons e rest ih =>
    rw [evalAll] at h
    split at h
    · next f' hf =>
      cases h
      exact ⟨e, by simp, hf⟩
    · split at h
      · next f' hf =>
        cases h
        obtain ⟨e', he', hfailed⟩ := ih hf
        exact ⟨e', by simp [he'], hfailed⟩
      · cases h

theorem length_of_evalAll {data : Json.Value}
    {callStatic : Nat → Except RenderFailure String} {items : List Expr} {results : List Result}
    (h : evalAll data callStatic items = .ok results) : results.length = items.length :=
  (evalAll_eq_ok_iff.1 h).length_eq.symm

/-- A condition and its node fail only if one of the two does. -/
theorem ofValues_of_evalCondition {data : Json.Value}
    {callStatic : Nat → Except RenderFailure String} {name : String} {arguments : List Expr}
    {f : RenderFailure} (hlength : arguments.length = 2)
    (harguments : ∀ e ∈ arguments, ∀ f, e.eval data callStatic = .error f → f.OfValues)
    (h : evalCondition data callStatic name arguments = .error f) : f.OfValues := by
  obtain ⟨condition, node, rfl⟩ := List.length_eq_two.1 hlength
  rw [evalCondition] at h
  split at h
  · next f' hf =>
    cases h
    exact harguments condition (by simp) f hf
  · split at h
    · exact harguments node (by simp) f h
    · cases h

section

variable {callStatic : Nat → Except RenderFailure String}
  (hstatic : ∀ index f, callStatic index = .error f → f.OfValues)
include hstatic

/-- A helper with as many arguments as it takes fails only for what they are. -/
theorem ofValues_of_applyHelper {name : String} {helper : Helper} {results : List Result}
    {f : RenderFailure} (hname : Helper.named? name = some helper)
    (hcondition : helper ≠ .condition) (hadmits : helper.arity.admits results.length = true)
    (h : applyHelper callStatic name (some helper) results = .error f) : f.OfValues := by
  obtain rfl := Helper.eq_name_of_named? hname
  have hleast := Arity.least_le_of_admits hadmits
  cases helper with
  | condition => exact absurd rfl hcondition
  | empty | join => cases h
  | text | display | markup | comment =>
    obtain ⟨r, rest, rfl⟩ := List.exists_cons_of_length_pos hleast
    cases h
  | static =>
    obtain ⟨r, rest, rfl⟩ := List.exists_cons_of_length_pos hleast
    simp only [applyHelper] at h
    split at h
    · cases h
      exact .kind (by simp [kindComplaints, Helper.name])
    · next index _ =>
      cases hindex : callStatic index with
      | ok html =>
        rw [hindex] at h
        cases h
      | error f' =>
        rw [hindex] at h
        cases h
        exact hstatic index _ hindex
  | «attribute» =>
    obtain ⟨key, value, rest, rfl⟩ := exists_cons_cons_of_length hleast
    cases h
  | element =>
    obtain ⟨name, attributes, rest, rfl⟩ := exists_cons_cons_of_length hleast
    obtain ⟨message, hmessage, rfl⟩ := complaint_of_writeElement h
    exact .kind (by simpa [kindComplaints, Helper.name] using hmessage)

/-- An expression with calls as they should be fails only for what values are. -/
theorem Expr.ofValues_of_eval {data : Json.Value} {e : Expr} (he : e.checkCalls = .ok ())
    {f : RenderFailure} (h : e.eval data callStatic = .error f) : f.OfValues := by
  induction e using Expr.induction generalizing f with
  | literal v => cases h
  | path segments => cases h
  | array items ih =>
    rw [Expr.eval] at h
    split at h
    · next f' hf =>
      cases h
      obtain ⟨e, hmem, hfailed⟩ := exists_of_evalAll_eq_error hf
      exact ih e hmem (Expr.checkCalls_array.1 he e hmem) hfailed
    · cases h
  | call name arguments offset ih =>
    obtain ⟨helper, hname, hadmits, hchecked⟩ := Expr.checkCalls_call_iff.1 he
    have hfails : ∀ e ∈ arguments, ∀ f, e.eval data callStatic = .error f → f.OfValues :=
      fun e hmem f hfailed => ih e hmem (hchecked e hmem) hfailed
    rw [Expr.eval, hname] at h
    split at h
    · next hcondition =>
      cases hcondition
      exact ofValues_of_evalCondition (Arity.eq_of_admits hadmits) hfails h
    · next hcondition =>
      split at h
      · next f' hf =>
        cases h
        obtain ⟨e, hmem, hfailed⟩ := exists_of_evalAll_eq_error hf
        exact hfails e hmem f hfailed
      · next results hresults =>
        rw [← length_of_evalAll hresults] at hadmits
        exact ofValues_of_applyHelper hstatic hname (fun hc => hcondition (by rw [hc])) hadmits h

/-- Rendering code fails as evaluating it does. -/
theorem Expr.ofValues_of_render {data : Json.Value} {e : Expr} (he : e.checkCalls = .ok ())
    {f : RenderFailure} (h : e.render data callStatic = .error f) : f.OfValues := by
  rw [Expr.render] at h
  split at h
  · next f' hf =>
    cases h
    exact Expr.ofValues_of_eval hstatic he hf
  · cases h
  · cases h

end

/-! ### Procedures that were built -/

/-- A procedure that code gave, or a blank one. -/
def Procedure.Built (p : Procedure) : Prop := p = .blank ∨ ∃ code, interpret code = .ok p

theorem checkCalls_of_interpret {code : String} {e : Expr} (h : interpret code = .ok (.code e)) :
    e.checkCalls = .ok () := by
  unfold interpret at h
  split at h
  · cases h
  · split at h
    · cases h
    · next hcalls =>
      cases h
      exact hcalls

/-- The expressions in a procedure. -/
def Procedure.parts : Procedure → List Expr
  | .blank => []
  | .code e => e.parts

theorem Procedure.Built.checkCalls {p : Procedure} (h : p.Built) {e : Expr} (he : e ∈ p.parts) :
    e.checkCalls = .ok () := by
  rcases h with rfl | ⟨code, hcode⟩
  · cases he
  · cases p with
    | blank => cases he
    | code whole => exact Expr.checkCalls_of_mem_parts (checkCalls_of_interpret hcode) he

theorem Expr.mem_parts_self (e : Expr) : e ∈ e.parts := by
  cases e <;> simp [Expr.parts]

theorem Procedure.Built.ofValues_of_run {p : Procedure} (h : p.Built) {data : Json.Value}
    {callStatic : Nat → Except RenderFailure String}
    (hstatic : ∀ index f, callStatic index = .error f → f.OfValues) {f : RenderFailure}
    (hrun : p.run data callStatic = .error f) : f.OfValues := by
  cases p with
  | blank => cases hrun
  | code e => exact Expr.ofValues_of_render hstatic (h.checkCalls e.mem_parts_self) hrun

/-- Static procedures fail only for what values are, however many run inside each other. -/
theorem ofValues_of_runStatic {statics : List Procedure} (hstatics : ∀ p ∈ statics, p.Built)
    {data : Json.Value} {more index : Nat} {f : RenderFailure}
    (h : runStatic statics data more index = .error f) : f.OfValues := by
  induction more generalizing index f with
  | zero =>
    rw [runStatic] at h
    split at h
    · cases h
      exact .missingStatic index
    · cases h
      exact .tooDeep staticNestingLimit
  | succ more ih =>
    rw [runStatic] at h
    split at h
    · cases h
      exact .missingStatic index
    · next p hp =>
      exact (hstatics p (List.mem_of_getElem? hp)).ofValues_of_run (fun _ _ => ih) h

/-- Whatever the data and however many static procedures are running, neither a procedure that was
built nor any expression in one fails for an unknown helper or a missing argument. -/
theorem run_covered_by_check {main : Procedure} (hmain : main.Built) {statics : List Procedure}
    (hstatics : ∀ p ∈ statics, p.Built) (data : Json.Value) (more : Nat) {f : RenderFailure}
    (h : main.run data (runStatic statics data more) = .error f ∨
      ∃ p ∈ main :: statics, ∃ e ∈ p.parts,
        e.eval data (runStatic statics data more) = .error f) :
    ¬ f.Says "unknown helper" ∧ ¬ f.Says "missing argument" := by
  have hstatic : ∀ index f, runStatic statics data more index = .error f → f.OfValues :=
    fun _ _ => ofValues_of_runStatic hstatics
  apply RenderFailure.OfValues.not_says
  rcases h with hrun | ⟨p, hp, e, he, heval⟩
  · exact hmain.ofValues_of_run hstatic hrun
  · have hbuilt : p.Built := by
      rcases List.mem_cons.1 hp with rfl | hp
      · exact hmain
      · exact hstatics p hp
    exact Expr.ofValues_of_eval hstatic (hbuilt.checkCalls he) heval

theorem built_buildOrBlank (code : String) : (buildOrBlank interpret code).1.Built := by
  unfold buildOrBlank
  split
  · next p hp => exact .inr ⟨code, hp⟩
  · exact .inl rfl

/-- What a static procedure in a branch fails for: a text among its attributes. -/
theorem run_covered_by_check_sample :
    let main := (buildOrBlank interpret "_i(ok,_m(1))").1
    let statics := ["_m()", "_c(\"b\",[x],[_v(y)])"].map fun code => (buildOrBlank interpret code).1
    let data := Json.Value.object [("ok", .bool true)]
    main.run data (runStatic statics data staticNestingLimit) =
        .error (.mismatch "_c" "attribute list holds a non-attribute") ∧
      ¬ (RenderFailure.mismatch "_c" "attribute list holds a non-attribute").Says
        "unknown helper" ∧
      ¬ (RenderFailure.mismatch "_c" "attribute list holds a non-attribute").Says
        "missing argument" := by
  intro main statics data
  have hrun : main.run data (runStatic statics data staticNestingLimit) =
      .error (.mismatch "_c" "attribute list holds a non-attribute") := by
    decide +kernel
  have hstatics : ∀ p ∈ statics, p.Built := by
    intro p hp
    obtain ⟨code, -, rfl⟩ := List.mem_map.1 hp
    exact built_buildOrBlank code
  exact ⟨hrun, run_covered_by_check (built_buildOrBlank _) hstatics data staticNestingLimit
    (.inl hrun)⟩

end HtmlTemplate.Code
