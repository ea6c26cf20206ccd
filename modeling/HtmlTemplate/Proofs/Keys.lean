import HtmlTemplate.Proofs.History

/-!
# What a key tells apart

A key is the template with the delimiters that a call chose written before it, and nothing says
where these end. Two requests have the same key exactly if the text of the delimiters of one is
that of the other and more, and the template of the other begins with the rest
(`key_eq_key_iff`). A session answers a request with what was compiled for the first one with its
key, so the answer is for the template and the delimiters of the request unless these clash with
those of an earlier one (`call_answered_for_own_iff`).
-/

namespace HtmlTemplate.Session

open Template (Compiler Delimiters Overrides)

/-! ### Requests with the same key -/

/-- What a key has before the template. -/
def mark (d : Option Delimiters) : String := (d.map Delimiters.display).getD ""

theorem toList_key (template : String) (d : Option Delimiters) :
    (key template d).toList = (mark d).toList ++ template.toList := by
  cases d with
  | none => rfl
  | some d => exact String.toList_append

theorem eq_append_iff {s t u : String} : s = t ++ u ↔ s.toList = t.toList ++ u.toList := by
  rw [← String.toList_append, String.toList_inj]

theorem key_eq_key_iff (t t' : String) (d d' : Option Delimiters) :
    key t d = key t' d' ↔
      ∃ s, (mark d' = mark d ++ s ∧ t = s ++ t') ∨ (mark d = mark d' ++ s ∧ t' = s ++ t) := by
  rw [← String.toList_inj, toList_key, toList_key, List.append_eq_append_iff]
  constructor
  · rintro (⟨s, hmark, ht⟩ | ⟨s, hmark, ht⟩)
    · refine ⟨String.ofList s, .inl ⟨eq_append_iff.2 ?_, eq_append_iff.2 ?_⟩⟩
      · rwa [String.toList_ofList]
      · rwa [String.toList_ofList]
    · refine ⟨String.ofList s, .inr ⟨eq_append_iff.2 ?_, eq_append_iff.2 ?_⟩⟩
      · rwa [String.toList_ofList]
      · rwa [String.toList_ofList]
  · rintro ⟨s, ⟨hmark, ht⟩ | ⟨hmark, ht⟩⟩
    · exact .inl ⟨s.toList, eq_append_iff.1 hmark, eq_append_iff.1 ht⟩
    · exact .inr ⟨s.toList, eq_append_iff.1 hmark, eq_append_iff.1 ht⟩

/-- Templates and delimiters that are not the same, and yet the text of the delimiters of one is
that of the other and more, with which the template of the other begins. -/
def Clash (t : String) (d : Option Delimiters) (t' : String) (d' : Option Delimiters) : Prop :=
  ¬ (t = t' ∧ d = d') ∧
    ∃ s, (mark d' = mark d ++ s ∧ t = s ++ t') ∨ (mark d = mark d' ++ s ∧ t' = s ++ t)

theorem key_tells_apart_iff (t t' : String) (d d' : Option Delimiters) :
    (key t d = key t' d' ↔ t = t' ∧ d = d') ↔ ¬ Clash t d t' d' := by
  have hsame : t = t' ∧ d = d' → key t d = key t' d' := by
    rintro ⟨rfl, rfl⟩
    rfl
  rw [Clash, ← key_eq_key_iff]
  constructor
  · rintro hiff ⟨hother, hkey⟩
    exact hother (hiff.1 hkey)
  · intro hclash
    exact ⟨fun hkey => by_contra fun hother => hclash ⟨hother, hkey⟩, hsame⟩

/-- Under the same delimiters no templates clash. -/
theorem not_clash_of_same_delimiters (t t' : String) (d : Option Delimiters) : ¬ Clash t d t' d := by
  rintro ⟨hother, hglued⟩
  have hkey : (key t d).toList = (key t' d).toList := by rw [(key_eq_key_iff ..).2 hglued]
  rw [toList_key, toList_key, List.append_cancel_left_eq] at hkey
  exact hother ⟨String.toList_inj.1 hkey, rfl⟩

/-! ### Sessions of calls -/

/-- The store after the calls for some requests: each key has what was compiled for the first
request with it. -/
def Store.Answers (setup : Setup) (rs : List Request) (s : Store) : Prop :=
  ∀ key, s.find? key = (rs.find? (·.key == key)).map fun q => (produce setup q).1

theorem Store.Answers.insert {setup : Setup} {rs : List Request} {s : Store}
    (h : s.Answers setup rs) (r : Request) :
    (s.insert r.key (produce setup r).1).Answers setup (rs ++ [r]) := by
  intro key
  rw [List.find?_append, List.find?_singleton]
  by_cases heq : key = r.key
  · subst heq
    rw [find?_insert_self, h r.key, beq_self_eq_true, if_pos rfl]
    cases rs.find? (·.key == r.key) <;> rfl
  · rw [find?_insert_of_ne s heq, h key, if_neg (by simpa using Ne.symm heq), Option.or_none]

theorem State.answers_after_calls (setup : Setup) (s : State) {rs : List Request}
    (h : s.store.Answers setup rs) (more : List Request) :
    (s.after setup (more.map .call)).store.Answers setup (rs ++ more) := by
  induction more generalizing s rs with
  | nil => simpa using h
  | cons r more ih =>
    have hstore : ((Operation.call r).perform setup s).state.store =
        s.store.insert r.key (produce setup r).1 :=
      (Operation.call r).perform_store setup s
    have hrest := ih ((Operation.call r).perform setup s).state (hstore ▸ h.insert r)
    rw [List.append_assoc] at hrest
    exact hrest

theorem answer_after_calls (setup : Setup) (rs : List Request) (r : Request) :
    ((Operation.call r).perform setup (State.after setup {} (rs.map .call))).answer =
      ((rs ++ [r]).find? (·.key == r.key)).map fun q => (produce setup q).1 := by
  have hempty : Store.Answers setup [] {} := fun key => rfl
  have hanswers : (State.after setup {} (rs.map .call)).store.Answers setup rs :=
    State.answers_after_calls setup {} hempty rs
  have hoffer : (Operation.call r).offer? setup = some (r.key, (produce setup r).1) := rfl
  rw [Operation.perform_answer setup _ hoffer, hanswers r.key, List.find?_append]
  cases rs.find? (·.key == r.key) with
  | some q => rfl
  | none => simp

/-- Keys tell templates and delimiters apart unless these clash, which they never do under the same
delimiters. A session answers a call with what was compiled for the first request with its key,
which is one for the same template and the same delimiters unless these clash. -/
theorem call_answered_for_own_iff (t t' : String) (d d' : Option Delimiters) (setup : Setup)
    (rs : List Request) (r : Request) :
    ((key t d = key t' d' ↔ t = t' ∧ d = d') ↔ ¬ Clash t d t' d') ∧
    ¬ Clash t d t' d ∧
    ∃ q, (rs ++ [r]).find? (·.key == r.key) = some q ∧
      ((Operation.call r).perform setup (State.after setup {} (rs.map .call))).answer =
        some (produce setup q).1 ∧
      (q.template = r.template ∧ q.overrides.delimiters = r.overrides.delimiters ↔
        ¬ Clash q.template q.overrides.delimiters r.template r.overrides.delimiters) := by
  have hfound : ((rs ++ [r]).find? (·.key == r.key)).isSome :=
    List.find?_isSome.2 ⟨r, by simp, beq_self_eq_true _⟩
  obtain ⟨q, hq⟩ := Option.isSome_iff_exists.1 hfound
  have hkey : q.key = r.key := by simpa using List.find?_some hq
  refine ⟨key_tells_apart_iff t t' d d', not_clash_of_same_delimiters t t' d, q, hq, ?_, ?_⟩
  · rw [answer_after_calls, hq, Option.map_some]
  · rw [← key_tells_apart_iff]
    exact ⟨fun hsame => ⟨fun _ => hsame, fun _ => hkey⟩, fun hiff => hiff.1 hkey⟩

/-- The comma between delimiters may as well be part of them. The second of two calls, for which
`[` opens nothing, gets the procedures of the first, in which it does. -/
theorem key_confuses_delimiters :
    let template := "<p>[a,]</p>"
    let overrides : Overrides := { delimiters := some ⟨"[", ",]"⟩ }
    let overrides' : Overrides := { delimiters := some ⟨"[,", "]"⟩ }
    overrides.delimiters ≠ overrides'.delimiters ∧
      key template overrides.delimiters = key template overrides'.delimiters ∧
      (Compiler.web.compile overrides template).code.main ≠
        (Compiler.web.compile overrides' template).code.main ∧
      ∀ materializer outlet caller own,
        let setup : Setup := ⟨.web, materializer, outlet⟩
        let first : Request := ⟨template, overrides, caller, own⟩
        let second : Request := ⟨template, overrides', caller, own⟩
        ((Operation.call second).perform setup (State.after setup {} [.call first])).answer =
          some (produce setup first).1 := by
  intro template overrides overrides'
  have hkey : key template overrides.delimiters = key template overrides'.delimiters := by
    decide +kernel
  refine ⟨by decide, hkey, by decide +kernel, ?_⟩
  intro materializer outlet caller own setup first second
  have hfirst : ([first] ++ [second]).find? (·.key == second.key) = some first :=
    List.find?_cons_of_pos (beq_iff_eq.2 hkey)
  rw [show [Operation.call first] = [first].map .call from rfl, answer_after_calls, hfirst,
    Option.map_some]

end HtmlTemplate.Session
