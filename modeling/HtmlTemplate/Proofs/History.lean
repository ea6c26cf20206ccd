import Mathlib.Data.Finset.Card
import HtmlTemplate.Session.Basic

/-!
# What a session remembers

A session is asked for the procedures of templates, and its store is put to and read directly, in
any order (`Operation`). Entries come at the end of the store and stay where they are, so that the
first one under a key answers everything that is asked for the key from then on (`Store.Holds`). A
call whose key has an entry is answered from the store alone. Only the very first call may say
more, which is the advisory about surroundings that allow no procedures; nothing else that is said
looks like it.
-/

namespace HtmlTemplate.Session

open Template (Compiler Compiled)
open Code (Functions Failed)

/-! ### Entries and their numbers -/

namespace Store

/-- The entry of a number is the one under a key, and these are its procedures. -/
def Holds (s : Store) (n : Nat) (key : String) (f : Functions) : Prop :=
  s.number? key = some n ∧ s.entry? n = some f

theorem find?_eq_bind (s : Store) (key : String) : s.find? key = (s.number? key).bind s.entry? := by
  change s.entries.lookup key =
    (s.entries.findIdx? (·.1 == key)).bind fun n => (s.entries[n]?).map Prod.snd
  induction s.entries with
  | nil => rfl
  | cons e entries ih =>
    obtain ⟨k, f⟩ := e
    rw [List.lookup_cons, List.findIdx?_cons, BEq.comm (a := key)]
    cases k == key with
    | true => rfl
    | false => simp [ih, Option.bind_map]

theorem find?_eq_some_iff (s : Store) (key : String) (f : Functions) :
    s.find? key = some f ↔ ∃ n, s.Holds n key f := by
  rw [find?_eq_bind, Option.bind_eq_some_iff]
  rfl

/-- An entry keeps its number when more come after it. -/
theorem Holds.of_prefix {s t : Store} {n : Nat} {key : String} {f : Functions}
    (h : s.Holds n key f) (hbegins : s.entries <+: t.entries) : t.Holds n key f := by
  obtain ⟨more, hmore⟩ := hbegins
  obtain ⟨hnumber, hentry⟩ := h
  obtain ⟨e, he, rfl⟩ := Option.map_eq_some_iff.1 hentry
  obtain ⟨hlt, -⟩ := List.getElem?_eq_some_iff.1 he
  constructor
  · rw [Store.number?, ← hmore, List.findIdx?_append, ← Store.number?, hnumber, Option.some_or]
  · change (t.entries[n]?).map Prod.snd = some e.2
    rw [← hmore, List.getElem?_append_left hlt, he, Option.map_some]

theorem entries_prefix_insert (s : Store) (key : String) (f : Functions) :
    s.entries <+: (s.insert key f).entries := by
  cases h : s.find? key with
  | some found => rw [insert_of_find?_eq_some h]
  | none =>
    rw [insert_of_find?_eq_none h]
    exact List.prefix_append _ _

/-- The keys that have entries, with one entry for each. -/
def HasKeys (s : Store) (keys : List String) : Prop :=
  (∀ key, (s.find? key).isSome ↔ key ∈ keys) ∧ s.size = keys.toFinset.card

theorem HasKeys.insert {s : Store} {keys : List String} (h : s.HasKeys keys) (key : String)
    (f : Functions) : (s.insert key f).HasKeys (keys ++ [key]) := by
  obtain ⟨hmem, hsize⟩ := h
  constructor
  · intro other
    rw [List.mem_append, List.mem_singleton, ← hmem other]
    by_cases heq : other = key
    · simp [heq, find?_insert_self]
    · simp [heq, find?_insert_of_ne s heq]
  · have hkeys : (keys ++ [key]).toFinset = Insert.insert key keys.toFinset := by
      ext other
      simp
    rw [size_insert, hsize, hkeys]
    by_cases hold : key ∈ keys
    · rw [if_pos ((hmem key).2 hold), Finset.insert_eq_of_mem (List.mem_toFinset.2 hold)]
    · rw [if_neg (mt (hmem key).1 hold), Finset.card_insert_of_notMem (mt List.mem_toFinset.1 hold)]

end Store

/-! ### Operations -/

/-- What a session is asked to do. -/
inductive Operation where
  | call (r : Request)
  | put (key : String) (f : Functions)
  | get (key : String)

/-- What comes of an operation. -/
structure Outcome where
  answer : Option Functions
  state : State
  notices : List Notice

namespace Operation

def perform (setup : Setup) (s : State) : Operation → Outcome
  | call r =>
    let (f, next, notices) := s.functions setup r
    ⟨some f, next, notices⟩
  | put key f =>
    let (found, next) := s.put key f
    ⟨some found, next, []⟩
  | get key => ⟨s.store.find? key, s, []⟩

/-- The entry that an operation has for the store, should there be none under its key. -/
def offer? (setup : Setup) : Operation → Option (String × Functions)
  | call r => some (r.key, (produce setup r).1)
  | put key f => some (key, f)
  | get _ => none

/-- The key that has an entry once the operation is done. -/
def stored? : Operation → Option String
  | call r => some r.key
  | put key _ => some key
  | get _ => none

/-- The advisory, if it is due with the operation. -/
def advice (setup : Setup) (probed : Bool) : Operation → List Notice
  | call r => if probed then [] else probe setup r
  | put _ _ => []
  | get _ => []

def isCall : Operation → Bool
  | call _ => true
  | put _ _ => false
  | get _ => false

end Operation

/-- The state that operations lead to. -/
def State.after (setup : Setup) (s : State) (ops : List Operation) : State :=
  ops.foldl (fun s op => (op.perform setup s).state) s

/-- All that is said during operations, in order. -/
def State.said (setup : Setup) : State → List Operation → List Notice
  | _, [] => []
  | s, op :: ops =>
    let o := op.perform setup s
    o.notices ++ State.said setup o.state ops

section

variable (setup : Setup) (s : State)

@[simp] theorem State.after_nil : s.after setup [] = s := rfl

@[simp] theorem State.after_cons (op : Operation) (ops : List Operation) :
    s.after setup (op :: ops) = (op.perform setup s).state.after setup ops := rfl

theorem State.after_append (ops more : List Operation) :
    s.after setup (ops ++ more) = (s.after setup ops).after setup more :=
  List.foldl_append

/-! ### Calls -/

/-- A call whose key has an entry: nothing but the store and the probe is looked at. -/
theorem State.functions_of_find?_eq_some {r : Request} {found : Functions}
    (h : s.store.find? r.key = some found) :
    s.functions setup r =
      (found, { s with probed := true }, if s.probed then [] else probe setup r) := by
  rw [State.functions, h]

theorem State.functions_of_find?_eq_none {r : Request} (h : s.store.find? r.key = none) :
    s.functions setup r = ((produce setup r).1, ⟨s.store.insert r.key (produce setup r).1, true⟩,
      (if s.probed then [] else probe setup r) ++ (produce setup r).2) := by
  rw [State.functions, h]

/-! ### What one operation does -/

theorem Operation.perform_store (op : Operation) :
    (op.perform setup s).state.store =
      (op.offer? setup).elim s.store fun e => s.store.insert e.1 e.2 := by
  cases op with
  | call r =>
    cases h : s.store.find? r.key with
    | some found =>
      rw [Operation.perform, State.functions_of_find?_eq_some setup s h]
      exact (Store.insert_of_find?_eq_some h _).symm
    | none =>
      rw [Operation.perform, State.functions_of_find?_eq_none setup s h]
      rfl
  | put key f => rfl
  | get key => rfl

/-- Whoever offers an entry is answered with the one under its key. -/
theorem Operation.perform_answer {op : Operation} {key : String} {f : Functions}
    (h : op.offer? setup = some (key, f)) :
    (op.perform setup s).answer = some ((s.store.find? key).getD f) := by
  cases op with
  | call r =>
    obtain ⟨rfl, rfl⟩ := Prod.mk.inj (Option.some.inj h)
    cases hfind : s.store.find? r.key with
    | some found => rw [Operation.perform, State.functions_of_find?_eq_some setup s hfind]; rfl
    | none => rw [Operation.perform, State.functions_of_find?_eq_none setup s hfind]; rfl
  | put key' f' =>
    obtain ⟨rfl, rfl⟩ := Prod.mk.inj (Option.some.inj h)
    rw [Operation.perform, State.put, Store.find?_insert_self, Option.getD_some]
  | get key => cases h

theorem Operation.perform_probed (op : Operation) :
    (op.perform setup s).state.probed = (s.probed || op.isCall) := by
  cases op with
  | call r =>
    rw [Operation.isCall, Bool.or_true]
    cases h : s.store.find? r.key with
    | some found => rw [Operation.perform, State.functions_of_find?_eq_some setup s h]
    | none => rw [Operation.perform, State.functions_of_find?_eq_none setup s h]
  | put key f => rw [Operation.isCall, Bool.or_false]; rfl
  | get key => rw [Operation.isCall, Bool.or_false]; rfl

theorem Operation.entries_prefix_perform (op : Operation) :
    s.store.entries <+: (op.perform setup s).state.store.entries := by
  rw [op.perform_store setup s]
  cases op.offer? setup with
  | none => exact List.prefix_refl _
  | some e => exact s.store.entries_prefix_insert e.1 e.2

theorem Operation.stored?_eq (op : Operation) : op.stored? = (op.offer? setup).map Prod.fst := by
  cases op <;> rfl

/-! ### What a run of operations does -/

theorem State.entries_prefix_after (ops : List Operation) :
    s.store.entries <+: (s.after setup ops).store.entries := by
  induction ops generalizing s with
  | nil => exact List.prefix_refl _
  | cons op ops ih => exact (op.entries_prefix_perform setup s).trans (ih _)

theorem State.probed_after (ops : List Operation) :
    (s.after setup ops).probed = (s.probed || ops.any Operation.isCall) := by
  induction ops generalizing s with
  | nil => simp
  | cons op ops ih => rw [after_cons, ih, op.perform_probed setup s, List.any_cons, Bool.or_assoc]

theorem State.hasKeys_after (ops : List Operation) {keys : List String}
    (h : s.store.HasKeys keys) :
    (s.after setup ops).store.HasKeys (keys ++ ops.filterMap Operation.stored?) := by
  induction ops generalizing s keys with
  | nil => simpa using h
  | cons op ops ih =>
    have hstore := op.perform_store setup s
    rw [List.filterMap_cons, op.stored?_eq setup]
    cases hoffer : op.offer? setup with
    | none =>
      rw [hoffer, Option.elim_none] at hstore
      exact ih _ (hstore ▸ h)
    | some e =>
      rw [hoffer, Option.elim_some] at hstore
      have hrest := ih _ (hstore ▸ h.insert e.1 e.2)
      rw [List.append_assoc] at hrest
      exact hrest

end

/-! ### The advisory -/

def Notice.isAdvisory (n : Notice) : Bool := n.severity == .error && n.message == advisory

theorem head?_append {opening : String} {c : Char} (rest : String)
    (h : opening.toList.head? = some c) : (opening ++ rest).toList.head? = some c := by
  rw [String.toList_append, List.head?_append, h, Option.some_or]

theorem head?_advisory : advisory.toList.head? = some 'I' :=
  head?_append _ (head?_append _ (head?_append _ (by decide +kernel)))

theorem ne_advisory_of_head? {message : String} {c : Char} (h : message.toList.head? = some c)
    (hc : c ≠ 'I') : message ≠ advisory := by
  rintro rfl
  exact hc (Option.some.inj (h.symm.trans head?_advisory))

theorem head?_framedError (template : String) (r : Report) :
    (framedError template r).toList.head? = some 'E' :=
  head?_append _ (head?_append _ (head?_append _ (by decide +kernel)))

theorem head?_listedErrors (template : String) (errors : List Report) :
    (listedErrors template errors).toList.head? = some 'E' :=
  head?_append _ (head?_append _ (head?_append _ (head?_append _ (by decide +kernel))))

theorem ne_advisory_of_mem_errorMessages {givePositions : Bool} {template message : String}
    {errors : List Report} (h : message ∈ errorMessages givePositions template errors) :
    message ≠ advisory := by
  unfold errorMessages at h
  split at h
  · obtain ⟨report, -, rfl⟩ := List.mem_map.1 h
    exact ne_advisory_of_head? (head?_framedError _ _) (by decide)
  · split at h
    · cases h
    · rw [List.mem_singleton.1 h]
      exact ne_advisory_of_head? (head?_listedErrors _ _) (by decide)

theorem ne_advisory_of_mem_failureMessages {errors : List Report} {failed : List Failed}
    {message : String} (h : message ∈ failureMessages errors failed) : message ≠ advisory := by
  unfold failureMessages at h
  split at h
  · rw [List.mem_singleton.1 h]
    exact ne_advisory_of_head? (head?_append _ (show _ = some 'F' by decide +kernel)) (by decide)
  · cases h

/-- What a compile gives rise to is told in other words than the advisory, or as a tip. -/
theorem isAdvisory_of_mem_messages {givePositions : Bool} {template : String} {compiled : Compiled}
    {failed : List Failed} (setup : Setup) (r : Request) {said : Severity × String}
    (h : said ∈ messages givePositions template compiled failed) :
    (setup.notice r said).isAdvisory = false := by
  rw [messages, List.mem_append, List.mem_append] at h
  rcases h with (h | h) | h
  · obtain ⟨message, hmessage, rfl⟩ := List.mem_map.1 h
    simpa [Notice.isAdvisory, Setup.notice] using ne_advisory_of_mem_errorMessages hmessage
  · obtain ⟨report, -, rfl⟩ := List.mem_map.1 h
    simp [Notice.isAdvisory, Setup.notice]
  · obtain ⟨message, hmessage, rfl⟩ := List.mem_map.1 h
    simpa [Notice.isAdvisory, Setup.notice] using ne_advisory_of_mem_failureMessages hmessage

theorem isAdvisory_of_mem_produce {setup : Setup} {r : Request} {n : Notice}
    (h : n ∈ (produce setup r).2) : n.isAdvisory = false := by
  obtain ⟨said, hsaid, rfl⟩ := List.mem_map.1 h
  exact isAdvisory_of_mem_messages setup r hsaid

theorem isAdvisory_of_mem_probe {setup : Setup} {r : Request} {n : Notice}
    (h : n ∈ probe setup r) : n.isAdvisory = true := by
  unfold probe at h
  split at h
  · rw [List.mem_singleton.1 h]
    simp [Notice.isAdvisory, Setup.notice]
  · cases h

theorem Operation.length_advice_le (setup : Setup) (probed : Bool) (op : Operation) :
    (op.advice setup probed).length ≤ if !probed && op.isCall then 1 else 0 := by
  cases op with
  | call r =>
    cases probed with
    | true => simp [advice]
    | false =>
      rw [advice, if_neg Bool.false_ne_true, isCall, probe]
      split <;> simp
  | put key f => simp [advice]
  | get key => simp [advice]

section

variable (setup : Setup) (s : State)

theorem Operation.filter_isAdvisory_advice (probed : Bool) (op : Operation) :
    (op.advice setup probed).filter Notice.isAdvisory = op.advice setup probed := by
  refine List.filter_eq_self.2 fun n hn => ?_
  unfold advice at hn
  split at hn
  · split at hn
    · cases hn
    · exact isAdvisory_of_mem_probe hn
  · cases hn
  · cases hn

/-- Nothing that is said is the advisory, but where it is due. -/
theorem Operation.filter_isAdvisory_perform (op : Operation) :
    (op.perform setup s).notices.filter Notice.isAdvisory = op.advice setup s.probed := by
  have hadvice := op.filter_isAdvisory_advice setup s.probed
  cases op with
  | call r =>
    cases h : s.store.find? r.key with
    | some found =>
      rw [Operation.perform, State.functions_of_find?_eq_some setup s h]
      exact hadvice
    | none =>
      have hrest : (produce setup r).2.filter Notice.isAdvisory = [] :=
        List.filter_eq_nil_iff.2 fun n hn => by simp [isAdvisory_of_mem_produce hn]
      rw [Operation.perform, State.functions_of_find?_eq_none setup s h]
      rw [advice] at hadvice ⊢
      simp only [List.filter_append, hadvice, hrest, List.append_nil]
  | put key f => rfl
  | get key => rfl

theorem State.length_filter_isAdvisory_said (ops : List Operation) :
    ((s.said setup ops).filter Notice.isAdvisory).length ≤ if s.probed then 0 else 1 := by
  induction ops generalizing s with
  | nil => simp [State.said]
  | cons op ops ih =>
    have hfirst := op.length_advice_le setup s.probed
    have hrest := ih (op.perform setup s).state
    rw [op.perform_probed setup s] at hrest
    rw [State.said, List.filter_append, List.length_append, op.filter_isAdvisory_perform setup s]
    refine (Nat.add_le_add hfirst hrest).trans ?_
    cases s.probed <;> cases op.isCall <;> decide

end

/-! ### The history of a session -/

/-- An operation in the midst of others. Entries keep their numbers for good. Whoever offers an
entry is answered with the one under its key, the first that was offered, and `get` with the one
that is there, if any. There are as many entries as keys for which one was offered. A call whose
key has an entry goes the same way with any compiler and says nothing but the advisory, which only
the first call says, and only once. -/
theorem store_keeps_first_entries (setup : Setup) (before : List Operation) (op : Operation)
    (more : List Operation) :
    let s := State.after setup {} before
    let o := op.perform setup s
    let later := State.after setup {} (before ++ op :: more)
    (∀ n key f, s.store.Holds n key f → later.store.Holds n key f) ∧
    (∀ key f, op.offer? setup = some (key, f) →
      ∃ n found, o.answer = some found ∧ found = (s.store.find? key).getD f ∧
        o.state.store.Holds n key found ∧ later.store.Holds n key found) ∧
    (∀ key, op = .get key →
      (∀ found, o.answer = some found ↔ ∃ n, s.store.Holds n key found) ∧ o.state = s) ∧
    s.store.size = (before.filterMap Operation.stored?).toFinset.card ∧
    (∀ key, (∃ n found, s.store.Holds n key found) ↔ key ∈ before.filterMap Operation.stored?) ∧
    (∀ r n found, op = .call r → s.store.Holds n r.key found →
      (∀ compiler, op.perform { setup with compiler } s = o) ∧
      o.notices = op.advice setup (before.any Operation.isCall)) ∧
    o.notices.filter Notice.isAdvisory = op.advice setup (before.any Operation.isCall) ∧
    ((State.said setup {} (before ++ op :: more)).filter Notice.isAdvisory).length ≤ 1 := by
  intro s o later
  have hlater : later = o.state.after setup more := by
    rw [show later = _ from State.after_append setup {} before (op :: more), State.after_cons]
  have hprobed : s.probed = before.any Operation.isCall := by
    rw [State.probed_after, Bool.false_or]
  have hempty : Store.HasKeys {} [] := ⟨fun key => by simp [Store.find?], rfl⟩
  have hkeys : s.store.HasKeys (before.filterMap Operation.stored?) :=
    State.hasKeys_after setup {} before hempty
  have hgrows : o.state.store.entries <+: later.store.entries := by
    rw [hlater]
    exact State.entries_prefix_after setup o.state more
  refine ⟨?_, ?_, ?_, hkeys.2, ?_, ?_, ?_, ?_⟩
  · intro n key f h
    exact h.of_prefix ((op.entries_prefix_perform setup s).trans hgrows)
  · intro key f hoffer
    have hfind : o.state.store.find? key = some ((s.store.find? key).getD f) := by
      rw [op.perform_store setup s, hoffer, Option.elim_some, Store.find?_insert_self]
    obtain ⟨n, hn⟩ := (Store.find?_eq_some_iff _ _ _).1 hfind
    exact ⟨n, _, op.perform_answer setup s hoffer, rfl, hn, hn.of_prefix hgrows⟩
  · rintro key rfl
    exact ⟨fun found => s.store.find?_eq_some_iff key found, rfl⟩
  · intro key
    rw [← hkeys.1 key, Option.isSome_iff_exists, exists_comm]
    exact exists_congr fun found => (s.store.find?_eq_some_iff key found).symm
  · rintro r n found rfl hholds
    have hfind := (s.store.find?_eq_some_iff r.key found).2 ⟨n, hholds⟩
    constructor
    · intro compiler
      change Operation.perform _ s _ = Operation.perform setup s _
      rw [Operation.perform, Operation.perform, State.functions_of_find?_eq_some setup s hfind,
        State.functions_of_find?_eq_some { setup with compiler } s hfind]
      rfl
    · change (Operation.perform setup s _).notices = _
      rw [Operation.perform, State.functions_of_find?_eq_some setup s hfind, hprobed]
      rfl
  · rw [← hprobed]
    exact op.filter_isAdvisory_perform setup s
  · exact State.length_filter_isAdvisory_said setup {} _

end HtmlTemplate.Session
