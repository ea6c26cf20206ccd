/-!
# Ordered maps

Maps from texts, kept in the order of their keys by code points. Every key occurs once; putting a
key again replaces its value.
-/

namespace HtmlTemplate

abbrev OrderedMap (α : Type) := List (String × α)

namespace OrderedMap

variable {α : Type}

def find? (m : OrderedMap α) (key : String) : Option α := List.lookup key m

def insert (key : String) (value : α) : OrderedMap α → OrderedMap α
  | [] => [(key, value)]
  | (k, v) :: rest =>
    if k < key then (k, v) :: insert key value rest
    else if k == key then (key, value) :: rest
    else (key, value) :: (k, v) :: rest

/-- Puts the entries of a list one after the other, so that the last of a key stays. -/
def insertAll (entries : List (String × α)) (m : OrderedMap α) : OrderedMap α :=
  entries.foldl (fun m entry => m.insert entry.1 entry.2) m

def ofList (entries : List (String × α)) : OrderedMap α := insertAll entries []

def keys (m : OrderedMap α) : List String := m.map Prod.fst

theorem find?_insert (m : OrderedMap α) (key : String) (value : α) (other : String) :
    (m.insert key value).find? other = if other = key then some value else m.find? other := by
  induction m with
  | nil =>
    by_cases h : other = key
    · simp [insert, find?, h]
    · have hne : (other == key) = false := beq_eq_false_iff_ne.mpr h
      simp [insert, find?, List.lookup_cons, hne, h]
  | cons entry rest ih =>
    obtain ⟨k, v⟩ := entry
    unfold insert
    by_cases hlt : k < key
    · rw [if_pos hlt]
      by_cases hk : other = k
      · have hne : other ≠ key := by
          intro h
          rw [← hk, h] at hlt
          exact String.lt_irrefl key hlt
        simp [find?, hk, hk ▸ hne]
      · have hbeq : (other == k) = false := beq_eq_false_iff_ne.mpr hk
        simpa [find?, List.lookup_cons, hbeq] using ih
    · rw [if_neg hlt]
      by_cases hk : k = key
      · subst hk
        by_cases h : other = k
        · simp [find?, h]
        · have hbeq : (other == k) = false := beq_eq_false_iff_ne.mpr h
          simp [find?, List.lookup_cons, hbeq, h]
      · have hbeq : (k == key) = false := beq_eq_false_iff_ne.mpr hk
        rw [if_neg (by simp [hbeq])]
        by_cases h : other = key
        · simp [find?, h]
        · have hne : (other == key) = false := beq_eq_false_iff_ne.mpr h
          simp [find?, List.lookup_cons, hne, h]

/-- What is found after some entries were put is one of them or was there before. -/
theorem find?_insertAll_cases {entries : List (String × α)} {m : OrderedMap α} {key : String}
    {value : α} (h : (insertAll entries m).find? key = some value) :
    (∃ entry ∈ entries, entry.2 = value) ∨ m.find? key = some value := by
  induction entries generalizing m with
  | nil => exact .inr h
  | cons first more ih =>
    obtain ⟨entry, hentry, hvalue⟩ | hfound := ih h
    · exact .inl ⟨entry, List.mem_cons_of_mem _ hentry, hvalue⟩
    · rw [find?_insert] at hfound
      split at hfound
      · exact .inl ⟨first, List.mem_cons_self, Option.some.inj hfound⟩
      · exact .inr hfound

theorem mem_keys_insert {m : OrderedMap α} {key other : String} {value : α} :
    other ∈ (m.insert key value).keys ↔ other = key ∨ other ∈ m.keys := by
  induction m with
  | nil => simp [insert, keys]
  | cons entry rest ih =>
    obtain ⟨k, v⟩ := entry
    unfold insert
    split
    · simp only [keys, List.map_cons, List.mem_cons] at ih ⊢
      rw [ih, or_left_comm]
    · split
      · next heq => simp [keys, eq_of_beq heq]
      · simp [keys]

theorem mem_keys_insertAll {entries : List (String × α)} {m : OrderedMap α} {key : String} :
    key ∈ (insertAll entries m).keys ↔ key ∈ entries.map Prod.fst ∨ key ∈ m.keys := by
  induction entries generalizing m with
  | nil => simp [insertAll]
  | cons first more ih =>
    have hstep := ih (m := m.insert first.1 first.2)
    rw [mem_keys_insert] at hstep
    rw [List.map_cons, List.mem_cons, or_assoc, or_left_comm]
    exact hstep

end OrderedMap

/-- The members of a list of texts, each once, in order. -/
def orderedSet (members : List String) : List String :=
  (OrderedMap.ofList (members.map fun m => (m, ()))).keys

theorem mem_orderedSet {members : List String} {text : String} :
    text ∈ orderedSet members ↔ text ∈ members := by
  rw [orderedSet, OrderedMap.ofList, OrderedMap.mem_keys_insertAll]
  simp [OrderedMap.keys, Function.comp_def]

end HtmlTemplate
