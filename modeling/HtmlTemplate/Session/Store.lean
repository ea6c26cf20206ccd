import HtmlTemplate.Code.Procedure
import HtmlTemplate.Template.Interpolation

/-!
# The store of procedures

What was compiled is kept under a key that is made of the template and, if the call chose
delimiters, of these. An entry is never removed or replaced; its place in the store is its number.
-/

namespace HtmlTemplate.Session

open Template (Delimiters)
open Code (Functions)

/-- The key of a template compiled with the delimiters that a call chose. -/
def key (template : String) (delimiters : Option Delimiters) : String :=
  match delimiters with
  | some d => d.display ++ template
  | none => template

/-- Entries in the order in which they came. -/
structure Store where
  entries : List (String × Functions) := []
  deriving Repr, Inhabited

namespace Store

def find? (s : Store) (key : String) : Option Functions := s.entries.lookup key

def size (s : Store) : Nat := s.entries.length

/-- The number of the entry under a key. -/
def number? (s : Store) (key : String) : Option Nat := s.entries.findIdx? (·.1 == key)

/-- The entry of a number. -/
def entry? (s : Store) (n : Nat) : Option Functions := (s.entries[n]?).map Prod.snd

/-- Adds an entry, unless there is one under the key. -/
def insert (s : Store) (key : String) (f : Functions) : Store :=
  match s.find? key with
  | some _ => s
  | none => ⟨s.entries ++ [(key, f)]⟩

theorem insert_of_find?_eq_some {s : Store} {key : String} {found : Functions}
    (h : s.find? key = some found) (f : Functions) : s.insert key f = s := by
  simp [insert, h]

theorem insert_of_find?_eq_none {s : Store} {key : String} (h : s.find? key = none)
    (f : Functions) : s.insert key f = ⟨s.entries ++ [(key, f)]⟩ := by
  simp [insert, h]

/-- The key has an entry then: the one that was there, else the new one. -/
theorem find?_insert_self (s : Store) (key : String) (f : Functions) :
    (s.insert key f).find? key = some ((s.find? key).getD f) := by
  cases h : s.find? key with
  | some found => rw [insert_of_find?_eq_some h, h, Option.getD_some]
  | none =>
    rw [insert_of_find?_eq_none h]
    rw [find?] at h
    simp [find?, List.lookup_append, h]

theorem find?_insert_of_ne (s : Store) {key other : String} (hne : other ≠ key) (f : Functions) :
    (s.insert key f).find? other = s.find? other := by
  cases h : s.find? key with
  | some found => rw [insert_of_find?_eq_some h]
  | none =>
    have hbeq : (other == key) = false := beq_eq_false_iff_ne.mpr hne
    rw [insert_of_find?_eq_none h]
    simp [find?, List.lookup_append, List.lookup_cons, hbeq]

theorem size_insert (s : Store) (key : String) (f : Functions) :
    (s.insert key f).size = if (s.find? key).isSome then s.size else s.size + 1 := by
  cases h : s.find? key with
  | some found => simp [insert_of_find?_eq_some h]
  | none => simp [insert_of_find?_eq_none h, size]

end Store

end HtmlTemplate.Session
