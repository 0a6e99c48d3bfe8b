/-
# Dicts

A dict is a list of entries in insertion order whose keys are pairwise
unequal.  Inserting an equal key keeps the key that is there and its place and
replaces the value, so the first of two equal keys is the one that stays.
-/

import CapLisp.Value.Comparison

namespace CapLisp

/-- The entries of a dict, in insertion order. -/
abbrev Dict := List (Value × Value)

namespace Dict

/-- The value of the first entry whose key equals `key`. -/
def find? (key : Value) : Dict → Option Value
  | [] => none
  | (other, value) :: rest => if key == other then some value else find? key rest

/-- Binds `key`: an equal key keeps its place, a new one comes last. -/
def insert (key value : Value) : Dict → Dict
  | [] => [(key, value)]
  | (other, old) :: rest =>
    if key == other then (other, value) :: rest else (other, old) :: insert key value rest

/-- The dict that results from inserting the entries in turn. -/
def ofEntries (entries : List (Value × Value)) : Dict :=
  entries.foldl (fun dict entry => insert entry.1 entry.2 dict) []

/-- A flat list of keys and values as entries; a key left over is dropped. -/
def pairs : List Value → List (Value × Value)
  | key :: value :: rest => (key, value) :: pairs rest
  | _ => []

/-- Inserting adds an entry unless an equal key is there. -/
theorem length_insert (key value : Value) (dict : Dict) :
    (insert key value dict).length =
      if (find? key dict).isSome then dict.length else dict.length + 1 := by
  induction dict with
  | nil => simp [insert, find?]
  | cons entry rest ih =>
    obtain ⟨other, old⟩ := entry
    by_cases h : key == other
    · simp [insert, find?, h]
    · simp only [insert, find?, h, Bool.false_eq_true, ↓reduceIte, List.length_cons, ih]
      split <;> rfl

end Dict
end CapLisp
