/-
# Sequences

Lists, vectors and strings share one view: a list of elements and a way back
from elements to a value of the same kind.  The elements of a string are its
characters, each as a string of its own.

Each kind takes a part in its own way.

| kind | how a part is taken |
| --- | --- |
| list | cell by cell to the start, then as many as asked for, if there were as many |
| vector | the range, if it fits |
| string | the count of the characters first, then the range among them |

All of them come to the same part (`sliceList?_eq`, `sliceText?_eq`).
-/

import CapLisp.Value.Basic

namespace CapLisp

/-- A sequence of one of the three kinds. -/
inductive Sequence where
  | list (items : List Value)
  | vector (items : List Value)
  | text (characters : List Char)

/-- The part of `xs` from `start` to before `stop`, if that range fits. -/
def slice? {α : Type} (xs : List α) (start stop : Nat) : Option (List α) :=
  if start ≤ stop ∧ stop ≤ xs.length then some ((xs.drop start).take (stop - start)) else none

/-- What is behind the first `n` elements, if there are as many. -/
def dropFront? {α : Type} : (n : Nat) → List α → Option (List α)
  | 0, xs => some xs
  | _ + 1, [] => none
  | n + 1, _ :: xs => dropFront? n xs

/-- The part of a list that is walked to from the front; without `stop` it is
all that is behind `start`. -/
def sliceList? {α : Type} (xs : List α) (start : Nat) (stop : Option Nat) : Option (List α) := do
  let tail ← dropFront? start xs
  match stop with
  | none => some tail
  | some stop =>
    if stop < start then none
    else
      let taken := tail.take (stop - start)
      if taken.length = stop - start then some taken else none

/-- The part of a text whose characters are counted first. -/
def sliceText? {α : Type} (xs : List α) (start : Nat) (stop : Option Nat) : Option (List α) :=
  let stop := stop.getD xs.length
  if stop < start ∨ xs.length < stop then none else some ((xs.drop start).take (stop - start))

/-- Dropping from the front succeeds as long as there are enough elements. -/
theorem dropFront?_eq {α : Type} (n : Nat) (xs : List α) :
    dropFront? n xs = if n ≤ xs.length then some (xs.drop n) else none := by
  induction n generalizing xs with
  | zero => simp [dropFront?]
  | succ n ih =>
    cases xs with
    | nil => simp [dropFront?]
    | cons x xs => simp [dropFront?, ih]

/-- The loop over a list cuts out the slice between the two positions. -/
theorem sliceList?_eq {α : Type} (xs : List α) (start : Nat) (stop : Option Nat) :
    sliceList? xs start stop = slice? xs start (stop.getD xs.length) := by
  by_cases hstart : start ≤ xs.length
  · cases stop with
    | none =>
      have hall : (xs.drop start).take (xs.length - start) = xs.drop start :=
        List.take_of_length_le (Nat.le_of_eq List.length_drop)
      simp only [sliceList?, slice?, dropFront?_eq, hstart, ↓reduceIte, Option.getD_none,
        Nat.le_refl, and_self, hall]
      rfl
    | some stop =>
      simp only [sliceList?, slice?, dropFront?_eq, hstart, ↓reduceIte, Option.getD_some,
        bind, Option.bind, List.length_take, List.length_drop]
      split
      · rw [if_neg (by omega)]
      · split
        · rw [if_pos (by omega)]
        · rw [if_neg (by omega)]
  · rw [slice?, if_neg (by omega), sliceList?, dropFront?_eq, if_neg hstart]
    rfl

/-- The loop over the characters cuts out the slice between the two positions. -/
theorem sliceText?_eq {α : Type} (xs : List α) (start : Nat) (stop : Option Nat) :
    sliceText? xs start stop = slice? xs start (stop.getD xs.length) := by
  simp only [sliceText?, slice?]
  split
  · rw [if_neg (by omega)]
  · rw [if_pos (by omega)]

namespace Sequence

/-- The one-character string that stands for a character of a string. -/
def ofChar (c : Char) : Value := .string (String.singleton c)

/-- The elements of a sequence. -/
def elements : Sequence → List Value
  | list items => items
  | vector items => items
  | text characters => characters.map ofChar

/-- The number of elements. -/
def length : Sequence → Nat
  | list items => items.length
  | vector items => items.length
  | text characters => characters.length

/-- The element at a position, counted from zero. -/
def nth? (index : Nat) : Sequence → Option Value
  | list items => items[index]?
  | vector items => items[index]?
  | text characters => characters[index]?.map ofChar

/-- The part from `start` to before `stop`, as a value of the same kind; without
`stop` it goes through the end. -/
def slice? (start : Nat) (stop : Option Nat) (s : Sequence) : Option Value :=
  match s with
  | list items => (sliceList? items start stop).map .list
  | vector items => (CapLisp.slice? items start (stop.getD items.length)).map .vector
  | text characters =>
    (sliceText? characters start stop).map fun part => .string (String.ofList part)

/-- The length of a sequence is the number of its elements. -/
theorem length_elements (s : Sequence) : s.elements.length = s.length := by
  cases s <;> simp [elements, length]

/-- The element at a position is the one that `nth?` gives. -/
theorem getElem?_elements (s : Sequence) (index : Nat) :
    s.elements[index]? = s.nth? index := by
  cases s <;> simp [elements, nth?]

end Sequence

/-- The sequence that a list, vector or string is. -/
def Value.sequence? : Value → Option Sequence
  | .list items => some (.list items)
  | .vector items => some (.vector items)
  | .string text => some (.text text.toList)
  | _ => none

end CapLisp
