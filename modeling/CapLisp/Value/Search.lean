/-
# Searching for a closure

Values share their parts, so a search that visits every part of every part may
visit the same object over and over.  `search` keeps the values still to be
looked at in a list and the values already opened in a table by their address
in memory, and opens no object twice.

Why nothing is lost: whenever an opened value holds the closure, a smaller
value that still waits holds it, too (`Covered`).  Opening a value makes its
parts wait, and they are smaller.  So a value that was opened before can be
passed over, and once nothing waits, no opened value holds the closure.

The answer comes with the proof that it is the one of `holds`, so neither the
addresses nor what is shared is ever seen in an answer.
-/

import CapLisp.Value.Identity
import Std.Data.HashMap

namespace CapLisp
namespace Value

/-- Values by their address in memory. -/
abbrev Opened := Std.HashMap USize Value

/-- Whenever an opened value holds the closure, a smaller one among those that
wait does. -/
def Covered (serial : Nat) (opened : Opened) (waiting : List Value) : Prop :=
  ∀ (address : USize) (v : Value), opened[address]? = some v → holds serial v = true →
    ∃ w ∈ waiting, holds serial w = true ∧ w.size < v.size

/-- Tells whether a value can be passed over: it does not hold the closure, or
a smaller one among those that wait does. -/
def isSpare (serial : Nat) (waiting : List Value) (v : Value) : Bool :=
  !holds serial v || waiting.any fun w => holds serial w && decide (w.size < v.size)

/-- A value is spare if a smaller one that still waits holds the closure whenever it does. -/
theorem isSpare_iff {serial : Nat} {waiting : List Value} {v : Value} :
    isSpare serial waiting v = true ↔
      (holds serial v = true → ∃ w ∈ waiting, holds serial w = true ∧ w.size < v.size) := by
  cases h : holds serial v <;> simp [isSpare, h]

/-- With nothing visited yet there is nothing to cover. -/
theorem covered_empty (serial : Nat) (waiting : List Value) : Covered serial ∅ waiting := by
  intro address v h
  simp at h

/-- A value that was opened before can be passed over. -/
theorem Covered.isSpare {serial : Nat} {opened : Opened} {v : Value} {rest : List Value}
    {address : USize} (h : Covered serial opened (v :: rest)) (hv : opened[address]? = some v) :
    isSpare serial rest v = true := by
  rw [isSpare_iff]
  intro hold
  obtain ⟨w, hw, hwhold, hlt⟩ := h address v hv hold
  rcases List.mem_cons.1 hw with rfl | hw
  · omega
  · exact ⟨w, hw, hwhold, hlt⟩

/-- Passing over a spare value loses nothing. -/
theorem Covered.pass {serial : Nat} {opened : Opened} {v : Value} {rest : List Value}
    (h : Covered serial opened (v :: rest)) (hs : Value.isSpare serial rest v = true) :
    Covered serial opened rest := by
  intro address u hu hold
  obtain ⟨w, hw, hwhold, hlt⟩ := h address u hu hold
  rcases List.mem_cons.1 hw with rfl | hw
  · obtain ⟨x, hx, hxhold, hxlt⟩ := isSpare_iff.1 hs hwhold
    exact ⟨x, hx, hxhold, by omega⟩
  · exact ⟨w, hw, hwhold, hlt⟩

/-- A value other than the closure that holds it has a smaller part that does. -/
theorem exists_laterPart {serial : Nat} {v : Value} (hc : ¬ v.isClosure serial = true)
    (hold : holds serial v = true) :
    ∃ w ∈ v.laterParts serial, holds serial w = true ∧ w.size < v.size := by
  rw [holds_eq, Bool.or_eq_true, List.any_eq_true] at hold
  obtain ⟨w, hw, hwhold⟩ := hold.resolve_left hc
  exact ⟨w, hw, hwhold, size_lt_of_mem_parts (laterParts_subset serial v hw)⟩

/-- Opening a value loses nothing. -/
theorem Covered.insert {serial : Nat} {opened : Opened} {v : Value} {rest : List Value}
    (h : Covered serial opened (v :: rest)) (hc : ¬ v.isClosure serial = true)
    (address : USize) :
    Covered serial (opened.insert address v) (v.laterParts serial ++ rest) := by
  intro other u hu hold
  rw [Std.HashMap.getElem?_insert] at hu
  by_cases ha : address == other
  · simp only [ha, ↓reduceIte, Option.some.injEq] at hu
    subst hu
    obtain ⟨w, hw, hwhold, hlt⟩ := exists_laterPart hc hold
    exact ⟨w, List.mem_append_left _ hw, hwhold, hlt⟩
  · simp only [ha, Bool.false_eq_true, ↓reduceIte] at hu
    obtain ⟨w, hw, hwhold, hlt⟩ := h other u hu hold
    rcases List.mem_cons.1 hw with rfl | hw
    · obtain ⟨x, hx, hxhold, hxlt⟩ := exists_laterPart hc hwhold
      exact ⟨x, List.mem_append_left _ hx, hxhold, by omega⟩
    · exact ⟨w, List.mem_append_right _ hw, hwhold, hlt⟩

/-- A spare value can be passed over without losing a holder. -/
theorem any_pass {serial : Nat} {v : Value} {rest : List Value}
    (hs : isSpare serial rest v = true) :
    rest.any (holds serial) = (v :: rest).any (holds serial) := by
  rw [List.any_cons]
  cases hv : holds serial v with
  | false => rfl
  | true =>
    obtain ⟨w, hw, hwhold, _⟩ := isSpare_iff.1 hs hv
    rw [Bool.true_or, List.any_eq_true]
    exact ⟨w, hw, hwhold⟩

/-- A value that is not the closure itself can be replaced by its parts. -/
theorem any_laterParts {serial : Nat} {v : Value} {rest : List Value}
    (hc : ¬ v.isClosure serial = true) :
    (v.laterParts serial ++ rest).any (holds serial) = (v :: rest).any (holds serial) := by
  rw [List.any_append, List.any_cons, holds_eq serial v, eq_false_of_ne_true hc, Bool.false_or]

/-- A value that is not the closure and has no parts to search is spare. -/
theorem isSpare_of_isEmpty {serial : Nat} {v : Value} {rest : List Value}
    (hc : ¬ v.isClosure serial = true) (he : (v.laterParts serial).isEmpty = true) :
    isSpare serial rest v = true := by
  rw [List.isEmpty_iff] at he
  simp [isSpare, holds_eq serial v, hc, he]

/-- The answer to a question does not depend on how it is found. -/
theorem answer_unique {answer : Bool} (a b : { r : Bool // r = answer }) : a = b :=
  Subtype.ext (a.property.trans b.property.symm)

/-- Tells whether a value was opened before, given its address.  The answer is
the one that `isSpare` gives where the value is not the one in the table. -/
@[inline] def wasOpened (serial : Nat) (opened : Opened) (v : Value) (rest : List Value)
    (h : Covered serial opened (v :: rest)) (address : USize) :
    { b : Bool // b = true → isSpare serial rest v = true } :=
  match hu : opened[address]? with
  | some u =>
    ⟨withPtrEq v u (fun _ => isSpare serial rest v) (fun he => h.isSpare (he ▸ hu)), id⟩
  | none => ⟨false, nofun⟩

/-- Tells whether a value that waits holds the closure. -/
def search (serial : Nat) (opened : Opened) (waiting : List Value)
    (h : Covered serial opened waiting) : { found : Bool // found = waiting.any (holds serial) } :=
  match waiting, h with
  | [], _ => ⟨false, rfl⟩
  | v :: rest, h =>
    if hc : v.isClosure serial then
      ⟨true, by rw [List.any_cons, holds_eq serial v, hc]; rfl⟩
    else if he : (v.laterParts serial).isEmpty then
      have hs := isSpare_of_isEmpty hc he
      ⟨(search serial opened rest (h.pass hs)).val,
        (search serial opened rest (h.pass hs)).property.trans (any_pass hs)⟩
    else
      withPtrAddr v
        (fun address =>
          let before := wasOpened serial opened v rest h address
          if hb : before.val then
            have hs := before.property hb
            ⟨(search serial opened rest (h.pass hs)).val,
              (search serial opened rest (h.pass hs)).property.trans (any_pass hs)⟩
          else
            ⟨(search serial (opened.insert address v) (v.laterParts serial ++ rest)
                (h.insert hc address)).val,
              (search serial (opened.insert address v) (v.laterParts serial ++ rest)
                (h.insert hc address)).property.trans (any_laterParts hc)⟩)
        (fun _ _ => answer_unique _ _)
termination_by sizeAll waiting
decreasing_by
  all_goals
    have hpos := sizeAll_parts_lt v
    have hlt := sizeAll_laterParts_lt serial v
    simp only [sizeAll, sizeAll_append]
    omega

/-- Tells whether the closure numbered `serial` is, or stands inside, one of the values. -/
def isHeldBy (serial : Nat) (values : List Value) : Bool :=
  (search serial ∅ values (covered_empty serial values)).val

/-- **The search finds a holder exactly if there is one.** -/
theorem isHeldBy_eq (serial : Nat) (values : List Value) :
    isHeldBy serial values = values.any (holds serial) :=
  (search serial ∅ values (covered_empty serial values)).property

end Value
end CapLisp
