/-
# Where a closure is still held

`holds serial v` tells whether the closure with the given serial number is
`v` or stands somewhere inside it: in a part, or in a part of a part, and so on.

A closure is built after everything in its code and its scope, so its serial
number is larger than every one inside it.  The search looks into a closure
only if its number is larger than the one sought.  A recursive closure is no
longer the plain closure it was made of, so it does not count as holding
itself.
-/

import CapLisp.Value.Parts

namespace CapLisp
namespace Value

mutual

/-- Tells whether the closure numbered `serial` is, or stands inside, a value. -/
def holds (serial : Nat) : Value → Bool
  | list items => holdsAny serial items
  | vector items => holdsAny serial items
  | dict entries => holdsEntry serial entries
  | lambda fn => fn.serial == serial || holdsClosure serial fn
  | lambdaRec _ fn => holdsClosure serial fn
  | env e => holdsEnv serial e
  | state s => holdsState serial s
  | _ => false
termination_by structural v => v

/-- Tells whether the closure stands in one of the values. -/
def holdsAny (serial : Nat) : List Value → Bool
  | [] => false
  | item :: rest => holds serial item || holdsAny serial rest
termination_by structural items => items

/-- Tells whether the closure stands in a key or value of one of the entries. -/
def holdsEntry (serial : Nat) : List (Value × Value) → Bool
  | [] => false
  | (key, value) :: rest => holds serial key || holds serial value || holdsEntry serial rest
termination_by structural entries => entries

/-- Tells whether the closure stands in one of the frames. -/
def holdsFrame (serial : Nat) : List (String × Value) → Bool
  | [] => false
  | (_, value) :: rest => holds serial value || holdsFrame serial rest
termination_by structural frames => frames

/-- Tells whether the closure stands in the code or the scope of a later one. -/
def holdsClosure (serial : Nat) : Closure Value → Bool
  | ⟨own, _, bodies, scope⟩ =>
    serial < own && (holdsAny serial bodies || holdsFrame serial scope)
termination_by structural fn => fn

/-- Tells whether the closure stands in an environment. -/
def holdsEnv (serial : Nat) : Env Value → Bool
  | .persistent frames => holdsFrame serial frames
  | .mutable bindings => holdsFrame serial bindings
termination_by structural e => e

/-- Tells whether the closure stands in a state. -/
def holdsState (serial : Nat) : State Value → Bool
  | ⟨e, refs⟩ => holdsEnv serial e || holdsAny serial refs
termination_by structural s => s

end

/-- Tells whether a value is the plain closure numbered `serial`. -/
def isClosure (serial : Nat) : Value → Bool
  | lambda fn => fn.serial == serial
  | _ => false

/-- The parts of a value that the closure can stand in: none of those of a
closure that is not later. -/
def laterParts (serial : Nat) : Value → List Value
  | lambda fn => if serial < fn.serial then closureParts fn else []
  | lambdaRec _ fn => if serial < fn.serial then closureParts fn else []
  | v => v.parts

/-- Elements hold a closure if one of them does. -/
theorem holdsAny_eq_any (serial : Nat) (items : List Value) :
    holdsAny serial items = items.any (holds serial) := by
  induction items with
  | nil => simp [holdsAny]
  | cons item rest ih => simp [holdsAny, ih]

/-- Entries hold a closure if a key or a value does. -/
theorem holdsEntry_eq_any (serial : Nat) (entries : List (Value × Value)) :
    holdsEntry serial entries = (entryParts entries).any (holds serial) := by
  induction entries with
  | nil => simp [holdsEntry, entryParts]
  | cons entry rest ih => simp [holdsEntry, entryParts, ih, Bool.or_assoc]

/-- Frames hold a closure if one of their values does. -/
theorem holdsFrame_eq_any (serial : Nat) (frames : List (String × Value)) :
    holdsFrame serial frames = (frames.map (·.2)).any (holds serial) := by
  induction frames with
  | nil => simp [holdsFrame]
  | cons frame rest ih => rw [holdsFrame, ih, List.map_cons, List.any_cons]

/-- A closure holds an older one if one of its parts does. -/
theorem holdsClosure_eq_any (serial : Nat) (fn : Closure Value) :
    holdsClosure serial fn =
      (if serial < fn.serial then closureParts fn else []).any (holds serial) := by
  obtain ⟨own, _, bodies, scope⟩ := fn
  by_cases h : serial < own <;>
    simp [holdsClosure, h, closureParts, holdsAny_eq_any, holdsFrame_eq_any]

/-- An environment holds a closure if one of its values does. -/
theorem holdsEnv_eq_any (serial : Nat) (e : Env Value) :
    holdsEnv serial e = e.values.any (holds serial) := by
  cases e <;> rw [holdsEnv, holdsFrame_eq_any] <;> rfl

/-- **A value holds a closure if it is the closure or a part holds it.** -/
theorem holds_eq (serial : Nat) (v : Value) :
    holds serial v = (v.isClosure serial || (v.laterParts serial).any (holds serial)) := by
  cases v with
  | state s =>
    obtain ⟨e, refs⟩ := s
    simp [holds, holdsState, holdsEnv_eq_any, holdsAny_eq_any, isClosure, laterParts, parts]
  | _ =>
    simp [holds, isClosure, laterParts, parts, holdsAny_eq_any, holdsEntry_eq_any,
      holdsClosure_eq_any, holdsEnv_eq_any]

/-- A closure that is not later is passed over as a whole. -/
theorem laterParts_eq_or (serial : Nat) (v : Value) :
    v.laterParts serial = v.parts ∨ v.laterParts serial = [] := by
  cases v with
  | lambda fn => by_cases h : serial < fn.serial <;> simp only [laterParts, parts, h] <;> simp
  | lambdaRec name fn =>
    by_cases h : serial < fn.serial <;> simp only [laterParts, parts, h] <;> simp
  | _ => exact Or.inl rfl

/-- The parts that are searched are among all parts. -/
theorem laterParts_subset (serial : Nat) (v : Value) : v.laterParts serial ⊆ v.parts := by
  rcases laterParts_eq_or serial v with h | h <;> simp [h]

/-- The parts that are searched are smaller together than the value. -/
theorem sizeAll_laterParts_lt (serial : Nat) (v : Value) :
    sizeAll (v.laterParts serial) < v.size := by
  have hlt := sizeAll_parts_lt v
  rcases laterParts_eq_or serial v with h | h <;> rw [h]
  · exact hlt
  · rw [sizeAll]
    omega

end Value
end CapLisp
