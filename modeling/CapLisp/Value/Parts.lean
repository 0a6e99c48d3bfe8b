/-
# What stands directly inside a value

The parts of a value are its elements, its keys and values, the code and the
scope of a closure, the frames of an environment (shadowed ones included) and
the slots of a state.  Every part is smaller than the value it stands in
(`size_lt_of_mem_parts`), so taking parts again and again comes to an end.
-/

import CapLisp.Value.Basic

namespace CapLisp
namespace Value

/-- The keys and values of entries, in order. -/
def entryParts : List (Value × Value) → List Value
  | [] => []
  | (key, value) :: rest => key :: value :: entryParts rest

/-- The parts of a closure: its code and the values in its scope. -/
def closureParts (fn : Closure Value) : List Value := fn.bodies ++ fn.scope.map (·.2)

/-- The parts of a value. -/
def parts : Value → List Value
  | list items => items
  | vector items => items
  | dict entries => entryParts entries
  | lambda fn => closureParts fn
  | lambdaRec _ fn => closureParts fn
  | env e => e.values
  | state s => s.env.values ++ s.refs
  | _ => []

mutual

/-- The number of values in a value, itself included. -/
def size : Value → Nat
  | list items => sizeAll items + 1
  | vector items => sizeAll items + 1
  | dict entries => sizeEntries entries + 1
  | lambda fn => sizeClosure fn + 1
  | lambdaRec _ fn => sizeClosure fn + 1
  | env e => sizeEnv e + 1
  | state s => sizeState s + 1
  | _ => 1
termination_by structural v => v

/-- The number of values in the elements. -/
def sizeAll : List Value → Nat
  | [] => 0
  | item :: rest => size item + sizeAll rest
termination_by structural items => items

/-- The number of values in the entries. -/
def sizeEntries : List (Value × Value) → Nat
  | [] => 0
  | (key, value) :: rest => size key + (size value + sizeEntries rest)
termination_by structural entries => entries

/-- The number of values in the frames. -/
def sizeFrames : List (String × Value) → Nat
  | [] => 0
  | (_, value) :: rest => size value + sizeFrames rest
termination_by structural frames => frames

/-- The number of values in the code and the scope of a closure. -/
def sizeClosure : Closure Value → Nat
  | ⟨_, _, bodies, scope⟩ => sizeAll bodies + sizeFrames scope
termination_by structural fn => fn

/-- The number of values in an environment. -/
def sizeEnv : Env Value → Nat
  | .persistent frames => sizeFrames frames
  | .mutable bindings => sizeFrames bindings
termination_by structural e => e

/-- The number of values in a state. -/
def sizeState : State Value → Nat
  | ⟨e, refs⟩ => sizeEnv e + sizeAll refs
termination_by structural s => s

end

/-- The sizes of two lists add up. -/
theorem sizeAll_append (vs ws : List Value) : sizeAll (vs ++ ws) = sizeAll vs + sizeAll ws := by
  induction vs with
  | nil => simp [sizeAll]
  | cons v vs ih => simp [sizeAll, ih, Nat.add_assoc]

/-- Keys and values together have the size of their entries. -/
theorem sizeAll_entryParts (entries : List (Value × Value)) :
    sizeAll (entryParts entries) = sizeEntries entries := by
  induction entries with
  | nil => simp [entryParts, sizeAll, sizeEntries]
  | cons entry rest ih => simp [entryParts, sizeAll, sizeEntries, ih]

/-- The values of frames together have the size of the frames. -/
theorem sizeAll_frames (frames : List (String × Value)) :
    sizeAll (frames.map (·.2)) = sizeFrames frames := by
  induction frames with
  | nil => simp [sizeAll, sizeFrames]
  | cons frame rest ih => simp [sizeAll, sizeFrames, ih]

/-- The parts of a closure together have its size. -/
theorem sizeAll_closureParts (fn : Closure Value) :
    sizeAll (closureParts fn) = sizeClosure fn := by
  obtain ⟨_, _, bodies, scope⟩ := fn
  simp [closureParts, sizeClosure, sizeAll_append, sizeAll_frames]

/-- The values of an environment together have its size. -/
theorem sizeAll_values (e : Env Value) : sizeAll e.values = sizeEnv e := by
  cases e <;> simp [Env.values, sizeEnv, sizeAll_frames]

/-- **The parts are smaller than the whole**, even taken together. -/
theorem sizeAll_parts_lt (v : Value) : sizeAll v.parts < v.size := by
  cases v with
  | state s =>
    obtain ⟨e, refs⟩ := s
    simp [parts, size, sizeState, sizeAll_append, sizeAll_values]
  | _ =>
    simp [parts, size, sizeAll, sizeAll_entryParts, sizeAll_closureParts, sizeAll_values]

/-- One of several values is no larger than all of them together. -/
theorem size_le_sizeAll {v : Value} {vs : List Value} (h : v ∈ vs) : v.size ≤ sizeAll vs := by
  induction vs with
  | nil => simp at h
  | cons w ws ih =>
    rw [sizeAll]
    rcases List.mem_cons.1 h with rfl | h
    · omega
    · have := ih h
      omega

/-- A part is smaller than the value it stands in. -/
theorem size_lt_of_mem_parts {v w : Value} (h : w ∈ v.parts) : w.size < v.size :=
  Nat.lt_of_le_of_lt (size_le_sizeAll h) (sizeAll_parts_lt v)

end Value
end CapLisp
