/-
# The reference store

The store is a list of slots.  A new slot gets the next index, so indices grow
from zero without gaps and no slot is ever removed.  An index is a 64-bit word.
-/

namespace CapLisp

/-- The slots of a reference store, by index. -/
abbrev Store (α : Type) := List α

namespace Store

variable {α : Type}

/-- The store with one more slot, and the index of that slot. -/
def insert (value : α) (store : Store α) : Store α × UInt64 :=
  (store ++ [value], UInt64.ofNat store.length)

/-- The value of a slot. -/
def get? (index : UInt64) (store : Store α) : Option α := store[index.toNat]?

/-- Writes a slot that exists; the old value comes with the new store. -/
def set? (index : UInt64) (value : α) (store : Store α) : Option (α × Store α) :=
  (get? index store).map fun old => (old, List.set store index.toNat value)

/-- The slots with their indices. -/
def slots (store : Store α) : List (UInt64 × α) :=
  store.mapIdx fun index value => (UInt64.ofNat index, value)

/-- A new slot makes the store longer by one. -/
theorem length_insert (value : α) (store : Store α) :
    (insert value store).1.length = store.length + 1 := by
  simp [insert]

/-- Writing a slot keeps the length of the store. -/
theorem length_set? {index : UInt64} {value old : α} {store store' : Store α}
    (h : set? index value store = some (old, store')) : store'.length = store.length := by
  obtain ⟨_, _, h⟩ := Option.map_eq_some_iff.1 h
  obtain ⟨_, rfl⟩ := Prod.mk.inj h
  simp

end Store
end CapLisp
