/-
# Bindings

The bindings are what evaluation reads and changes: the environment, the
reference store and the supply of serial numbers for closures.  They hold no
capability; which primitives are reachable is a matter of the table that an
evaluation runs under.

A state is the part of the bindings that a value can hold.  `toState` takes a
snapshot with a frozen environment, `intoState` hands over the environment in
its own variant.
-/

import CapLisp.Store
import CapLisp.Value.Basic

namespace CapLisp

/-- What evaluation works on: the environment, the reference store and the next
free serial number of a closure. -/
structure Bindings where
  env : Env Value
  refs : Store Value
  fresh : Nat

namespace Bindings

/-- Bindings without names and slots. -/
def empty : Bindings := ⟨Env.empty, [], 0⟩

/-- Binds a name in the environment. -/
def define (name : String) (value : Value) (b : Bindings) : Bindings :=
  { b with env := b.env.define name value }

/-- The state as a value can hold it: the environment frozen, the store copied. -/
def toState (b : Bindings) : State Value := ⟨.persistent b.env.freeze, b.refs⟩

/-- The state itself, with the environment in its variant. -/
def intoState (b : Bindings) : State Value := ⟨b.env, b.refs⟩

/-- Bindings that continue from a state, with serial numbers from `fresh` on. -/
def ofState (s : State Value) (fresh : Nat) : Bindings := ⟨s.env, s.refs, fresh⟩

end Bindings

end CapLisp
