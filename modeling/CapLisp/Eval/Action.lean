/-
# Actions

An action reads and changes bindings and ends with a value or an error.  What
it changed before an error stays changed; undoing is the business of whoever
runs it.

Besides the bindings, an evaluation knows its context: the table of primitives
and the values that are held elsewhere while it runs, by callers, by operands
already evaluated and by the host.  The held values matter to one question
only, whether a closure is still reachable from somewhere else.
-/

import CapLisp.Bindings
import CapLisp.Error

namespace CapLisp

/-- A computation on bindings. -/
def Action (α : Type) : Type := Bindings → Except Error α × Bindings

namespace Action

variable {α β γ : Type}

/-- The outcome of an action and the bindings after it. -/
def run (x : Action α) (b : Bindings) : Except Error α × Bindings := x b

/-- Ends with a value and changes nothing. -/
protected def pure (a : α) : Action α := fun b => (.ok a, b)

/-- Goes on with the value of an action, on the bindings after it. -/
protected def bind (x : Action α) (next : α → Action β) : Action β := fun b =>
  match x b with
  | (.ok a, b') => next a b'
  | (.error e, b') => (.error e, b')

instance : Monad Action where
  pure := Action.pure
  bind := Action.bind

/-- Ends with an error and changes nothing. -/
def fail (e : Error) : Action α := fun b => (.error e, b)

/-- Ends with the given outcome and changes nothing. -/
def ofExcept (outcome : Except Error α) : Action α := fun b => (outcome, b)

/-- The outcome of an action as a value, so that an error does not end the run. -/
def outcome (x : Action α) : Action (Except Error α) := fun b =>
  let (result, b') := x b
  (.ok result, b')

/-- The bindings. -/
def get : Action Bindings := fun b => (.ok b, b)

/-- Changes the bindings. -/
def modify (f : Bindings → Bindings) : Action Unit := fun b => (.ok (), f b)

/-- Binds a name in the environment. -/
def define (name : String) (value : Value) : Action Unit := modify (·.define name value)

/-- Gives out the serial number of a new closure. -/
def nextSerial : Action Nat := fun b => (.ok b.fresh, { b with fresh := b.fresh + 1 })

/-- Runs an action in another environment and puts the old one back, whatever
the outcome.  What the action did to the store stays. -/
def within (env : Env Value) (x : Action α) : Action α := fun b =>
  let (outcome, b') := x { b with env := env }
  (outcome, { b' with env := b.env })

/-- Runs an action on a state of its own, which comes back with the value.  The
environment and the store stay as they were, whatever the outcome. -/
def onState (s : State Value) (x : Action α) : Action (α × State Value) := fun b =>
  let (outcome, b') := x (.ofState s b.fresh)
  (outcome.map fun a => (a, b'.intoState), { b with fresh := b'.fresh })

/-- A finished action leaves the bindings as they are. -/
theorem run_pure (a : α) (b : Bindings) : (pure a : Action α).run b = (.ok a, b) := rfl

/-- The second action runs on the bindings that the first one left, if it succeeded. -/
theorem run_bind (x : Action α) (next : α → Action β) (b : Bindings) :
    (x >>= next).run b =
      match x.run b with
      | (.ok a, b') => (next a).run b'
      | (.error e, b') => (.error e, b') := rfl

/-- How actions in a row are bracketed does not matter. -/
theorem bind_assoc (x : Action α) (next : α → Action β) (last : β → Action γ) :
    x >>= next >>= last = x >>= fun a => next a >>= last := by
  funext b
  change (x >>= next >>= last).run b = (x >>= fun a => next a >>= last).run b
  rw [run_bind, run_bind, run_bind]
  rcases x.run b with ⟨_ | a, b'⟩ <;> rfl

end Action
end CapLisp
