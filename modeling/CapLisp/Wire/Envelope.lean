/-
# Envelopes

An envelope is the form in which a value leaves the process: plain data
without identities, shadowed frames or environment variants.  Environments are
shipped as their visible bindings, oldest first, and come back persistent.  A
state is shipped as its bindings and its slots, each slot with its index; the
indices must run from zero without gaps.

Decoding builds new closures, so it hands out serial numbers from `fresh` on.
-/

import CapLisp.Dict
import CapLisp.Error
import CapLisp.Store

namespace CapLisp

/-- A value in transport. -/
inductive Envelope where
  | atom (name : String)
  | keyword (name : String)
  | string (text : String)
  | boolean (b : Bool)
  | number (n : Int64)
  | null
  | list (items : List Envelope)
  | vector (items : List Envelope)
  | dict (entries : List (Envelope × Envelope))
  | primFn (name : String)
  | ref (index : UInt64)
  | lambda (params : List String) (bodies : List Envelope) (scope : List (String × Envelope))
  | lambdaRec (name : String) (params : List String) (bodies : List Envelope)
      (scope : List (String × Envelope))
  | env (bindings : List (String × Envelope))
  | state (bindings : List (String × Envelope)) (refs : List (UInt64 × Envelope))

namespace Value

mutual

/-- The envelope of a value. -/
def encode : Value → Envelope
  | atom name => .atom name
  | keyword name => .keyword name
  | string text => .string text
  | number n => .number n
  | bool b => .boolean b
  | null => .null
  | list items => .list (encodeAll items)
  | vector items => .vector (encodeAll items)
  | dict entries => .dict (encodeEntries entries)
  | lambda ⟨_, params, bodies, scope⟩ =>
    .lambda params (encodeAll bodies) (encodeScope scope []).reverse
  | lambdaRec name ⟨_, params, bodies, scope⟩ =>
    .lambdaRec name params (encodeAll bodies) (encodeScope scope []).reverse
  | primFn name => .primFn name
  | ref index => .ref index
  | env e => .env (encodeEnv e)
  | state ⟨e, refs⟩ => .state (encodeEnv e) (encodeSlots refs 0)
termination_by structural v => v

/-- The envelopes of the elements. -/
def encodeAll : List Value → List Envelope
  | [] => []
  | item :: rest => encode item :: encodeAll rest
termination_by structural items => items

/-- The envelopes of the entries. -/
def encodeEntries : List (Value × Value) → List (Envelope × Envelope)
  | [] => []
  | (key, value) :: rest => (encode key, encode value) :: encodeEntries rest
termination_by structural entries => entries

/-- The envelopes of the bindings not shadowed by `seen`, in the order of the frames. -/
def encodeScope : List (String × Value) → List String → List (String × Envelope)
  | [], _ => []
  | (name, value) :: rest, seen =>
    if name ∈ seen then encodeScope rest seen
    else (name, encode value) :: encodeScope rest (name :: seen)
termination_by structural frames => frames

/-- The envelopes of the visible bindings, oldest first. -/
def encodeEnv : Env Value → List (String × Envelope)
  | .persistent frames => (encodeScope frames []).reverse
  | .mutable bindings => encodeScope bindings []
termination_by structural e => e

/-- The envelopes of the slots, with indices from `index` on. -/
def encodeSlots : List Value → Nat → List (UInt64 × Envelope)
  | [], _ => []
  | value :: rest, index =>
    (UInt64.ofNat index, encode value) :: encodeSlots rest (index + 1)
termination_by structural slots => slots

end

end Value

namespace Envelope

/-- A step of decoding: it takes the next free serial number and hands on the
one after those it used. -/
abbrev Decoder (α : Type) := StateT Nat (Except Error) α

/-- Gives out a serial number. -/
def nextSerial : Decoder Nat := fun fresh => .ok (fresh, fresh + 1)

mutual

/-- The value in an envelope.  A closure is numbered after everything inside it. -/
def decode : Envelope → Decoder Value
  | atom name => pure (.atom name)
  | keyword name => pure (.keyword name)
  | string text => pure (.string text)
  | boolean b => pure (.bool b)
  | number n => pure (.number n)
  | null => pure .null
  | list items => do return .list (← decodeAll items)
  | vector items => do return .vector (← decodeAll items)
  | dict entries => do return .dict (Dict.ofEntries (← decodeEntries entries))
  | primFn name => pure (.primFn name)
  | ref index => pure (.ref index)
  | lambda params bodies scope => do
    let bodies ← decodeAll bodies
    let scope ← decodeBindings scope
    return .lambda ⟨← nextSerial, params, bodies, scope.reverse⟩
  | lambdaRec name params bodies scope => do
    let bodies ← decodeAll bodies
    let scope ← decodeBindings scope
    return .lambdaRec name ⟨← nextSerial, params, bodies, scope.reverse⟩
  | env bindings => do return .env (.persistent (← decodeBindings bindings).reverse)
  | state bindings refs => do
    let bindings ← decodeBindings bindings
    let refs ← decodeSlots refs 0
    return .state ⟨.persistent bindings.reverse, refs⟩
termination_by structural e => e

/-- The values in the envelopes, from left to right. -/
def decodeAll : List Envelope → Decoder (List Value)
  | [] => pure []
  | item :: rest => do
    let item ← decode item
    let rest ← decodeAll rest
    return item :: rest
termination_by structural items => items

/-- The entries in the envelopes, each key before its value. -/
def decodeEntries : List (Envelope × Envelope) → Decoder (List (Value × Value))
  | [] => pure []
  | (key, value) :: rest => do
    let key ← decode key
    let value ← decode value
    let rest ← decodeEntries rest
    return (key, value) :: rest
termination_by structural entries => entries

/-- The bindings in the envelopes. -/
def decodeBindings : List (String × Envelope) → Decoder (List (String × Value))
  | [] => pure []
  | (name, value) :: rest => do
    let value ← decode value
    let rest ← decodeBindings rest
    return (name, value) :: rest
termination_by structural bindings => bindings

/-- The slots in the envelopes, whose indices must run from `expected` on.  An
index is checked before the value of its slot is decoded. -/
def decodeSlots : List (UInt64 × Envelope) → Nat → Decoder (List Value)
  | [], _ => pure []
  | (index, value) :: rest, expected =>
    if index = UInt64.ofNat expected then do
      let value ← decode value
      let rest ← decodeSlots rest (expected + 1)
      return value :: rest
    else throw (.impossible (.referenceOrder index expected))
termination_by structural slots => slots

end

end Envelope
end CapLisp
