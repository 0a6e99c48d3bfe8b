/-
# Operations

An operation is a shipped primitive that evaluates nothing: its outcome depends
on the arguments, the environment and the store alone.  Only `ref` and
`write-ref` change anything, and only the store.

An operation takes its arguments apart by itself and refuses those that it
cannot use.  It is called on arguments that its signature accepts, and these it
can use.
-/

import CapLisp.Bindings
import CapLisp.Number
import CapLisp.Primitive.Arguments

namespace CapLisp

/-- The shipped primitives that evaluate nothing. -/
inductive Operation where
  | throw | list | dict | eq | cons | first | rest | length | take | drop | nth | addRight
  | lookup | insert | ref | readRef | writeRef | add | sub | mul | lt | gt | not
  | stringAppend | pureState | currentState | stateEnv
  deriving DecidableEq, Repr

namespace Operation

/-- The name of an operation. -/
def name : Operation → String
  | throw => "throw"
  | list => "list"
  | dict => "dict"
  | eq => "eq?"
  | cons => "cons"
  | first => "first"
  | rest => "rest"
  | length => "length"
  | take => "take"
  | drop => "drop"
  | nth => "nth"
  | addRight => "add-right"
  | lookup => "lookup"
  | insert => "insert"
  | ref => "ref"
  | readRef => "read-ref"
  | writeRef => "write-ref"
  | add => "+"
  | sub => "-"
  | mul => "*"
  | lt => "<"
  | gt => ">"
  | not => "not"
  | stringAppend => "string-append"
  | pureState => "pure-state"
  | currentState => "get-current-state"
  | stateEnv => "state-env"

/-- Every operation, in the order of the catalog. -/
def all : List Operation :=
  [throw, list, dict, eq, cons, first, rest, length, take, drop, nth, addRight, lookup, insert,
    ref, readRef, writeRef, add, sub, mul, lt, gt, not, stringAppend, pureState, currentState,
    stateEnv]

/-- The list of operations is complete. -/
theorem mem_all (op : Operation) : op ∈ all := by cases op <;> decide

/-- The arguments of an operation. -/
def signature : Operation → Signature
  | throw => ⟨.exact 2, [.is .atom, .any]⟩
  | list => ⟨.any, []⟩
  | dict => ⟨.even, []⟩
  | eq => ⟨.exact 2, [.any, .any]⟩
  | cons => ⟨.exact 2, [.any, .listLike]⟩
  | first => ⟨.exact 1, [.listLike]⟩
  | rest => ⟨.exact 1, [.listLike]⟩
  | length => ⟨.exact 1, [.sequence]⟩
  | take => ⟨.exact 2, [.is .number, .sequence]⟩
  | drop => ⟨.exact 2, [.is .number, .sequence]⟩
  | nth => ⟨.exact 2, [.is .number, .sequence]⟩
  | addRight => ⟨.exact 2, [.is .vector, .any]⟩
  | lookup => ⟨.exact 2, [.any, .is .dict]⟩
  | insert => ⟨.exact 3, [.any, .any, .is .dict]⟩
  | ref => ⟨.exact 1, [.any]⟩
  | readRef => ⟨.exact 1, [.is .ref]⟩
  | writeRef => ⟨.exact 2, [.is .ref, .any]⟩
  | add => ⟨.exact 2, [.is .number, .is .number]⟩
  | sub => ⟨.exact 2, [.is .number, .is .number]⟩
  | mul => ⟨.exact 2, [.is .number, .is .number]⟩
  | lt => ⟨.exact 2, [.is .number, .is .number]⟩
  | gt => ⟨.exact 2, [.is .number, .is .number]⟩
  | not => ⟨.exact 1, [.is .boolean]⟩
  | stringAppend => ⟨.any, []⟩
  | pureState => ⟨.exact 0, []⟩
  | currentState => ⟨.exact 0, []⟩
  | stateEnv => ⟨.exact 1, [.is .state]⟩

/-- The refusal of an operation on the store where there is none. -/
def refusal (args : List Value) (op : Operation) : Error :=
  .wrongNumberArgs op.name (op.signature.arity.expected args.length) args.length

/-- The texts of string arguments one after another; the first argument that is
no string is refused. -/
def appendTexts : List Value → Except Error String
  | [] => .ok ""
  | .string text :: args => (appendTexts args).map (text ++ ·)
  | arg :: _ => Arguments.wrongKind stringAppend.name (.is .string) arg

/-- The position that a number argument names. -/
def position (op : Operation) (n : Int64) : Except Error Nat :=
  if n < 0 then .error (.failed (.negativeIndex op.name n)) else .ok n.toInt.toNat

/-- The outcome of an arithmetic operation. -/
def arithmetic (op : Operation) (operation : String) (result : Option Int64) : Except Error Value :=
  match result with
  | some n => .ok (.number n)
  | none => .error (.failed (.overflow op.name operation))

/-- The first element, or the failure of an empty sequence. -/
def firstOf : List Value → Except Error Value
  | item :: _ => .ok item
  | [] => .error (.failed (.emptySequence first.name))

/-- All elements but the first, or the failure of an empty sequence. -/
def restOf : List Value → Except Error (List Value)
  | _ :: items => .ok items
  | [] => .error (.failed (.emptySequence rest.name))

/-- The outcome of a function on the sequence that `v` is. -/
def onSequence (op : Operation) (v : Value) (f : Sequence → Except Error Value) :
    Except Error Value := do
  let s ← Arguments.sequence op.name v
  f s

/-- The result of an operation that neither reads nor writes the bindings. -/
def result : Operation → List Value → Except Error Value
  | throw, args => do
    let (label, payload) ← Arguments.two throw.name args
    match label with
    | .atom label => .error (.thrown label payload)
    | other => Arguments.wrongKind throw.name (.is .atom) other
  | list, args => .ok (.list args)
  | dict, args => .ok (.dict (Dict.ofEntries (Dict.pairs args)))
  | eq, args => do
    let (a, b) ← Arguments.two eq.name args
    return .bool (a == b)
  | cons, args => do
    let (head, tail) ← Arguments.two cons.name args
    match tail with
    | .list items => return .list (head :: items)
    | .vector items => return .vector (head :: items)
    | other => Arguments.wrongKind cons.name .listLike other
  | first, args => do
    let v ← Arguments.one first.name args
    match v with
    | .list items => firstOf items
    | .vector items => firstOf items
    | other => Arguments.wrongKind first.name .listLike other
  | rest, args => do
    let v ← Arguments.one rest.name args
    match v with
    | .list items => (restOf items).map .list
    | .vector items => (restOf items).map .vector
    | other => Arguments.wrongKind rest.name .listLike other
  | length, args => do
    let v ← Arguments.one length.name args
    onSequence length v fun s =>
      match Number.ofInt? s.length with
      | some n => .ok (.number n)
      | none => .error (.failed .lengthRange)
  | take, args => do
    let (n, v) ← Arguments.two take.name args
    let n ← Arguments.number take.name n
    let count ← position take n
    onSequence take v fun s =>
      match s.slice? 0 (some count) with
      | some part => .ok part
      | none => .error (.failed (.shortTake count s.length))
  | drop, args => do
    let (n, v) ← Arguments.two drop.name args
    let n ← Arguments.number drop.name n
    let count ← position drop n
    onSequence drop v fun s =>
      match s.slice? count none with
      | some part => .ok part
      | none => .error (.failed (.shortDrop count s.length))
  | nth, args => do
    let (n, v) ← Arguments.two nth.name args
    let n ← Arguments.number nth.name n
    let index ← position nth n
    onSequence nth v fun s =>
      match s.nth? index with
      | some item => .ok item
      | none => .error (.failed (.indexRange index s.length))
  | addRight, args => do
    let (vector, v) ← Arguments.two addRight.name args
    match vector with
    | .vector items => return .vector (items ++ [v])
    | other => Arguments.wrongKind addRight.name (.is .vector) other
  | lookup, args => do
    let (key, v) ← Arguments.two lookup.name args
    let entries ← Arguments.entries lookup.name v
    match Dict.find? key entries with
    | some value => .ok value
    | none => .error (.failed (.missingKey key))
  | insert, args => do
    let (key, value, v) ← Arguments.three insert.name args
    let entries ← Arguments.entries insert.name v
    return .dict (Dict.insert key value entries)
  | add, args => do
    let (m, n) ← Arguments.numbers add.name args
    arithmetic add "addition" (Number.add? m n)
  | sub, args => do
    let (m, n) ← Arguments.numbers sub.name args
    arithmetic sub "subtraction" (Number.sub? m n)
  | mul, args => do
    let (m, n) ← Arguments.numbers mul.name args
    arithmetic mul "multiplication" (Number.mul? m n)
  | lt, args => do
    let (m, n) ← Arguments.numbers lt.name args
    return .bool (m < n)
  | gt, args => do
    let (m, n) ← Arguments.numbers gt.name args
    return .bool (n < m)
  | not, args => do
    let v ← Arguments.one not.name args
    match v with
    | .bool b => return .bool !b
    | other => Arguments.wrongKind not.name (.is .boolean) other
  | stringAppend, args => (appendTexts args).map .string
  | pureState, _ => .ok (.state State.empty)
  | stateEnv, args => do
    let v ← Arguments.one stateEnv.name args
    let s ← Arguments.state stateEnv.name v
    return .env s.env
  | op, args => .error (op.refusal args)

/-- The result of an operation on the given bindings, and the store after it.
An operation that fails leaves the store as it was. -/
def run (b : Bindings) : Operation → List Value → Except Error (Value × Store Value)
  | ref, args => do
    let v ← Arguments.one ref.name args
    let (refs, index) := Store.insert v b.refs
    return (.ref index, refs)
  | readRef, args => do
    let v ← Arguments.one readRef.name args
    let index ← Arguments.index readRef.name v
    match Store.get? index b.refs with
    | some v => .ok (v, b.refs)
    | none => .error (.impossible (.danglingReference readRef.name index))
  | writeRef, args => do
    let (r, v) ← Arguments.two writeRef.name args
    let index ← Arguments.index writeRef.name r
    match Store.set? index v b.refs with
    | some (_, refs) => .ok (v, refs)
    | none => .error (.impossible (.danglingReference writeRef.name index))
  | currentState, _ => .ok (.state b.toState, b.refs)
  | op, args => (op.result args).map fun v => (v, b.refs)

/-- An operation on sequences is applied to what the argument is as a sequence. -/
theorem onSequence_eq {op : Operation} {v : Value} {s : Sequence} (h : v.sequence? = some s)
    (f : Sequence → Except Error Value) : op.onSequence v f = f s := by
  simp only [onSequence, Arguments.sequence, h]
  rfl

/-- The test for equality answers with structural equality. -/
theorem result_eq (a b : Value) : result eq [a, b] = .ok (.bool (a == b)) := rfl

/-- Looking up a key gives its value, and fails if the dictionary has no equal key. -/
theorem result_lookup (key : Value) (entries : Dict) :
    result lookup [key, .dict entries] =
      match Dict.find? key entries with
      | some value => .ok value
      | none => .error (.failed (.missingKey key)) := rfl

/-- A new reference points at a new slot at the end of the store. -/
theorem run_ref (b : Bindings) (v : Value) :
    run b ref [v] = .ok (.ref (Store.insert v b.refs).2, (Store.insert v b.refs).1) := rfl

/-- Reading a reference gives the content of its slot and keeps the store. -/
theorem run_readRef (b : Bindings) (index : UInt64) :
    run b readRef [.ref index] =
      match Store.get? index b.refs with
      | some v => .ok (v, b.refs)
      | none => .error (.impossible (.danglingReference readRef.name index)) := rfl

/-- Writing a reference replaces the content of its slot and gives the new content. -/
theorem run_writeRef (b : Bindings) (index : UInt64) (v : Value) :
    run b writeRef [.ref index, v] =
      match Store.set? index v b.refs with
      | some (_, refs) => .ok (v, refs)
      | none => .error (.impossible (.danglingReference writeRef.name index)) := rfl

end Operation
end CapLisp
