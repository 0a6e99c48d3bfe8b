/-
# Values

A value is at once the form that a reader produces, the code that is evaluated
and the result of evaluating it.  Atoms, lists, vectors and dicts are code when
they are evaluated; every other value evaluates to itself.

A closure carries a serial number, given out once for each closure that is
built.  The number is the closure's identity: copying a closure keeps it, and
no law of equality, text or transport looks at it.  It answers one question
only, whether a closure is still reachable from somewhere else.
-/

import CapLisp.Env

namespace CapLisp

/-- A closure: its identity, its parameters, the forms of its body and the
chain of frames that it was built in. -/
structure Closure (α : Type) where
  serial : Nat
  params : List String
  bodies : List α
  scope : List (String × α)

/-- An evaluation state: an environment and the slots of a reference store.  A
state holds no capability. -/
structure State (α : Type) where
  env : Env α
  refs : List α

/-- The values that programs work on.  A recursive closure sees itself under
its name, which is bound anew for each call and not stored in its scope. -/
inductive Value where
  | atom (name : String)
  | keyword (name : String)
  | string (text : String)
  | number (n : Int64)
  | bool (b : Bool)
  | null
  | list (items : List Value)
  | vector (items : List Value)
  | dict (entries : List (Value × Value))
  | lambda (fn : Closure Value)
  | lambdaRec (name : String) (fn : Closure Value)
  | primFn (name : String)
  | ref (index : UInt64)
  | env (env : Env Value)
  | state (state : State Value)

/-- The fifteen kinds of values. -/
inductive Kind where
  | atom | keyword | string | number | boolean | null | list | vector | dict
  | lambda | lambdaRec | primFn | ref | env | state
  deriving DecidableEq, Repr

namespace Kind

/-- The name of a kind in messages. -/
def name : Kind → String
  | atom => "atom"
  | keyword => "keyword"
  | string => "string"
  | number => "number"
  | boolean => "boolean"
  | null => "null"
  | list => "list"
  | vector => "vector"
  | dict => "dict"
  | lambda => "lambda"
  | lambdaRec => "lambda-rec"
  | primFn => "primfn"
  | ref => "ref"
  | env => "env"
  | state => "state"

/-- Every kind, in the order of the constructors of `Value`. -/
def all : List Kind :=
  [atom, keyword, string, number, boolean, null, list, vector, dict,
    lambda, lambdaRec, primFn, ref, env, state]

/-- The kind that has the given name. -/
def ofName? (name : String) : Option Kind := all.find? (·.name == name)

/-- The name of a kind names it. -/
theorem ofName?_name (k : Kind) : ofName? k.name = some k := by cases k <;> decide

end Kind

namespace State

/-- The state that binds nothing and has no slots. -/
def empty {α : Type} : State α := ⟨Env.empty, []⟩

end State

namespace Value

instance : Inhabited Value := ⟨null⟩

/-- The kind of a value. -/
def kind : Value → Kind
  | atom _ => .atom
  | keyword _ => .keyword
  | string _ => .string
  | number _ => .number
  | bool _ => .boolean
  | null => .null
  | list _ => .list
  | vector _ => .vector
  | dict _ => .dict
  | lambda _ => .lambda
  | lambdaRec _ _ => .lambdaRec
  | primFn _ => .primFn
  | ref _ => .ref
  | env _ => .env
  | state _ => .state

/-- Every value but `#f` counts as true. -/
def isTruthy : Value → Bool
  | bool false => false
  | _ => true

/-- The name of an atom. -/
def atom? : Value → Option String
  | atom name => some name
  | _ => none

/-- The number that a number value holds. -/
def number? : Value → Option Int64
  | number n => some n
  | _ => none

/-- The entries of a dict. -/
def entries? : Value → Option (List (Value × Value))
  | dict entries => some entries
  | _ => none

/-- The form that evaluates to `v`. -/
def quoted (v : Value) : Value := list [atom "quote", v]

/-- The empty list. -/
def nil : Value := list []

end Value
end CapLisp
