/-
# Taking arguments apart

An implementation takes its arguments apart by itself: it asks for a number of
them first, and then for a kind where it needs one.  These demands stand apart
from the signature, which is checked before the implementation runs.

Each demand gives what was asked for, or refuses the arguments in the name of
the operation.
-/

import CapLisp.Dict
import CapLisp.Error

namespace CapLisp
namespace Arguments

/-- The refusal of a number of arguments. -/
def wrongCount {α : Type} (op : String) (expected : Nat) (args : List Value) : Except Error α :=
  .error (.wrongNumberArgs op expected args.length)

/-- The refusal of an argument that is not of the kind asked for. -/
def wrongKind {α : Type} (op : String) (expected : ArgKind) (v : Value) : Except Error α :=
  .error (.wrongKind op expected v.kind)

/-- The only argument. -/
def one (op : String) : List Value → Except Error Value
  | [v] => .ok v
  | args => wrongCount op 1 args

/-- The two arguments. -/
def two (op : String) : List Value → Except Error (Value × Value)
  | [v, w] => .ok (v, w)
  | args => wrongCount op 2 args

/-- The three arguments. -/
def three (op : String) : List Value → Except Error (Value × Value × Value)
  | [v, w, u] => .ok (v, w, u)
  | args => wrongCount op 3 args

/-- The number that an argument is. -/
def number (op : String) : Value → Except Error Int64
  | .number n => .ok n
  | v => wrongKind op (.is .number) v

/-- The two numbers that two arguments are. -/
def numbers (op : String) (args : List Value) : Except Error (Int64 × Int64) := do
  let (a, b) ← two op args
  let m ← number op a
  let n ← number op b
  return (m, n)

/-- The entries of the dict that an argument is. -/
def entries (op : String) : Value → Except Error Dict
  | .dict entries => .ok entries
  | v => wrongKind op (.is .dict) v

/-- The index of the reference that an argument is. -/
def index (op : String) : Value → Except Error UInt64
  | .ref index => .ok index
  | v => wrongKind op (.is .ref) v

/-- The state that an argument is. -/
def state (op : String) : Value → Except Error (State Value)
  | .state s => .ok s
  | v => wrongKind op (.is .state) v

/-- The sequence that an argument is. -/
def sequence (op : String) (v : Value) : Except Error Sequence :=
  match v.sequence? with
  | some s => .ok s
  | none => wrongKind op .sequence v

end Arguments
end CapLisp
