/-
# Hashing values

Hashing a value feeds tokens to a hasher: first the kind, then what belongs to it.

| kind | tokens after the kind |
| --- | --- |
| atom, keyword, string, primitive | the text |
| number, boolean | the number, the boolean |
| null, state | none |
| list | the tokens of the elements |
| vector | the number of elements, then their tokens |
| dict | the number of entries, then the sum of their hashes |
| closure | the parameters, then the bodies, each with their number before them |
| recursive closure | the name, then the tokens of a closure |
| reference | the index |
| environment | the number of names |

Each entry of a dict is hashed by itself, its key before its value, and the sum wraps
around at 64 bits, so the order of the entries leaves no trace.  How a hasher turns
tokens into a word is left open: `entryHash` does it for the entries of dicts.

A look-up by hash compares the key with those keys only that have the same hash.
-/

import CapLisp.Dict

namespace CapLisp

/-- What a hasher is fed with. -/
inductive HashToken where
  | kind (kind : Kind)
  | text (text : String)
  | number (n : Int64)
  | bool (b : Bool)
  | size (size : UInt64)
  | sum (sum : UInt64)
  deriving DecidableEq, Repr

namespace HashToken

/-- The token of a number of elements. -/
def ofLength (length : Nat) : HashToken := size (UInt64.ofNat length)

end HashToken

namespace Value

variable (entryHash : List HashToken → UInt64)

mutual

/-- The tokens that hashing a value feeds to the hasher. -/
def hashTokens : Value → List HashToken
  | atom name => [.kind .atom, .text name]
  | keyword name => [.kind .keyword, .text name]
  | string text => [.kind .string, .text text]
  | number n => [.kind .number, .number n]
  | bool b => [.kind .boolean, .bool b]
  | null => [.kind .null]
  | list items => .kind .list :: hashTokensAll items
  | vector items => .kind .vector :: .ofLength items.length :: hashTokensAll items
  | dict entries => [.kind .dict, .ofLength entries.length, .sum (hashEntries 0 entries)]
  | lambda fn => .kind .lambda :: hashTokensClosure fn
  | lambdaRec name fn => .kind .lambdaRec :: .text name :: hashTokensClosure fn
  | primFn name => [.kind .primFn, .text name]
  | ref index => [.kind .ref, .size index]
  | env e => [.kind .env, .ofLength e.size]
  | state _ => [.kind .state]
termination_by structural v => v

/-- The tokens of the elements, one after the other. -/
def hashTokensAll : List Value → List HashToken
  | [] => []
  | item :: rest => hashTokens item ++ hashTokensAll rest
termination_by structural items => items

/-- The hashes of the entries added to `sum`. -/
def hashEntries : (sum : UInt64) → List (Value × Value) → UInt64
  | sum, [] => sum
  | sum, (key, value) :: rest =>
    hashEntries (sum + entryHash (hashTokens key ++ hashTokens value)) rest
termination_by structural _ entries => entries

/-- The tokens of a closure.  Its scope is not hashed. -/
def hashTokensClosure : Closure Value → List HashToken
  | ⟨_, params, bodies, _⟩ =>
    .ofLength params.length :: params.map .text ++ .ofLength bodies.length :: hashTokensAll bodies
termination_by structural fn => fn

end

end Value

namespace Dict

/-- Looks a key up among the entries whose keys have its hash. -/
def findByHash? (hash : Value → UInt64) (key : Value) (dict : Dict) : Option Value :=
  find? key (dict.filter fun entry => hash entry.1 == hash key)

end Dict
end CapLisp
