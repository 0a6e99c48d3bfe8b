/-
# The text of values

The text of atoms, keywords, strings, numbers, booleans, lists, vectors and
dicts is what a reader accepts for them.  Closures print as the `fn` form that
builds them; the other kinds print in `#<...>` brackets, which no reader accepts.
-/

import CapLisp.Decimal
import CapLisp.Layout
import CapLisp.Literal
import CapLisp.Value.Basic

namespace CapLisp
namespace Value

mutual

/-- The text of a value, in front of `rest`. -/
def write : Value → (rest : List Char) → List Char
  | atom name, rest => name.toList ++ rest
  | keyword name, rest => ':' :: (name.toList ++ rest)
  | string text, rest => Literal.ofString text ++ rest
  | number n, rest => Decimal.ofInt n.toInt ++ rest
  | bool true, rest => '#' :: 't' :: rest
  | bool false, rest => '#' :: 'f' :: rest
  | null, rest => 'n' :: 'u' :: 'l' :: 'l' :: rest
  | list items, rest => '(' :: writeAll items (')' :: rest)
  | vector items, rest => '[' :: writeAll items (']' :: rest)
  | dict entries, rest => '{' :: writeEntries entries ('}' :: rest)
  | lambda fn, rest => writeClosure fn rest
  | lambdaRec name fn, rest =>
    "#<rec:".toList ++ (name.toList ++ ' ' :: writeClosure fn ('>' :: rest))
  | primFn name, rest => "#<primfn:".toList ++ (name.toList ++ '>' :: rest)
  | ref index, rest => "#<ref:".toList ++ (Decimal.ofNat index.toNat ++ '>' :: rest)
  | env e, rest => "#<env ".toList ++ writeEnv e ('>' :: rest)
  | state s, rest => writeState s rest
termination_by structural v => v

/-- The texts of the elements, a space between neighbours. -/
def writeAll : List Value → (rest : List Char) → List Char
  | [], rest => rest
  | item :: more, rest => write item (separated [' '] more (writeAll more rest))
termination_by structural items => items

/-- The texts of keys and values in turn, a space between neighbours. -/
def writeEntries : List (Value × Value) → (rest : List Char) → List Char
  | [], rest => rest
  | (key, value) :: more, rest =>
    write key (' ' :: write value (separated [' '] more (writeEntries more rest)))
termination_by structural entries => entries

/-- The text of a closure: the form that builds it. -/
def writeClosure : Closure Value → (rest : List Char) → List Char
  | ⟨_, params, bodies, _⟩, rest =>
    "(fn [".toList ++ writeNames params (']' :: writeBodies bodies (')' :: rest))
termination_by structural fn => fn

/-- The texts of the forms of a body, a space before each. -/
def writeBodies : List Value → (rest : List Char) → List Char
  | [], rest => rest
  | form :: more, rest => ' ' :: write form (writeBodies more rest)
termination_by structural bodies => bodies

/-- The texts of the bindings in order. -/
def writeBindings : List (String × Value) → (rest : List Char) → List Char
  | [], rest => rest
  | (name, value) :: more, rest =>
    name.toList ++ (" => ".toList ++
      write value (separated [',', ' '] more (writeBindings more rest)))
termination_by structural bindings => bindings

/-- The texts of the frames not shadowed by `seen`, oldest first.  The newest
one is written first, with `sep` after it. -/
def writeFrames : List (String × Value) → (seen : List String) → (sep rest : List Char) →
    List Char
  | [], _, _, rest => rest
  | (name, value) :: older, seen, sep, rest =>
    if name ∈ seen then writeFrames older seen sep rest
    else
      writeFrames older (name :: seen) [',', ' ']
        (name.toList ++ (" => ".toList ++ write value (sep ++ rest)))
termination_by structural frames => frames

/-- The text of an environment: its visible bindings, oldest first. -/
def writeEnv : Env Value → (rest : List Char) → List Char
  | .persistent frames, rest => '{' :: writeFrames frames [] [] ('}' :: rest)
  | .mutable bindings, rest => '{' :: writeBindings bindings ('}' :: rest)
termination_by structural e => e

/-- The text of a state: its environment and the number of its slots. -/
def writeState : State Value → (rest : List Char) → List Char
  | ⟨e, refs⟩, rest =>
    "#<state ".toList ++
      writeEnv e (" refs=".toList ++ (Decimal.ofNat refs.length ++ '>' :: rest))
termination_by structural s => s

end

/-- The text of a value. -/
def text (v : Value) : String := String.ofList (v.write [])

end Value

/-- The text of an environment. -/
def Env.text (e : Env Value) : String := String.ofList (Value.writeEnv e [])

end CapLisp
