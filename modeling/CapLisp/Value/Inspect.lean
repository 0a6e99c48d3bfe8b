/-
# Values as seen by a debugger

The inspected form of a value names the kinds that its text does not show:
`List([Atom(f), Number(1)])` for `(f 1)`.  Kinds without elements of their own
show their text between brackets.
-/

import CapLisp.Value.Text

namespace CapLisp
namespace Literal

/-- The hexadecimal digits of `n`, in lower case. -/
def hexDigits (n : Nat) : List Char := Nat.toDigits 16 n

/-- How a character stands in an inspected string: as in a literal, but the
remaining control characters are written by their code point. -/
def inspected (c : Char) : List Char :=
  if c = Char.ofNat 0 then ['\\', '0']
  else if c.toNat < 32 ∧ escaped c = [c] ∨ 127 ≤ c.toNat ∧ c.toNat < 160 then
    ['\\', 'u', '\x7b'] ++ hexDigits c.toNat ++ ['\x7d']
  else escaped c

/-- An inspected string between quotes. -/
def inspectedString (text : String) : List Char :=
  '"' :: (text.toList.flatMap inspected ++ ['"'])

end Literal

namespace Value

mutual

/-- The inspected form of a value, in front of `rest`. -/
def writeInspected : Value → (rest : List Char) → List Char
  | atom name, rest => "Atom(".toList ++ (name.toList ++ ')' :: rest)
  | keyword name, rest => "Keyword(".toList ++ (name.toList ++ ')' :: rest)
  | string text, rest => "String(".toList ++ (Literal.inspectedString text ++ ')' :: rest)
  | number n, rest => "Number(".toList ++ (Decimal.ofInt n.toInt ++ ')' :: rest)
  | bool true, rest => "Bool(true)".toList ++ rest
  | bool false, rest => "Bool(false)".toList ++ rest
  | null, rest => "Null".toList ++ rest
  | list items, rest => "List([".toList ++ writeInspectedAll items (']' :: ')' :: rest)
  | vector items, rest => "Vector([".toList ++ writeInspectedAll items (']' :: ')' :: rest)
  | dict entries, rest =>
    "Dict(".toList ++ '\x7b' :: writeInspectedEntries entries ('\x7d' :: ')' :: rest)
  | lambda fn, rest => "Lambda(".toList ++ writeClosure fn (')' :: rest)
  | lambdaRec name fn, rest =>
    "LambdaRec(".toList ++ (name.toList ++ ',' :: ' ' :: writeClosure fn (')' :: rest))
  | primFn name, rest => "PrimFn(".toList ++ (name.toList ++ ')' :: rest)
  | ref index, rest => "Ref(".toList ++ (Decimal.ofNat index.toNat ++ ')' :: rest)
  | env e, rest => "Env(".toList ++ writeEnv e (')' :: rest)
  | state s, rest =>
    "State(".toList ++
      writeEnv s.env (", refs=".toList ++ (Decimal.ofNat s.refs.length ++ ')' :: rest))
termination_by structural v => v

/-- The inspected forms of the elements, a comma between neighbours. -/
def writeInspectedAll : List Value → (rest : List Char) → List Char
  | [], rest => rest
  | item :: more, rest =>
    writeInspected item (separated [',', ' '] more (writeInspectedAll more rest))
termination_by structural items => items

/-- The inspected forms of the entries, a colon between key and value. -/
def writeInspectedEntries : List (Value × Value) → (rest : List Char) → List Char
  | [], rest => rest
  | (key, value) :: more, rest =>
    writeInspected key (':' :: ' ' ::
      writeInspected value (separated [',', ' '] more (writeInspectedEntries more rest)))
termination_by structural entries => entries

end

/-- The inspected form of a value. -/
def inspect (v : Value) : String := String.ofList (v.writeInspected [])

end Value

/-- The inspected form of a state: its environment and the number of its slots. -/
def State.inspect (s : State Value) : String :=
  String.ofList ("State ".toList ++ '\x7b' :: (" env: ".toList ++
    Value.writeEnv s.env (", refs: ".toList ++ (Decimal.ofNat s.refs.length ++ [' ', '\x7d']))))

end CapLisp
