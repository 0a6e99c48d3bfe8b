/-
# JSON trees

A tree is a JSON text taken apart.  It keeps the spelling of its numbers and
strings: a number is the text of its literal, a string or member name the text
between its quotes.  What a literal denotes is asked for where it is used, so
`1`, `1.0` and `1e0` stay apart and a text that is never looked at need not
denote anything.
Members keep their order, and a name may occur more than once.
-/

import CapLisp.Json.Range
import CapLisp.Json.Text
import CapLisp.Layout

namespace CapLisp

/-- A JSON text taken apart. -/
inductive Json where
  | null
  | bool (b : Bool)
  | number (literal : List Char)
  | string (literal : List Char)
  | array (items : List Json)
  | object (members : List (List Char × Json))

namespace Json

instance : Inhabited Json := ⟨null⟩

/-- The string with the given text. -/
def ofText (text : String) : Json := string (Text.encode text.toList)

/-- The number with the given value. -/
def ofInt (n : Int) : Json := number (Decimal.ofInt n)

/-- The number with the given value. -/
def ofNat (n : Nat) : Json := number (Decimal.ofNat n)

/-- The object with the given members. -/
def ofMembers (members : List (String × Json)) : Json :=
  object (members.map fun (name, value) => (Text.encode name.toList, value))

/-- The text that the spelling of a string denotes. -/
def textOf? (literal : List Char) : Option String := (Text.decode literal none).map String.ofList

/-- The text of a string. -/
def text? : Json → Option String
  | string literal => textOf? literal
  | _ => none

/-- The value of a boolean. -/
def bool? : Json → Option Bool
  | bool b => some b
  | _ => none

/-- The whole number that a literal of digits with an optional minus sign
denotes.  The literals with a fraction or an exponent, and minus zero, denote
floating-point numbers and no whole number. -/
def intOf? : List Char → Option Int
  | '-' :: digits =>
    if digits.all Char.isDigit && digits != ['0'] then some (-(Decimal.natOf digits : Int))
    else none
  | digits => if digits.all Char.isDigit then some (Decimal.natOf digits) else none

/-- The value of a number that is written as a whole number. -/
def int? : Json → Option Int
  | number literal => intOf? literal
  | _ => none

/-- The elements of an array. -/
def items? : Json → Option (List Json)
  | array items => some items
  | _ => none

/-- The first member whose name denotes `name`. -/
def member? (name : String) : Json → Option Json
  | object members => (members.find? fun member => textOf? member.1 == some name).map (·.2)
  | _ => none

mutual

/-- The compact text of a tree, in front of `rest`. -/
def write : Json → (rest : List Char) → List Char
  | null, rest => 'n' :: 'u' :: 'l' :: 'l' :: rest
  | bool true, rest => 't' :: 'r' :: 'u' :: 'e' :: rest
  | bool false, rest => 'f' :: 'a' :: 'l' :: 's' :: 'e' :: rest
  | number literal, rest => literal ++ rest
  | string literal, rest => '"' :: (literal ++ '"' :: rest)
  | array items, rest => '[' :: writeItems items (']' :: rest)
  | object members, rest => '\x7b' :: writeMembers members ('\x7d' :: rest)
termination_by structural j => j

/-- The texts of the elements, a comma between neighbours. -/
def writeItems : List Json → (rest : List Char) → List Char
  | [], rest => rest
  | item :: more, rest => write item (separated [','] more (writeItems more rest))
termination_by structural items => items

/-- The texts of the members, a comma between neighbours. -/
def writeMembers : List (List Char × Json) → (rest : List Char) → List Char
  | [], rest => rest
  | (name, value) :: more, rest =>
    '"' :: (name ++ '"' :: ':' ::
      write value (separated [','] more (writeMembers more rest)))
termination_by structural members => members

end

/-- The compact text of a tree. -/
def text (j : Json) : String := String.ofList (j.write [])

mutual

/-- How deep arrays and objects nest. -/
def nesting : Json → Nat
  | array items => nestingOfItems items + 1
  | object members => nestingOfMembers members + 1
  | _ => 0
termination_by structural j => j

/-- The deepest nesting of an element. -/
def nestingOfItems : List Json → Nat
  | [] => 0
  | item :: rest => max (nesting item) (nestingOfItems rest)
termination_by structural items => items

/-- The deepest nesting of a member. -/
def nestingOfMembers : List (List Char × Json) → Nat
  | [] => 0
  | (_, value) :: rest => max (nesting value) (nestingOfMembers rest)
termination_by structural members => members

end

mutual

/-- Tells whether every literal stands for something: a string or member name
for a text, a number for one in range. -/
def isSound : Json → Bool
  | number literal => isInRange literal
  | string literal => (textOf? literal).isSome
  | array items => areSound items
  | object members => areSoundMembers members
  | _ => true
termination_by structural j => j

/-- Tells whether every literal in the elements stands for something. -/
def areSound : List Json → Bool
  | [] => true
  | item :: rest => isSound item && areSound rest
termination_by structural items => items

/-- Tells whether every name and literal in the members stands for something. -/
def areSoundMembers : List (List Char × Json) → Bool
  | [] => true
  | (name, value) :: rest => (textOf? name).isSome && isSound value && areSoundMembers rest
termination_by structural members => members

end

end Json
end CapLisp
