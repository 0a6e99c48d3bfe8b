/-
# Documents and the texts that spell them

A document is what a JSON text says, without the choices of its spelling.  Its
maps may have any documents as keys; JSON has texts only for those whose keys
are strings (`HasTextKeys`).

Many texts spell one document (`IsSpelledBy`), those of strict JSON:

| document | texts |
| --- | --- |
| null, a boolean | its word |
| a whole number | its decimal digits, without leading zeros, after a minus sign if negative |
| a string | between quotes, raw characters from U+0020 on and escapes |
| an array | between brackets, texts of the elements with commas between them |
| a map | between braces, a string, a colon and a text of the value for each entry |

Blanks stand around every sign and around the whole.  One of these texts is
the compact one (`text`): without blanks, with an escape for a quote, a
backslash and the control characters below U+0020 and for no other character.

How deep arrays and objects nest is told from a document (`nesting`) or from
a text, whatever it spells (`Json.depth`).
-/

import CapLisp.Json.Basic

namespace CapLisp

/-- What a JSON text says. -/
inductive Document where
  | null
  | bool (b : Bool)
  | number (n : Int)
  | string (s : String)
  | array (items : List Document)
  | map (entries : List (Document × Document))

namespace Document

/-- The entry of a named member. -/
def member (name : String) (value : Document) : Document × Document := (string name, value)

/-- The map with the given members. -/
def object (members : List (String × Document)) : Document :=
  map (members.map fun (name, value) => member name value)

/-- A document whose maps have only strings as keys. -/
inductive HasTextKeys : Document → Prop
  | null : HasTextKeys null
  | bool (b : Bool) : HasTextKeys (bool b)
  | number (n : Int) : HasTextKeys (number n)
  | string (s : String) : HasTextKeys (string s)
  | array {items : List Document} (h : ∀ item ∈ items, HasTextKeys item) :
    HasTextKeys (array items)
  | object {members : List (String × Document)} (h : ∀ m ∈ members, HasTextKeys m.2) :
    HasTextKeys (object members)

mutual

/-- How deep the arrays and maps of a document nest. -/
def nesting : Document → Nat
  | array items => nestingOfItems items + 1
  | map entries => nestingOfEntries entries + 1
  | _ => 0
termination_by structural d => d

/-- The deepest nesting of an element. -/
def nestingOfItems : List Document → Nat
  | [] => 0
  | item :: rest => max (nesting item) (nestingOfItems rest)
termination_by structural items => items

/-- The deepest nesting of a value. -/
def nestingOfEntries : List (Document × Document) → Nat
  | [] => 0
  | (_, value) :: rest => max (nesting value) (nestingOfEntries rest)
termination_by structural entries => entries

end

/-! ### The compact text -/

/-- How a key stands in front of its value.  Only a string has a spelling there. -/
def keyLiteral : Document → List Char
  | string s => Json.Text.encode s.toList
  | _ => []

mutual

/-- The tree of a document, with the spellings that the compact text gives to
numbers and strings. -/
def json : Document → Json
  | null => .null
  | bool b => .bool b
  | number n => .ofInt n
  | string s => .ofText s
  | array items => .array (jsonAll items)
  | map entries => .object (jsonEntries entries)
termination_by structural d => d

/-- The trees of the elements. -/
def jsonAll : List Document → List Json
  | [] => []
  | item :: rest => json item :: jsonAll rest
termination_by structural items => items

/-- The trees of the entries. -/
def jsonEntries : List (Document × Document) → List (List Char × Json)
  | [] => []
  | (key, value) :: rest => (keyLiteral key, json value) :: jsonEntries rest
termination_by structural entries => entries

end

/-- The compact text of a document. -/
def text (d : Document) : String := d.json.text

end Document

namespace Json

/-! ### Spellings -/

/-- A run of blanks. -/
def Gap (text : List Char) : Prop := ∀ c ∈ text, c ∈ [' ', '\n', '\t', '\r']

/-- The word for a boolean. -/
def word : Bool → List Char
  | true => ['t', 'r', 'u', 'e']
  | false => ['f', 'a', 'l', 's', 'e']

/-- The characters that a literal between quotes denotes: a raw character
itself, an escape the character of its sign or of its UTF-16 unit, and two
escapes together the character of their surrogate pair. -/
inductive Text.Denotes : (literal chars : List Char) → Prop
  | nil : Denotes [] []
  | raw {c : Char} {literal chars : List Char} (hquote : c ≠ '"') (hbackslash : c ≠ '\\')
    (hcontrol : 32 ≤ c.toNat) (h : Denotes literal chars) : Denotes (c :: literal) (c :: chars)
  | sign {sign c : Char} {literal chars : List Char} (hsign : simple? sign = some c)
    (h : Denotes literal chars) : Denotes ('\\' :: sign :: literal) (c :: chars)
  | unit {w x y z c : Char} {literal chars : List Char} (hunit : unit? w x y z = some c.toNat)
    (h : Denotes literal chars) : Denotes ('\\' :: 'u' :: w :: x :: y :: z :: literal) (c :: chars)
  | pair {w x y z w' x' y' z' : Char} {high low : Nat} {literal chars : List Char}
    (hhigh : unit? w x y z = some high) (ishigh : isHigh high = true)
    (hlow : unit? w' x' y' z' = some low) (islow : isLow low = true)
    (h : Denotes literal chars) :
    Denotes ('\\' :: 'u' :: w :: x :: y :: z :: '\\' :: 'u' :: w' :: x' :: y' :: z' :: literal)
      (pair high low :: chars)

/-- The texts in a row with commas between them and blanks around each. -/
inductive Listed : (texts : List (List Char)) → (inner : List Char) → Prop
  | nil {gap : List Char} (hgap : Gap gap) : Listed [] gap
  | last {before text after : List Char} (hbefore : Gap before) (hafter : Gap after) :
    Listed [text] (before ++ (text ++ after))
  | cons {before text after next inner : List Char} {more : List (List Char)}
    (hbefore : Gap before) (hafter : Gap after) (h : Listed (next :: more) inner) :
    Listed (text :: next :: more) (before ++ (text ++ (after ++ ',' :: inner)))

end Json

namespace Document

open Json (Gap Listed)

/-- A member of an object with its spelling: the literal of its name, the
blanks before and after the colon, and the text of its value. -/
structure Member where
  name : String
  literal : List Char
  before : List Char
  after : List Char
  value : Document
  text : List Char

namespace Member

/-- The entry that a member spells. -/
def entry (m : Member) : Document × Document := member m.name m.value

/-- The text of a member. -/
def chars (m : Member) : List Char :=
  '"' :: (m.literal ++ '"' :: (m.before ++ ':' :: (m.after ++ m.text)))

end Member

/-- The texts that spell a document, without blanks around them. -/
inductive Spells : Document → List Char → Prop
  | null : Spells null ['n', 'u', 'l', 'l']
  | bool (b : Bool) : Spells (bool b) (Json.word b)
  | number (n : Int) : Spells (number n) (Decimal.ofInt n)
  | string {s : String} {literal : List Char} (h : Json.Text.Denotes literal s.toList) :
    Spells (string s) ('"' :: (literal ++ ['"']))
  | array {parts : List (Document × List Char)} {inner : List Char}
    (h : ∀ part ∈ parts, Spells part.1 part.2) (hinner : Listed (parts.map Prod.snd) inner) :
    Spells (array (parts.map Prod.fst)) ('[' :: (inner ++ [']']))
  | map {members : List Member} {inner : List Char}
    (hname : ∀ m ∈ members, Json.Text.Denotes m.literal m.name.toList)
    (hgap : ∀ m ∈ members, Gap m.before ∧ Gap m.after)
    (h : ∀ m ∈ members, Spells m.value m.text) (hinner : Listed (members.map Member.chars) inner) :
    Spells (map (members.map Member.entry)) ('\x7b' :: (inner ++ ['\x7d']))

/-- Tells that a text is strict JSON for a document. -/
def IsSpelledBy (d : Document) (text : String) : Prop :=
  ∃ before chars after, Gap before ∧ d.Spells chars ∧ Gap after ∧
    text.toList = before ++ (chars ++ after)

end Document

namespace Json

/-! ### Nesting of a text -/

/-- The most arrays and objects that are open at once from here to the end of a
text, of which `level` are open here.  Inside a string no sign opens or closes
one. -/
def deepest : (level : Nat) → (quoted : Bool) → List Char → Nat
  | level, _, [] => level
  | level, true, '\\' :: _ :: rest => deepest level true rest
  | level, true, c :: rest => deepest level (c != '"') rest
  | level, false, c :: rest =>
    if c = '[' ∨ c = '\x7b' then deepest (level + 1) false rest
    else if c = ']' ∨ c = '\x7d' then max level (deepest (level - 1) false rest)
    else deepest level (c == '"') rest

/-- How deep the arrays and objects of a JSON text nest. -/
def depth (text : String) : Nat := deepest 0 false text.toList

end Json
end CapLisp
