/-
# Reading JSON

The reader of the shipped program accepts strict JSON: no comments, no trailing
commas, no leading zeros or plus signs, and nothing but blanks around the one
tree.  A string holds no raw control character below U+0020, and every escape in
it is complete.  Nesting is not limited here.
-/

import CapLisp.Json.Basic

namespace CapLisp
namespace Json
namespace Reader

/-- Tells whether a character is a blank between tokens. -/
def isBlank (c : Char) : Bool := c == ' ' || c == '\n' || c == '\t' || c == '\r'

/-- What is left after the blanks at the front. -/
def skip (text : List Char) : List Char := text.dropWhile isBlank

/-- The text after `word`, which must be at the front. -/
def after? (word : List Char) (text : List Char) : Option (List Char) :=
  match word, text with
  | [], text => some text
  | _ :: _, [] => none
  | c :: word, d :: text => if c = d then after? word text else none

/-- The run of digits at the front, at least one. -/
def digits? (text : List Char) : Option (List Char × List Char) :=
  let digits := text.takeWhile Char.isDigit
  if digits.isEmpty then none else some (digits, text.dropWhile Char.isDigit)

/-- The digits of a whole part: a zero, or a run that does not start with one. -/
def whole? : List Char → Option (List Char × List Char)
  | '0' :: rest => some (['0'], rest)
  | text => digits? text

/-- The fraction at the front, or nothing. -/
def fraction? : List Char → Option (List Char × List Char)
  | '.' :: rest => (digits? rest).map fun (digits, rest) => ('.' :: digits, rest)
  | text => some ([], text)

/-- The sign at the front, or nothing. -/
def sign : List Char → List Char × List Char
  | '+' :: rest => (['+'], rest)
  | '-' :: rest => (['-'], rest)
  | text => ([], text)

/-- The exponent at the front, or nothing. -/
def exponent? : List Char → Option (List Char × List Char)
  | [] => some ([], [])
  | c :: rest =>
    if c = 'e' ∨ c = 'E' then
      (digits? (sign rest).2).map fun (digits, left) => (c :: ((sign rest).1 ++ digits), left)
    else some ([], c :: rest)

/-- The number literal at the front. -/
def number? (text : List Char) : Option (List Char × List Char) := do
  let (minus, rest) := match text with
    | '-' :: rest => (['-'], rest)
    | text => ([], text)
  let (whole, rest) ← whole? rest
  let (fraction, rest) ← fraction? rest
  let (exponent, rest) ← exponent? rest
  return (minus ++ whole ++ fraction ++ exponent, rest)

/-- The text up to the closing quote. -/
def string? : List Char → Option (List Char × List Char)
  | [] => none
  | '"' :: rest => some ([], rest)
  | '\\' :: 'u' :: a :: b :: c :: d :: rest =>
    if (Text.unit? a b c d).isSome then
      (string? rest).map fun (tail, left) => ('\\' :: 'u' :: a :: b :: c :: d :: tail, left)
    else none
  | '\\' :: c :: rest =>
    if (Text.simple? c).isSome then (string? rest).map fun (tail, left) => ('\\' :: c :: tail, left)
    else none
  | c :: rest =>
    if c = '\\' ∨ c.toNat < 32 then none
    else (string? rest).map fun (tail, left) => (c :: tail, left)

mutual

/-- The tree at the front.  The first argument bounds the number of steps. -/
def value? : Nat → List Char → Option (Json × List Char)
  | 0, _ => none
  | bound + 1, text =>
    match skip text with
    | [] => none
    | c :: rest =>
      if c = '\x7b' then
        match skip rest with
        | '\x7d' :: left => some (.object [], left)
        | left => (members? bound left).map fun (members, left) => (.object members, left)
      else if c = '[' then
        match skip rest with
        | ']' :: left => some (.array [], left)
        | left => (items? bound left).map fun (items, left) => (.array items, left)
      else if c = '"' then (string? rest).map fun (literal, left) => (.string literal, left)
      else if c = 't' then (after? ['r', 'u', 'e'] rest).map fun left => (.bool true, left)
      else if c = 'f' then (after? ['a', 'l', 's', 'e'] rest).map fun left => (.bool false, left)
      else if c = 'n' then (after? ['u', 'l', 'l'] rest).map fun left => (.null, left)
      else (number? (c :: rest)).map fun (literal, left) => (.number literal, left)

/-- The elements up to the closing bracket, at least one. -/
def items? : Nat → List Char → Option (List Json × List Char)
  | 0, _ => none
  | bound + 1, text => do
    let (item, rest) ← value? bound text
    match skip rest with
    | ',' :: rest => (items? bound rest).map fun (items, left) => (item :: items, left)
    | ']' :: left => some ([item], left)
    | _ => none

/-- The members up to the closing brace, at least one. -/
def members? : Nat → List Char → Option (List (List Char × Json) × List Char)
  | 0, _ => none
  | bound + 1, text => do
    let rest ← after? ['"'] (skip text)
    let (name, rest) ← string? rest
    let rest ← after? [':'] (skip rest)
    let (value, rest) ← value? bound rest
    match skip rest with
    | ',' :: rest =>
      (members? bound rest).map fun (members, left) => ((name, value) :: members, left)
    | '\x7d' :: left => some ([(name, value)], left)
    | _ => none

end

end Reader

/-- The tree of a text, if it is strict JSON. -/
def parse? (text : String) : Option Json := do
  let chars := text.toList
  let (tree, rest) ← Reader.value? (2 * chars.length + 1) chars
  if (Reader.skip rest).isEmpty then some tree else none

end Json
end CapLisp
