/-
# Strings in JSON

A JSON string is written between quotes.  `encode` writes a quote, a backslash
and the control characters below U+0020 as escapes and every other character
raw.  `decode` reads what stands between the quotes.

| escape | character |
| --- | --- |
| `\"`, `\\`, `\/` | the sign itself |
| `\b`, `\f`, `\n`, `\r`, `\t` | U+0008, U+000C, U+000A, U+000D, U+0009 |
| `\u` and four hexadecimal digits | the UTF-16 unit of that number |

A unit from the range of surrogates counts only as half of a pair: a high one
is followed at once by the escape of a low one.
-/

namespace CapLisp
namespace Json
namespace Text

/-- The value of a hexadecimal digit. -/
def hexValue? (c : Char) : Option Nat :=
  if '0' ≤ c ∧ c ≤ '9' then some (c.toNat - '0'.toNat)
  else if 'a' ≤ c ∧ c ≤ 'f' then some (c.toNat - 'a'.toNat + 10)
  else if 'A' ≤ c ∧ c ≤ 'F' then some (c.toNat - 'A'.toNat + 10)
  else none

/-- The value of four hexadecimal digits. -/
def unit? (a b c d : Char) : Option Nat := do
  let a ← hexValue? a
  let b ← hexValue? b
  let c ← hexValue? c
  let d ← hexValue? d
  return ((a * 16 + b) * 16 + c) * 16 + d

/-- Tells whether a unit is the first half of a surrogate pair. -/
def isHigh (u : Nat) : Bool := 0xD800 ≤ u && u < 0xDC00

/-- Tells whether a unit is the second half of a surrogate pair. -/
def isLow (u : Nat) : Bool := 0xDC00 ≤ u && u < 0xE000

/-- The character that a surrogate pair stands for. -/
def pair (high low : Nat) : Char :=
  Char.ofNat (0x10000 + (high - 0xD800) * 0x400 + (low - 0xDC00))

/-- The character that a backslash before `c` stands for. -/
def simple? (c : Char) : Option Char :=
  if c = '"' ∨ c = '\\' ∨ c = '/' then some c
  else if c = 'b' then some (Char.ofNat 8)
  else if c = 'f' then some (Char.ofNat 12)
  else if c = 'n' then some '\n'
  else if c = 'r' then some '\r'
  else if c = 't' then some '\t'
  else none

/-- The hexadecimal digit of a number below sixteen, in lower case. -/
def hexDigit (n : Nat) : Char := Nat.digitChar n

/-- How a character stands in a JSON string. -/
def escape (c : Char) : List Char :=
  if c = '"' then ['\\', '"']
  else if c = '\\' then ['\\', '\\']
  else if c = Char.ofNat 8 then ['\\', 'b']
  else if c = Char.ofNat 12 then ['\\', 'f']
  else if c = '\n' then ['\\', 'n']
  else if c = '\r' then ['\\', 'r']
  else if c = '\t' then ['\\', 't']
  else if c.toNat < 32 then ['\\', 'u', '0', '0', hexDigit (c.toNat / 16), hexDigit (c.toNat % 16)]
  else [c]

/-- What stands between the quotes for the given characters. -/
def encode (chars : List Char) : List Char := chars.flatMap escape

/-- The characters that the text between the quotes stands for, if it is well
formed.  A high surrogate waits in `pending` for its other half. -/
def decode : List Char → (pending : Option Nat) → Option (List Char)
  | [], none => some []
  | [], some _ => none
  | '\\' :: 'u' :: a :: b :: c :: d :: rest, pending => do
    let u ← unit? a b c d
    match pending with
    | some high => if isLow u then (decode rest none).map (pair high u :: ·) else none
    | none =>
      if isHigh u then decode rest (some u)
      else if isLow u then none
      else (decode rest none).map (Char.ofNat u :: ·)
  | '\\' :: c :: rest, none => do
    let d ← simple? c
    (decode rest none).map (d :: ·)
  | c :: rest, none => if c = '\\' ∨ c.toNat < 32 then none else (decode rest none).map (c :: ·)
  | _ :: _, some _ => none

end Text
end Json
end CapLisp
