/-
# The range of numbers

A number literal stands for a binary floating-point number of 53 significant
bits, and a literal beyond the largest of them stands for none.  A literal is
taken as a significand below `2 ^ 64` times a power of ten:

| digits | effect |
| --- | --- |
| of the whole part, while they fit | extend the significand |
| of the whole part, from the first that does not fit | raise the exponent by one each |
| of the fraction, while they fit | extend the significand and lower the exponent by one each |
| of the fraction, from the first that does not fit | none |

The significand and the power of ten are rounded to 53 bits each, and so is
their product.  A product is out of range from the number halfway between the
largest floating-point number and the next power of two.
-/

import CapLisp.Decimal

namespace CapLisp
namespace Json

/-- The number `significand * 10 ^ exponent`. -/
structure Scientific where
  significand : Nat
  exponent : Int

namespace Scientific

/-- The significand with one more digit, if that fits in 64 bits. -/
def extend? (significand : Nat) (digit : Char) : Option Nat :=
  let next := significand * 10 + (digit.toNat - '0'.toNat)
  if next < UInt64.size then some next else none

/-- Takes in the digits of the whole part. -/
def addWhole : List Char → Scientific → Scientific
  | [], s => s
  | digit :: rest, s =>
    match extend? s.significand digit with
    | some next => addWhole rest ⟨next, s.exponent⟩
    | none => ⟨s.significand, s.exponent + (rest.length + 1)⟩

/-- Takes in the digits of the fraction. -/
def addFraction : List Char → Scientific → Scientific
  | [], s => s
  | digit :: rest, s =>
    match extend? s.significand digit with
    | some next => addFraction rest ⟨next, s.exponent - 1⟩
    | none => s

/-- The power of ten that the exponent of a literal names. -/
def powerOf : List Char → Int
  | [] => 0
  | _ :: '-' :: digits => -(Decimal.natOf digits : Int)
  | _ :: '+' :: digits => Decimal.natOf digits
  | _ :: digits => Decimal.natOf digits

/-- The magnitude of the number that a literal without its sign stands for. -/
def ofUnsigned (text : List Char) : Scientific :=
  let whole := addWhole (text.takeWhile Char.isDigit) ⟨0, 0⟩
  match text.dropWhile Char.isDigit with
  | '.' :: rest =>
    let s := addFraction (rest.takeWhile Char.isDigit) whole
    ⟨s.significand, s.exponent + powerOf (rest.dropWhile Char.isDigit)⟩
  | rest => ⟨whole.significand, whole.exponent + powerOf rest⟩

/-- The magnitude of the number that a literal stands for. -/
def ofLiteral : List Char → Scientific
  | '-' :: text => ofUnsigned text
  | text => ofUnsigned text

/-- The nearest number of 53 significant bits; of two the even one. -/
def nearest (n : Nat) : Nat :=
  let unit := 1 <<< (n.log2 + 1 - 53)
  let quotient := n / unit
  let rest := 2 * (n % unit)
  if unit < rest ∨ unit = rest ∧ quotient % 2 = 1 then (quotient + 1) * unit
  else quotient * unit

/-- The least number that rounds to none of the finite ones. -/
def overflow : Nat := 1 <<< 1024 - 1 <<< 970

/-- The largest power of ten that a number is multiplied with. -/
def maxExponent : Int := 308

/-- Tells whether the number is in range. -/
def isFinite (s : Scientific) : Bool :=
  s.significand == 0 || s.exponent < 0 ||
    s.exponent ≤ maxExponent &&
      nearest s.significand * nearest (Nat.pow 10 s.exponent.toNat) < overflow

end Scientific

/-- Tells whether the number that a literal stands for is in range. -/
def isInRange (literal : List Char) : Bool := (Scientific.ofLiteral literal).isFinite

end Json
end CapLisp
