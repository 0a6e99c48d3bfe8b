/-
# Tokens of the reader

The reader works on what is left of the text, a list of characters.  A token
function takes its characters off the front.

| token | spelling |
| --- | --- |
| atom | an ASCII letter or one of `!$%&*+-./<=>?@^_~`, then atom characters |
| keyword | a colon, then one or more atom characters |
| number | an optional sign and digits |
| boolean | `#t` or `#f` |
| string | characters between quotes, with five escapes |

Atom characters are the characters that start an atom, digits and the colon.
Numbers and booleans must end before a character that is neither an atom
character nor `#`; where one does not, the characters are not that token.
Between tokens stand blanks (space, tab, carriage return, line feed) and, where
comments are read, `;` up to the end of the line and `#|` up to the next `|#`.
A block that is never closed is not skipped.
-/

import CapLisp.Decimal
import CapLisp.Literal
import CapLisp.Number
import CapLisp.Value.Basic

namespace CapLisp
namespace Reader

/-- What stops the reader. -/
inductive Fault where
  | unexpected | unknownEscape | numberRange | oddDict | tooDeep
  deriving DecidableEq, Repr

/-- Where the reader stopped: the fault and what was left of the text there. -/
structure Stop where
  fault : Fault
  rest : List Char
  deriving DecidableEq, Repr

/-- The outcome of reading something: it, and what is left of the text. -/
abbrev Outcome (α : Type) := Except Stop (α × List Char)

/-- Goes on with what was read and what is left of the text. -/
def Outcome.andThen {α β : Type} (outcome : Outcome α) (next : α → List Char → Outcome β) :
    Outcome β :=
  match outcome with
  | .ok (value, rest) => next value rest
  | .error stop => .error stop

/-- The characters besides letters that start an atom. -/
def atomSpecials : String := "!$%&*+-./<=>?@^_~"

/-- Tells whether a character starts an atom. -/
def isAtomStart (c : Char) : Bool := c.isAlpha || atomSpecials.toList.contains c

/-- Tells whether a character can stand inside an atom. -/
def isAtomChar (c : Char) : Bool := isAtomStart c || c.isDigit || c == ':'

/-- Tells whether a character is a blank. -/
def isBlank (c : Char) : Bool := c == ' ' || c == '\t' || c == '\r' || c == '\n'

/-- What is being skipped between tokens.  An open block remembers the text that
it began at. -/
inductive Gap where
  | blank
  | line
  | block (start : List Char)

/-- What is left after the blanks and comments at the front. -/
def skip (comments : Bool) : List Char → Gap → List Char
  | [], .block start => start
  | [], _ => []
  | '|' :: '#' :: rest, .block _ => skip comments rest .blank
  | _ :: rest, .block start => skip comments rest (.block start)
  | c :: rest, .line => skip comments rest (if c = '\n' then .blank else .line)
  | '#' :: '|' :: rest, .blank =>
    if comments then skip comments rest (.block ('#' :: '|' :: rest)) else '#' :: '|' :: rest
  | c :: rest, .blank =>
    if isBlank c then skip comments rest .blank
    else if comments && c == ';' then skip comments rest .line
    else c :: rest

/-- Tells whether a number or boolean may end before `rest`. -/
def endsToken : List Char → Bool
  | [] => true
  | c :: _ => !(isAtomChar c || c == '#')

/-- The number at the front, if there is one; a number out of range is a fault. -/
def number? (text : List Char) : Option (Outcome Value) :=
  let (negative, body) :=
    match text with
    | '-' :: rest => (true, rest)
    | '+' :: rest => (false, rest)
    | _ => (false, text)
  let digits := body.takeWhile Char.isDigit
  let rest := body.dropWhile Char.isDigit
  if digits.isEmpty || !endsToken rest then none
  else
    let size : Int := Decimal.natOf digits
    match Number.ofInt? (if negative then -size else size) with
    | some n => some (.ok (.number n, rest))
    | none => some (.error ⟨.numberRange, text⟩)

/-- The boolean at the front, if there is one. -/
def bool? : List Char → Option (Value × List Char)
  | '#' :: 't' :: rest => if endsToken rest then some (.bool true, rest) else none
  | '#' :: 'f' :: rest => if endsToken rest then some (.bool false, rest) else none
  | _ => none

/-- The atom at the front, if there is one. -/
def atom? : List Char → Option (Value × List Char)
  | [] => none
  | c :: rest =>
    if isAtomStart c then
      some (.atom (String.ofList (c :: rest.takeWhile isAtomChar)), rest.dropWhile isAtomChar)
    else none

/-- The keyword whose colon has been read. -/
def keyword (text : List Char) : Outcome Value :=
  let name := text.takeWhile isAtomChar
  if name.isEmpty then .error ⟨.unexpected, text⟩
  else .ok (.keyword (String.ofList name), text.dropWhile isAtomChar)

/-- The characters of a string up to its closing quote. -/
def stringBody : List Char → Outcome (List Char)
  | [] => .error ⟨.unexpected, []⟩
  | '"' :: rest => .ok ([], rest)
  | ['\\'] => .error ⟨.unexpected, []⟩
  | '\\' :: c :: rest =>
    match Literal.unescaped c with
    | some d => (stringBody rest).andThen fun tail left => .ok (d :: tail, left)
    | none => .error ⟨.unknownEscape, '\\' :: c :: rest⟩
  | c :: rest => (stringBody rest).andThen fun tail left => .ok (c :: tail, left)

end Reader
end CapLisp
