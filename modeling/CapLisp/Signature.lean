/-
# Signatures of primitives

A signature says how many arguments a primitive takes and of which kinds.
Both are checked before the primitive runs: the count first, then the kinds
from left to right.  Positions past the end of the kinds are not checked.
-/

import CapLisp.Decimal
import CapLisp.Sequence

namespace CapLisp

/-- How many arguments an operation takes. -/
inductive Arity where
  | exact (n : Nat)
  | atLeast (n : Nat)
  | any
  | even
  deriving DecidableEq, Repr

namespace Arity

/-- Tells whether a count of arguments fits. -/
def accepts (count : Nat) : Arity → Bool
  | exact n => count == n
  | atLeast n => n ≤ count
  | any => true
  | even => count % 2 == 0

/-- The count that is asked for where `count` does not fit. -/
def expected (count : Nat) : Arity → Nat
  | exact n => n
  | atLeast n => n
  | any => count
  | even => count + 1

/-- The inspected form of an arity. -/
def inspect : Arity → String
  | exact n => "Exact(" ++ Decimal.textOfNat n ++ ")"
  | atLeast n => "AtLeast(" ++ Decimal.textOfNat n ++ ")"
  | any => "Any"
  | even => "Even"

end Arity

namespace Kind

/-- The inspected form of a kind. -/
def inspect : Kind → String
  | atom => "Atom"
  | keyword => "Keyword"
  | string => "String"
  | number => "Number"
  | boolean => "Boolean"
  | null => "Null"
  | list => "List"
  | vector => "Vector"
  | dict => "Dict"
  | lambda => "Lambda"
  | lambdaRec => "LambdaRec"
  | primFn => "PrimFn"
  | ref => "Ref"
  | env => "Env"
  | state => "State"

end Kind

/-- What is asked of one argument. -/
inductive ArgKind where
  | any
  | is (kind : Kind)
  | sequence
  | listLike
  deriving DecidableEq, Repr

namespace ArgKind

/-- Tells whether a value is of the kind asked for.  Lists and vectors are list
like; strings are sequences too. -/
def accepts (v : Value) : ArgKind → Bool
  | any => true
  | is kind => v.kind == kind
  | sequence => v.sequence?.isSome
  | listLike => v.kind == .list || v.kind == .vector

/-- The words for a kind in messages. -/
def text : ArgKind → String
  | any => "any"
  | is kind => kind.name
  | sequence => "sequence"
  | listLike => "list or vector"

/-- The inspected form of an argument kind. -/
def inspect : ArgKind → String
  | any => "Any"
  | is kind => "Is(" ++ kind.inspect ++ ")"
  | sequence => "Sequence"
  | listLike => "ListLike"

end ArgKind

/-- The arguments that a primitive takes. -/
structure Signature where
  arity : Arity
  kinds : List ArgKind

end CapLisp
