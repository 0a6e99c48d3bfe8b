/-
# Errors

An error is a cause.  Its kind, the operation it came from (its label) and its
message are read off the cause.

| kind | raised by |
| --- | --- |
| `Parse` | the reader |
| `SpecialForm` | a special form that is not well formed |
| `WrongNumberArgs`, `Type` | a signature check |
| `PatternMatch` | host procedures |
| `NonFunctionCalled`, `UnknownIdentifier` | application and look-up |
| `Impossible` | a broken invariant, such as a dangling reference |
| `InvalidDeclaration`, `UndefinedExports` | the `module` form |
| `Other` | a failing operation |
| `Thrown` | the `throw` primitive |
-/

import CapLisp.Signature
import CapLisp.Value.Text

namespace CapLisp

/-- The ways in which reading fails. -/
inductive ReadErrorKind where
  | invalidSyntax | incomplete | tooDeeplyNested | trailingContent
  deriving DecidableEq, Repr

namespace ReadErrorKind

/-- The name of a reading failure. -/
def name : ReadErrorKind → String
  | invalidSyntax => "InvalidSyntax"
  | incomplete => "Incomplete"
  | tooDeeplyNested => "TooDeeplyNested"
  | trailingContent => "TrailingContent"

end ReadErrorKind

/-- A reading failure, with the start of the text that could not be read. -/
structure ReadError where
  kind : ReadErrorKind
  message : String
  context : Option String
  deriving DecidableEq, Repr

namespace ReadError

/-- The most characters that a context shows. -/
def maxContext : Nat := 40

/-- The context of a failure before `rest`: its first characters, each line feed
as a backslash and an n. -/
def contextOf (rest : List Char) : String :=
  String.ofList ((rest.take maxContext).flatMap fun c => if c = '\n' then ['\\', 'n'] else [c])

/-- What follows the first `offset` bytes of the UTF-8 form of a text; nothing
if the offset is past the end or inside a character. -/
def afterBytes (offset : Nat) : List Char → List Char
  | [] => []
  | c :: rest =>
    if offset = 0 then c :: rest
    else if c.utf8Size ≤ offset then afterBytes (offset - c.utf8Size) rest
    else []

/-- The failure with the context at a byte offset of a text. -/
def withContext (input : String) (offset : Nat) (e : ReadError) : ReadError :=
  { e with context := some (contextOf (afterBytes offset input.toList)) }

/-- The message of a reading failure, with its context. -/
def text (e : ReadError) : String :=
  match e.context with
  | none => e.message
  | some context => e.message ++ " near '" ++ context ++ "'"

end ReadError

/-- What is wrong with a special form. -/
inductive FormFault where
  | missingBody
  | paramsNotVector
  | paramNotAtom
  | duplicateParam (name : String)
  | targetNotAtom
  | aliasedFunction
  | notAFunction

namespace FormFault

/-- The message of a fault. -/
def message : FormFault → String
  | missingBody => "need an argument vector and a body"
  | paramsNotVector => "first argument must be a vector of argument atoms"
  | paramNotAtom => "one of the arguments was not an atom"
  | duplicateParam name => "duplicate parameter name: " ++ name
  | targetNotAtom => "expects atom for first arg"
  | aliasedFunction => "cannot be used to alias functions"
  | notAFunction => "can only be used to define functions"

end FormFault

/-- What is wrong with the metadata of a module. -/
inductive MetadataFault where
  | notDict
  | missing (key : String)
  | wrongKind (key : String) (kind : Kind)
  | exportNotAtom

namespace MetadataFault

/-- The message of a fault. -/
def message : MetadataFault → String
  | notDict => "must be dict"
  | missing key => "missing :" ++ key ++ " key"
  | wrongKind key kind =>
    ":" ++ key ++ " must be " ++ (if kind = .atom then "an " else "a ") ++ kind.name
  | exportNotAtom => ":exports must be a vector of atoms"

end MetadataFault

/-- An invariant that does not hold. -/
inductive Breach where
  | unknownPrimitive (name : String)
  | danglingReference (op : String) (index : UInt64)
  | referenceOrder (index : UInt64) (expected : Nat)

namespace Breach

/-- The operation that found the breach. -/
def label : Breach → String
  | unknownPrimitive name => name
  | danglingReference op _ => op
  | referenceOrder _ _ => "decode"

/-- The message of a breach. -/
def message : Breach → String
  | unknownPrimitive _ => "primitive is not in the capability table"
  | danglingReference _ index => "undefined reference " ++ Decimal.textOfNat index.toNat
  | referenceOrder index expected =>
    "reference index " ++ Decimal.textOfNat index.toNat ++ " out of order, expected " ++
      Decimal.textOfNat expected

end Breach

/-- An operation that cannot be carried out on its arguments. -/
inductive Failure where
  | depthLimit (limit : Nat)
  | negativeIndex (op : String) (n : Int64)
  | emptySequence (op : String)
  | lengthRange
  | shortTake (count length : Nat)
  | shortDrop (count length : Nat)
  | indexRange (index length : Nat)
  | missingKey (key : Value)
  | overflow (op : String) (operation : String)
  | malformedEnvelope (message : String := "malformed envelope")
  | hostStack

namespace Failure

/-- The operation that failed. -/
def label : Failure → String
  | depthLimit _ => "eval"
  | negativeIndex op _ => op
  | emptySequence op => op
  | lengthRange => "length"
  | shortTake _ _ => "take"
  | shortDrop _ _ => "drop"
  | indexRange _ _ => "nth"
  | missingKey _ => "lookup"
  | overflow op _ => op
  | malformedEnvelope _ => "wire"
  | hostStack => "host"

/-- The message of a failure. -/
def message : Failure → String
  | depthLimit limit => "evaluation depth limit exceeded (max: " ++ Decimal.textOfNat limit ++ ")"
  | negativeIndex _ n => "negative index " ++ Decimal.textOfInt n.toInt
  | emptySequence _ => "empty sequence"
  | lengthRange => "length exceeds the number range"
  | shortTake count length =>
    "cannot take " ++ Decimal.textOfNat count ++ " from " ++ Decimal.textOfNat length ++ " elements"
  | shortDrop count length =>
    "cannot drop " ++ Decimal.textOfNat count ++ " from " ++ Decimal.textOfNat length ++ " elements"
  | indexRange index length =>
    "index " ++ Decimal.textOfNat index ++ " out of range for length " ++ Decimal.textOfNat length
  | missingKey key => "key " ++ key.text ++ " not found"
  | overflow _ operation => "integer overflow in " ++ operation
  | malformedEnvelope message => message
  | hostStack => "no stack left for an application"

end Failure

/-- The kinds of errors, for hosts that branch on them. -/
inductive ErrorKind where
  | parse | specialForm | wrongNumberArgs | type | patternMatch | nonFunctionCalled
  | unknownIdentifier | impossible | invalidDeclaration | undefinedExports | other | thrown
  deriving DecidableEq, Repr

namespace ErrorKind

/-- The name of an error kind. -/
def name : ErrorKind → String
  | parse => "Parse"
  | specialForm => "SpecialForm"
  | wrongNumberArgs => "WrongNumberArgs"
  | type => "Type"
  | patternMatch => "PatternMatch"
  | nonFunctionCalled => "NonFunctionCalled"
  | unknownIdentifier => "UnknownIdentifier"
  | impossible => "Impossible"
  | invalidDeclaration => "InvalidDeclaration"
  | undefinedExports => "UndefinedExports"
  | other => "Other"
  | thrown => "Thrown"

end ErrorKind

/-- Why reading, decoding or evaluating ended without a value. -/
inductive Error where
  | read (error : ReadError)
  | malformedForm (form : String) (fault : FormFault)
  | wrongNumberArgs (op : String) (expected actual : Nat)
  | wrongKind (op : String) (expected : ArgKind) (actual : Kind)
  | patternMatch (op : String) (message : String)
  | notAFunction (v : Value)
  | unknownIdentifier (name : String)
  | impossible (breach : Breach)
  | invalidDeclaration (fault : MetadataFault) (metadata : Value)
  | undefinedExports (names : List String)
  | failed (failure : Failure)
  | thrown (label : String) (payload : Value)

namespace Error

/-- The kind of an error. -/
def kind : Error → ErrorKind
  | read _ => .parse
  | malformedForm _ _ => .specialForm
  | wrongNumberArgs _ _ _ => .wrongNumberArgs
  | wrongKind _ _ _ => .type
  | patternMatch _ _ => .patternMatch
  | notAFunction _ => .nonFunctionCalled
  | unknownIdentifier _ => .unknownIdentifier
  | impossible _ => .impossible
  | invalidDeclaration _ _ => .invalidDeclaration
  | undefinedExports _ => .undefinedExports
  | failed _ => .other
  | thrown _ _ => .thrown

/-- The operation that an error came from, where one is known. -/
def label : Error → Option String
  | read _ => none
  | malformedForm form _ => some form
  | wrongNumberArgs op _ _ => some op
  | wrongKind op _ _ => some op
  | patternMatch op _ => some op
  | notAFunction _ => none
  | unknownIdentifier _ => none
  | impossible breach => some breach.label
  | invalidDeclaration _ _ => some "module"
  | undefinedExports _ => some "module"
  | failed failure => some failure.label
  | thrown label _ => some label

/-- The text of an error. -/
def message : Error → String
  | read error => "ParseError: " ++ error.text
  | malformedForm form fault => "SpecialForm(" ++ form ++ "): " ++ fault.message
  | wrongNumberArgs op expected actual =>
    "WrongNumberArgs(" ++ op ++ "): expected " ++ Decimal.textOfNat expected ++
      " but got " ++ Decimal.textOfNat actual
  | wrongKind op expected actual =>
    "TypeError(" ++ op ++ "): expected " ++ expected.text ++ " but got " ++ actual.name
  | patternMatch op message => "PatternMatch(" ++ op ++ "): " ++ message
  | notAFunction v => "NonFunctionCalled: " ++ v.text
  | unknownIdentifier name => "UnknownIdentifier: " ++ name
  | impossible breach => "Impossible(" ++ breach.label ++ "): " ++ breach.message
  | invalidDeclaration fault metadata =>
    "InvalidDeclaration: " ++ fault.message ++ " in " ++ metadata.text
  | undefinedExports names => "UndefinedExports: " ++ ", ".intercalate names
  | failed failure => "Other(" ++ failure.label ++ "): " ++ failure.message
  | thrown label payload => "Thrown(" ++ label ++ "): " ++ payload.text

end Error

namespace Arity

/-- Refuses a count of arguments that does not fit. -/
def validate (op : String) (count : Nat) (arity : Arity) : Except Error Unit :=
  if arity.accepts count then .ok ()
  else .error (.wrongNumberArgs op (arity.expected count) count)

end Arity

namespace Signature

/-- Refuses the first argument that is not of its kind. -/
def checkKinds (op : String) : List ArgKind → List Value → Except Error Unit
  | expected :: kinds, arg :: args =>
    if expected.accepts arg then checkKinds op kinds args
    else .error (.wrongKind op expected arg.kind)
  | _, _ => .ok ()

/-- Checks the number of arguments, then their kinds. -/
def check (op : String) (args : List Value) (signature : Signature) : Except Error Unit := do
  signature.arity.validate op args.length
  checkKinds op signature.kinds args

end Signature
end CapLisp
