/-
# Envelopes as documents

An envelope is shipped as a map with a member `type`, its tag, and a member
`value`, its content; a null envelope has no content.

| tag | content |
| --- | --- |
| `atom`, `keyword`, `string`, `primFn` | a string |
| `boolean` | a boolean |
| `number`, `ref` | a whole number of 64 bits, signed or unsigned |
| `list`, `vector` | an array of envelopes |
| `dict` | an array of pairs of envelopes |
| `lambda` | a map with `params`, `bodies` and `env` |
| `lambdaRec` | a map with `self` and `lambda` |
| `env` | an array of pairs of a name and an envelope |
| `state` | a map with `env` and `refs`, pairs of an index and an envelope |
-/

import CapLisp.Json.Document
import CapLisp.Wire.Envelope

namespace CapLisp
namespace Envelope

/-- The tags of envelopes. -/
inductive Tag where
  | atom | keyword | string | boolean | number | null | list | vector | dict
  | primFn | ref | lambda | lambdaRec | env | state
  deriving DecidableEq, Repr

/-- The spelling of a tag. -/
def Tag.name : Tag → String
  | atom => "atom"
  | keyword => "keyword"
  | string => "string"
  | boolean => "boolean"
  | number => "number"
  | null => "null"
  | list => "list"
  | vector => "vector"
  | dict => "dict"
  | primFn => "primFn"
  | ref => "ref"
  | lambda => "lambda"
  | lambdaRec => "lambdaRec"
  | env => "env"
  | state => "state"

/-- The map with a tag and its content. -/
def tagged (tag : Tag) (content : Document) : Document :=
  .object [("type", .string tag.name), ("value", content)]

/-- The map with the parts of a closure. -/
def closure (params : List String) (bodies scope : List Document) : Document :=
  .object [("params", .array (params.map .string)), ("bodies", .array bodies),
    ("env", .array scope)]

mutual

/-- The document of an envelope. -/
def document : Envelope → Document
  | atom name => tagged .atom (.string name)
  | keyword name => tagged .keyword (.string name)
  | string text => tagged .string (.string text)
  | boolean b => tagged .boolean (.bool b)
  | number n => tagged .number (.number n.toInt)
  | null => .object [("type", .string Tag.null.name)]
  | list items => tagged .list (.array (documents items))
  | vector items => tagged .vector (.array (documents items))
  | dict entries => tagged .dict (.array (entryDocuments entries))
  | primFn name => tagged .primFn (.string name)
  | ref index => tagged .ref (.number index.toNat)
  | lambda params bodies scope =>
    tagged .lambda (closure params (documents bodies) (bindingDocuments scope))
  | lambdaRec name params bodies scope =>
    tagged .lambdaRec (.object [
      ("self", .string name),
      ("lambda", closure params (documents bodies) (bindingDocuments scope))])
  | env bindings => tagged .env (.array (bindingDocuments bindings))
  | state bindings refs =>
    tagged .state (.object [
      ("env", .array (bindingDocuments bindings)),
      ("refs", .array (slotDocuments refs))])
termination_by structural e => e

/-- The documents of the elements. -/
def documents : List Envelope → List Document
  | [] => []
  | item :: rest => document item :: documents rest
termination_by structural items => items

/-- The pairs of keys and values. -/
def entryDocuments : List (Envelope × Envelope) → List Document
  | [] => []
  | (key, value) :: rest => .array [document key, document value] :: entryDocuments rest
termination_by structural entries => entries

/-- The pairs of names and values. -/
def bindingDocuments : List (String × Envelope) → List Document
  | [] => []
  | (name, value) :: rest => .array [.string name, document value] :: bindingDocuments rest
termination_by structural bindings => bindings

/-- The pairs of indices and values. -/
def slotDocuments : List (UInt64 × Envelope) → List Document
  | [] => []
  | (index, value) :: rest =>
    .array [.number index.toNat, document value] :: slotDocuments rest
termination_by structural slots => slots

end

end Envelope
end CapLisp
