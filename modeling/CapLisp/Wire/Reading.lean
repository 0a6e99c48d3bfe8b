/-
# Reading envelopes from JSON

How the library of the shipped program reads the envelope from the tree of a
text.  It accepts more spellings than those of an envelope's document: the two
members in either order, the pair `[type, value]`, a member `type` that is an
object from the tag to null, a `lambda` as the array of its three parts, and
members of other names, which are not looked at.  Arrays and objects nest only
so deep, not counting what is never looked at.

Content that stands before its tag is recorded and read once the tag is known.
Recording looks at all of it, other members included: every literal must stand
for something, and all of the nesting counts.  What was recorded is read with
two more spellings of a tag: the number of the tag in the place of a pair's
tag, and an empty object in the place of null.
-/

import CapLisp.Number
import CapLisp.Wire.Document

namespace CapLisp
namespace Envelope

namespace Tag

/-- Every tag, in the order of their numbers. -/
def all : List Tag :=
  [atom, keyword, string, boolean, number, null, list, vector, dict,
    primFn, ref, lambda, lambdaRec, env, state]

/-- The tag with the given spelling. -/
def ofName? (name : String) : Option Tag := all.find? (·.name == name)

/-- The spelling of a tag names it. -/
theorem ofName?_name (tag : Tag) : ofName? tag.name = some tag := by cases tag <;> decide

end Tag

/-- How a tree is read: directly, with `room` levels of nesting left, or
from a recording. -/
inductive Mode where
  | direct (room : Nat)
  | recorded

namespace Mode

/-- The mode inside an array or object. -/
def inside? : Mode → Option Mode
  | direct 0 => none
  | direct (room + 1) => some (direct room)
  | recorded => some recorded

/-- The mode for content that is recorded before it is read. -/
def record? (content : Json) : Mode → Option Mode
  | direct room => if content.isSound && content.nesting ≤ room then some recorded else none
  | recorded => some recorded

end Mode

/-- The tag that the first element of a pair spells. -/
def pairTag? : Mode → Json → Option Tag
  | _, .string literal => do Tag.ofName? (← Json.textOf? literal)
  | .recorded, .number literal => do
    let index ← Json.intOf? literal
    if 0 ≤ index then Tag.all[index.toNat]? else none
  | _, _ => none

/-- The tag that a member `type` spells. -/
def memberTag? : Mode → Json → Option Tag
  | _, .string literal => do Tag.ofName? (← Json.textOf? literal)
  | mode, .object [(name, .null)] => do
    let _ ← mode.inside?
    Tag.ofName? (← Json.textOf? name)
  | .recorded, .object [(name, .object [])] => do Tag.ofName? (← Json.textOf? name)
  | _, _ => none

/-- The names of the members, if all of them denote texts. -/
def names? (members : List (List Char × Json)) : Option (List String) :=
  members.mapM fun member => Json.textOf? member.1

/-- Tells whether each field is the name of exactly one member. -/
def hasFields (fields : List String) (members : List (List Char × Json)) : Bool :=
  match names? members with
  | some names => fields.all fun field => names.count field == 1
  | none => false

/-- The first member whose name denotes `field`. -/
def field? (field : String) (members : List (List Char × Json)) : Option Json :=
  (members.find? fun member => Json.textOf? member.1 == some field).map (·.2)

/-- The tag among the members of an envelope, and whether the content comes before it. -/
def layout? (mode : Mode) (members : List (List Char × Json)) : Option (Tag × Bool) := do
  let names ← names? members
  if names.count "type" = 1 ∧ names.count "value" ≤ 1 then
    let tag ← memberTag? mode (← field? "type" members)
    return (tag, names.idxOf "value" < names.idxOf "type")
  else none

/-- The texts of an array of strings. -/
def texts? (mode : Mode) : Json → Option (List String)
  | .array items => do
    let _ ← mode.inside?
    items.mapM Json.text?
  | _ => none

/-- The reference index that a literal denotes. -/
def indexOf? (literal : List Char) : Option UInt64 := do
  let n ← Json.intOf? literal
  if 0 ≤ n ∧ n.toNat < UInt64.size then some (UInt64.ofNat n.toNat) else none

/-- The parts of a closure in transport. -/
structure Parts where
  params : List String
  bodies : List Envelope
  scope : List (String × Envelope)

/-- The envelope of a plain closure. -/
def ofParts (parts : Parts) : Envelope := .lambda parts.params parts.bodies parts.scope

mutual

/-- The envelope that a tree spells. -/
def ofJson? : Json → Mode → Option Envelope
  | .object members, mode => do
    let mode ← mode.inside?
    let (tag, early) ← layout? mode members
    contentOf? members mode tag early
  | .array [tag, content], mode => do
    let mode ← mode.inside?
    let tag ← pairTag? mode tag
    if tag = .lambda then (closure? content mode).map ofParts else content? content mode tag
  | _, _ => none
termination_by structural j => j

/-- The envelope of a tag whose content is among the members.  Content that
came before the tag is recorded first. -/
def contentOf? : List (List Char × Json) → Mode → Tag → (early : Bool) → Option Envelope
  | [], _, tag, _ => if tag = .null then some .null else none
  | (name, value) :: rest, mode, tag, early =>
    if Json.textOf? name = some "value" then do
      let mode ← if early then mode.record? value else some mode
      if tag = .lambda then (closure? value mode).map ofParts else content? value mode tag
    else contentOf? rest mode tag early
termination_by structural members => members

/-- The envelope of a tag other than `lambda` with the given content. -/
def content? : Json → Mode → Tag → Option Envelope
  | .null, _, .null => some .null
  | .bool b, _, .boolean => some (.boolean b)
  | .number literal, _, .number => do
    return .number (← Number.ofInt? (← Json.intOf? literal))
  | .number literal, _, .ref => (indexOf? literal).map .ref
  | .string literal, _, .atom => (Json.textOf? literal).map .atom
  | .string literal, _, .keyword => (Json.textOf? literal).map .keyword
  | .string literal, _, .string => (Json.textOf? literal).map .string
  | .string literal, _, .primFn => (Json.textOf? literal).map .primFn
  | .array items, mode, .list => do return .list (← ofJsonAll? items (← mode.inside?))
  | .array items, mode, .vector => do return .vector (← ofJsonAll? items (← mode.inside?))
  | .array items, mode, .dict => do return .dict (← entries? items (← mode.inside?))
  | .array items, mode, .env => do return .env (← bindings? items (← mode.inside?))
  | .object members, mode, .lambdaRec => do
    let mode ← mode.inside?
    if hasFields ["self", "lambda"] members then
      let name ← (← field? "self" members).text?
      let parts ← closureField? members mode
      return .lambdaRec name parts.params parts.bodies parts.scope
    else none
  | .object members, mode, .state => do
    let mode ← mode.inside?
    if hasFields ["env", "refs"] members then
      return .state (← scopeField? members mode) (← slotsField? members mode)
    else none
  | _, _, _ => none
termination_by structural j => j

/-- The envelopes that the elements spell. -/
def ofJsonAll? : List Json → Mode → Option (List Envelope)
  | [], _ => some []
  | item :: rest, mode => do return (← ofJson? item mode) :: (← ofJsonAll? rest mode)
termination_by structural items => items

/-- The envelopes that an array spells. -/
def envelopes? : Json → Mode → Option (List Envelope)
  | .array items, mode => do ofJsonAll? items (← mode.inside?)
  | _, _ => none
termination_by structural j => j

/-- The pair of envelopes that an array of two spells. -/
def entry? : Json → Mode → Option (Envelope × Envelope)
  | .array [key, value], mode => do
    let mode ← mode.inside?
    return (← ofJson? key mode, ← ofJson? value mode)
  | _, _ => none
termination_by structural j => j

/-- The entries that the elements spell. -/
def entries? : List Json → Mode → Option (List (Envelope × Envelope))
  | [], _ => some []
  | item :: rest, mode => do return (← entry? item mode) :: (← entries? rest mode)
termination_by structural items => items

/-- The binding that an array of a name and an envelope spells. -/
def binding? : Json → Mode → Option (String × Envelope)
  | .array [name, value], mode => do
    let mode ← mode.inside?
    return (← name.text?, ← ofJson? value mode)
  | _, _ => none
termination_by structural j => j

/-- The bindings that the elements spell. -/
def bindings? : List Json → Mode → Option (List (String × Envelope))
  | [], _ => some []
  | item :: rest, mode => do return (← binding? item mode) :: (← bindings? rest mode)
termination_by structural items => items

/-- The bindings that an array spells. -/
def scope? : Json → Mode → Option (List (String × Envelope))
  | .array items, mode => do bindings? items (← mode.inside?)
  | _, _ => none
termination_by structural j => j

/-- The slot that an array of an index and an envelope spells. -/
def slot? : Json → Mode → Option (UInt64 × Envelope)
  | .array [.number literal, value], mode => do
    let mode ← mode.inside?
    return (← indexOf? literal, ← ofJson? value mode)
  | _, _ => none
termination_by structural j => j

/-- The slots that the elements spell. -/
def slots? : List Json → Mode → Option (List (UInt64 × Envelope))
  | [], _ => some []
  | item :: rest, mode => do return (← slot? item mode) :: (← slots? rest mode)
termination_by structural items => items

/-- The slots that an array spells. -/
def slotArray? : Json → Mode → Option (List (UInt64 × Envelope))
  | .array items, mode => do slots? items (← mode.inside?)
  | _, _ => none
termination_by structural j => j

/-- The closure that a tree spells. -/
def closure? : Json → Mode → Option Parts
  | .array [params, bodies, scope], mode => do
    let mode ← mode.inside?
    return ⟨← texts? mode params, ← envelopes? bodies mode, ← scope? scope mode⟩
  | .object members, mode => do
    let mode ← mode.inside?
    if hasFields ["params", "bodies", "env"] members then
      return ⟨← texts? mode (← field? "params" members),
        ← bodiesField? members mode, ← scopeField? members mode⟩
    else none
  | _, _ => none
termination_by structural j => j

/-- The envelopes in the member `bodies`. -/
def bodiesField? : List (List Char × Json) → Mode → Option (List Envelope)
  | [], _ => none
  | (name, value) :: rest, mode =>
    if Json.textOf? name = some "bodies" then envelopes? value mode else bodiesField? rest mode
termination_by structural members => members

/-- The bindings in the member `env`. -/
def scopeField? : List (List Char × Json) → Mode → Option (List (String × Envelope))
  | [], _ => none
  | (name, value) :: rest, mode =>
    if Json.textOf? name = some "env" then scope? value mode else scopeField? rest mode
termination_by structural members => members

/-- The slots in the member `refs`. -/
def slotsField? : List (List Char × Json) → Mode → Option (List (UInt64 × Envelope))
  | [], _ => none
  | (name, value) :: rest, mode =>
    if Json.textOf? name = some "refs" then slotArray? value mode else slotsField? rest mode
termination_by structural members => members

/-- The closure in the member `lambda`. -/
def closureField? : List (List Char × Json) → Mode → Option Parts
  | [], _ => none
  | (name, value) :: rest, mode =>
    if Json.textOf? name = some "lambda" then closure? value mode else closureField? rest mode
termination_by structural members => members

end

end Envelope
end CapLisp
