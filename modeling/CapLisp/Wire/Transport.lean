/-
# Shipping values as text

The library of the shipped program writes the compact text of an envelope's
document and reads strict JSON.  `toWire` and `ofWire` are the transport of
values through it.
-/

import CapLisp.Json.Reader
import CapLisp.Wire.Library
import CapLisp.Wire.Reading

namespace CapLisp

/-- The library of the shipped program. -/
def JsonLibrary.strict : JsonLibrary where
  write e := .ok e.document.text
  read text :=
    match (Json.parse? text).bind (Envelope.ofJson? · (.direct maxNesting)) with
    | some e => .ok e
    | none => .error "malformed envelope"

namespace Value

/-- The text in which a value is shipped. -/
def toWire (v : Value) : String := v.encode.document.text

/-- The shipped program writes every value. -/
theorem toJson_strict (v : Value) : v.toJson .strict = .ok v.toWire := rfl

/-- The value that a text ships; its closures are numbered from `fresh` on. -/
def ofWire (text : String) (fresh : Nat) : Except Error (Value × Nat) :=
  ofJson .strict text fresh

end Value
end CapLisp
