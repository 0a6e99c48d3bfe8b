/-
# The JSON library

Envelopes are turned into text and back by a library, a parameter here.  What
is relied on is what its documentation says (`Documented`):

| | |
| --- | --- |
| writing | the compact text of the document; it fails only on a map with keys that are no strings |
| reading | any strict JSON text of the document, as long as arrays and maps nest at most 127 deep |
| beyond | a document that nests deeper is refused |

That the text of an envelope is strict JSON for its document, and how deep it
nests, is not assumed.
-/

import CapLisp.Wire.Document

namespace CapLisp

/-- The two functions of a JSON library, at the type of envelopes.  A failure
comes with the library's message. -/
structure JsonLibrary where
  write : Envelope → Except String String
  read : String → Except String Envelope

namespace JsonLibrary

/-- The deepest nesting of arrays and maps that is read. -/
def maxNesting : Nat := 127

/-- What the documentation of a library says about envelopes. -/
structure Documented (library : JsonLibrary) : Prop where
  writes : ∀ e : Envelope, e.document.HasTextKeys → library.write e = .ok e.document.text
  reads : ∀ (e : Envelope) (text : String), e.document.IsSpelledBy text →
    e.document.nesting ≤ maxNesting → library.read text = .ok e
  refuses : ∀ (e : Envelope) (text : String), e.document.IsSpelledBy text →
    maxNesting < e.document.nesting → ∃ message, library.read text = .error message

end JsonLibrary

namespace Value

/-- The JSON text of a value's envelope. -/
def toJson (library : JsonLibrary) (v : Value) : Except Error String :=
  match library.write v.encode with
  | .ok text => .ok text
  | .error message => .error (.failed (.malformedEnvelope message))

/-- The value that a JSON text ships; its closures are numbered from `fresh` on,
and the next free number comes with it.  A text that the library refuses is
refused as a whole before anything is decoded. -/
def ofJson (library : JsonLibrary) (text : String) (fresh : Nat) : Except Error (Value × Nat) :=
  match library.read text with
  | .ok envelope => envelope.decode fresh
  | .error message => .error (.failed (.malformedEnvelope message))

end Value
end CapLisp
