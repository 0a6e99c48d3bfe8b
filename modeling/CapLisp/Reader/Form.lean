/-
# The reader

A form is a quoted form, a list, a vector, a dict, a string, a boolean, a
keyword, a number or an atom.  Its first character decides, except that a sign
may start a number or an atom and a number that does not end in time may be an
atom.  Where nothing fits, reading stops at the start of the form.

Forms nest at most `maxDepth` deep.  The number of levels left is the measure
of the recursion, so a text of any depth is read or refused in bounded stack.

Reading stops with a fault at a place in the text.  At the end of the text the
fault is that the text is incomplete, save for nesting that is too deep.
-/

import CapLisp.Dict
import CapLisp.Error
import CapLisp.Reader.Token

namespace CapLisp
namespace Reader

/-- The deepest nesting that the reader allows by default. -/
def maxParseDepth : Nat := 64

/-- Reader options: whether comments are skipped, and the deepest nesting. -/
structure Config where
  comments : Bool
  maxDepth : Nat

/-- The options that skip comments and nest up to `maxParseDepth`. -/
def Config.default : Config := ⟨true, maxParseDepth⟩

/-- The elements up to the closing delimiter `close`, each read by `form`.  The
first argument bounds the number of elements. -/
def elements (config : Config) (form : List Char → Outcome Value) (close : Char) :
    Nat → List Char → Outcome (List Value)
  | 0, text => .error ⟨.unexpected, text⟩
  | bound + 1, text =>
    match skip config.comments text .blank with
    | [] => .error ⟨.unexpected, []⟩
    | c :: rest =>
      if c = close then .ok ([], rest)
      else
        (form (c :: rest)).andThen fun item rest =>
          (elements config form close bound rest).andThen fun items rest =>
            .ok (item :: items, rest)

/-- The form at the front of a text that starts with no blank or comment; `room`
is the number of levels that it may nest. -/
def form (config : Config) : (room : Nat) → List Char → Outcome Value
  | 0, text => .error ⟨.tooDeep, text⟩
  | room + 1, text =>
    match text with
    | '\'' :: rest =>
      (form config room (skip config.comments rest .blank)).andThen fun quoted rest =>
        .ok (.quoted quoted, rest)
    | '(' :: rest =>
      (elements config (form config room) ')' text.length rest).andThen fun items rest =>
        .ok (.list items, rest)
    | '[' :: rest =>
      (elements config (form config room) ']' text.length rest).andThen fun items rest =>
        .ok (.vector items, rest)
    | '\x7b' :: rest =>
      (elements config (form config room) '\x7d' text.length rest).andThen fun items rest =>
        if items.length % 2 = 0 then .ok (.dict (Dict.ofEntries (Dict.pairs items)), rest)
        else .error ⟨.oddDict, text⟩
    | '"' :: rest =>
      (stringBody rest).andThen fun chars rest => .ok (.string (String.ofList chars), rest)
    | ':' :: rest => keyword rest
    | _ =>
      match bool? text with
      | some outcome => .ok outcome
      | none =>
        match number? text with
        | some outcome => outcome
        | none =>
          match atom? text with
          | some outcome => .ok outcome
          | none => .error ⟨.unexpected, text⟩

/-- The error that a stop is reported as. -/
def Stop.error (stop : Stop) : ReadError :=
  let context := some (ReadError.contextOf stop.rest)
  if stop.fault = .tooDeep then ⟨.tooDeeplyNested, "Expression too deeply nested", context⟩
  else if stop.rest.isEmpty then ⟨.incomplete, "Unexpected end of input", context⟩
  else
    match stop.fault with
    | .oddDict => ⟨.invalidSyntax, "Dict literal needs an even number of forms", context⟩
    | .unknownEscape => ⟨.invalidSyntax, "Unknown escape sequence", context⟩
    | .numberRange => ⟨.invalidSyntax, "Number out of range", context⟩
    | _ => ⟨.invalidSyntax, "Invalid syntax", context⟩

/-- The only form of a text; blanks and comments may stand around it. -/
def parse (config : Config) (text : List Char) : Except ReadError Value :=
  match skip config.comments text .blank with
  | [] => .error ⟨.incomplete, "Empty input", none⟩
  | start =>
    match form config config.maxDepth start with
    | .error stop => .error stop.error
    | .ok (value, rest) =>
      match skip config.comments rest .blank with
      | [] => .ok value
      | left =>
        .error ⟨.trailingContent, "Unexpected remaining input", some (ReadError.contextOf left)⟩

/-- The forms up to the end of a text.  The first argument bounds their number. -/
def forms (config : Config) : Nat → List Char → Except Stop (List Value)
  | 0, text => .error ⟨.unexpected, text⟩
  | bound + 1, text =>
    match skip config.comments text .blank with
    | [] => .ok []
    | start =>
      match form config config.maxDepth start with
      | .error stop => .error stop
      | .ok (value, rest) => (forms config bound rest).map (value :: ·)

/-- The forms of a text in order. -/
def parseProgram (config : Config) (text : List Char) : Except ReadError (List Value) :=
  (forms config (text.length + 1) text).mapError Stop.error

end Reader

/-- Reads the only form of a text under the given options. -/
def readWith (config : Reader.Config) (source : String) : Except Error Value :=
  (Reader.parse config source.toList).mapError .read

/-- Reads the forms of a text under the given options. -/
def readProgramWith (config : Reader.Config) (source : String) : Except Error (List Value) :=
  (Reader.parseProgram config source.toList).mapError .read

/-- Reads the only form of a text. -/
def read (source : String) : Except Error Value := readWith .default source

/-- Reads the forms of a text. -/
def readProgram (source : String) : Except Error (List Value) := readProgramWith .default source

end CapLisp
