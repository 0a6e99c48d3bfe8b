/-
# Special forms

A list whose head is an atom with one of these names is a special form; it gets
its operands unevaluated and decides itself what to evaluate.

| form | meaning |
| --- | --- |
| `(fn [param ...] body ...)` | a closure over the current environment, frozen |
| `(quote form)` | the form itself |
| `(def name expr)` | binds the name to the value of the expression |
| `(def-rec name expr)` | binds the name to a closure that sees itself under it |
| `(do form ...)` | the value of the last form |
| `(if test then else)` | one of two branches; only `#f` is false |
| `(cond test expr ...)` | the branch of the first test that holds |
| `(module metadata form ...)` | a dict with the environment that the forms build |

`def-rec` takes a closure that nothing else holds once the expression is
evaluated.  One that is still reachable under another name would be an alias.
-/

import CapLisp.Eval.Call

namespace CapLisp

/-- The special forms. -/
inductive SpecialForm where
  | closure | quote | define | defineRec | sequence | branch | cond | module
  deriving DecidableEq, Repr

namespace SpecialForm

/-- The name that a special form reserves. -/
def name : SpecialForm → String
  | closure => "fn"
  | quote => "quote"
  | define => "def"
  | defineRec => "def-rec"
  | sequence => "do"
  | branch => "if"
  | cond => "cond"
  | module => "module"

/-- Every special form. -/
def all : List SpecialForm :=
  [closure, quote, define, defineRec, sequence, branch, cond, module]

/-- The special form that an atom of the given name stands for. -/
def ofName? (name : String) : Option SpecialForm := all.find? (·.name == name)

/-- The special form that the head of a list stands for. -/
def ofHead? : Value → Option SpecialForm
  | .atom name => ofName? name
  | _ => none

/-- The name of a special form names it. -/
theorem ofName?_name (form : SpecialForm) : ofName? form.name = some form := by
  cases form <;> decide

/-- The error of a form with the given fault. -/
def error (fault : FormFault) (form : SpecialForm) : Error := .malformedForm form.name fault

/-- The error of a form with the wrong number of operands. -/
def arityError (expected actual : Nat) (form : SpecialForm) : Error :=
  .wrongNumberArgs form.name expected actual

/-- The parameter names of a closure; `seen` lists those before them. -/
def params (seen : List String) : List Value → Except FormFault (List String)
  | [] => .ok []
  | .atom name :: rest =>
    if name ∈ seen then .error (.duplicateParam name)
    else (params (name :: seen) rest).map (name :: ·)
  | _ :: _ => .error .paramNotAtom

/-- Evaluates a `fn` form. -/
def runClosure : List Value → Action Value
  | .vector items :: body :: bodies =>
    match params [] items with
    | .error fault => .fail (closure.error fault)
    | .ok params => do
      let b ← Action.get
      let serial ← Action.nextSerial
      return .lambda ⟨serial, params, body :: bodies, b.env.freeze⟩
  | _ :: _ :: _ => .fail (closure.error .paramsNotVector)
  | _ => .fail (closure.error .missingBody)

/-- Evaluates a `quote` form. -/
def runQuote : List Value → Action Value
  | [form] => pure form
  | operands => .fail (quote.arityError 1 operands.length)

/-- The name and the expression of a definition. -/
def target (form : SpecialForm) : List Value → Except Error (String × Value)
  | [.atom name, expr] => .ok (name, expr)
  | [_, _] => .error (form.error .targetNotAtom)
  | operands => .error (form.arityError 2 operands.length)

/-- Evaluates a `def` form. -/
def runDefine (eval : Evaluator) (ctx : Context) (operands : List Value) : Action Value := do
  let (name, expr) ← Action.ofExcept (define.target operands)
  let value ← eval ctx expr
  Action.define name value
  return .null

/-- Evaluates a `def-rec` form. -/
def runDefineRec (eval : Evaluator) (ctx : Context) (operands : List Value) : Action Value := do
  let (name, expr) ← Action.ofExcept (defineRec.target operands)
  let value ← eval ctx expr
  match value with
  | .lambda fn =>
    let b ← Action.get
    if ctx.holds fn.serial b then .fail (defineRec.error .aliasedFunction)
    else
      Action.define name (.lambdaRec name fn)
      return .null
  | .lambdaRec _ _ => .fail (defineRec.error .aliasedFunction)
  | _ => .fail (defineRec.error .notAFunction)

/-- Evaluates an `if` form. -/
def runBranch (eval : Evaluator) (ctx : Context) : List Value → Action Value
  | [test, yes, no] => do
    let value ← eval ctx test
    if value.isTruthy then eval ctx yes else eval ctx no
  | operands => .fail (branch.arityError 3 operands.length)

/-- Evaluates the clauses of a `cond` form, a test and an expression each. -/
def runClauses (eval : Evaluator) (ctx : Context) : List Value → Action Value
  | test :: expr :: rest => do
    let value ← eval ctx test
    if value.isTruthy then eval ctx expr else runClauses eval ctx rest
  | _ => pure .null

/-- Evaluates a `cond` form. -/
def runCond (eval : Evaluator) (ctx : Context) (operands : List Value) : Action Value :=
  if operands.length % 2 = 0 then runClauses eval ctx operands
  else .fail (cond.arityError (operands.length + 1) operands.length)

/-- What the metadata of a module says. -/
structure Metadata where
  name : String
  doc : String
  exports : List String

namespace Metadata

/-- The value of a metadata field, which must be of the given kind. -/
def field (entries : Dict) (key : String) (kind : Kind) : Except MetadataFault Value :=
  match Dict.find? (.keyword key) entries with
  | none => .error (.missing key)
  | some value => if value.kind = kind then .ok value else .error (.wrongKind key kind)

/-- The names of the exports. -/
def exportNames : List Value → Except MetadataFault (List String)
  | [] => .ok []
  | .atom name :: rest => (exportNames rest).map (name :: ·)
  | _ :: _ => .error .exportNotAtom

/-- The text of a string value. -/
def docText : Value → String
  | .string text => text
  | _ => ""

/-- The elements of a vector value. -/
def vectorItems : Value → List Value
  | .vector items => items
  | _ => []

/-- The metadata that a value states: `:module`, `:doc` and `:exports`. -/
def ofValue : Value → Except MetadataFault Metadata
  | .dict entries => do
    let name ← field entries "module" .atom
    let doc ← field entries "doc" .string
    let exports ← field entries "exports" .vector
    let exports ← exportNames (vectorItems exports)
    return ⟨name.atom?.getD "", docText doc, exports⟩
  | _ => .error .notDict

/-- The exports that an environment does not bind, in their order. -/
def missing (info : Metadata) (env : Env Value) : List String :=
  info.exports.filter fun name => (env.lookup name).isNone

/-- The value of a module: its metadata and its environment. -/
def toValue (info : Metadata) (env : Env Value) : Value :=
  .dict [
    (.keyword "module", .atom info.name),
    (.keyword "doc", .string info.doc),
    (.keyword "env", .env (.mutable env.thaw)),
    (.keyword "exports", .vector (info.exports.map .atom))]

end Metadata

/-- Evaluates the forms of a module in order and drops their values. -/
def runForms (eval : Evaluator) (ctx : Context) : List Value → Action Unit
  | [] => pure ()
  | form :: rest => do
    let _ ← eval ctx form
    runForms eval ctx rest

/-- Evaluates a `module` form.  The forms run in a mutable copy of the
environment, which goes into the result; the environment itself stays as it
was once the metadata is evaluated. -/
def runModule (eval : Evaluator) (ctx : Context) : List Value → Action Value
  | [] => .fail (module.arityError 1 0)
  | metadata :: forms => do
    let value ← eval ctx metadata
    match Metadata.ofValue value with
    | .error fault => .fail (.invalidDeclaration fault value)
    | .ok info =>
      let b ← Action.get
      let ctx := ctx.holdAll [value, .env b.env]
      let env ← Action.within (.mutable b.env.thaw) do
        runForms eval ctx forms
        return (← Action.get).env
      match info.missing env with
      | [] => return info.toValue env
      | names => .fail (.undefinedExports names)

/-- Evaluates a special form on its operands. -/
def run (eval : Evaluator) (ctx : Context) (operands : List Value) : SpecialForm → Action Value
  | closure => runClosure operands
  | quote => runQuote operands
  | define => runDefine eval ctx operands
  | defineRec => runDefineRec eval ctx operands
  | sequence => evalBody eval ctx .null operands
  | branch => runBranch eval ctx operands
  | cond => runCond eval ctx operands
  | module => runModule eval ctx operands

end SpecialForm
end CapLisp
