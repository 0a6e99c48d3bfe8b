/-
# The interpreter

An interpreter holds bindings and a table and evaluates one form after another.
A form that fails leaves the bindings as they were before it; the forms before
it stay evaluated.  While a form runs, the interpreter holds a snapshot of the
bindings, and the result of the form before it.
-/

import CapLisp.Eval.Evaluator
import CapLisp.Reader.Form

namespace CapLisp

/-- A host's interpreter: what evaluation works on, and the primitives it grants. -/
structure Interpreter where
  table : Table
  bindings : Bindings

namespace Interpreter

/-- The interpreter with the shipped catalog and empty bindings. -/
def default : Interpreter := ⟨Table.shipped, Bindings.empty⟩

/-- The inspected form of an interpreter's bindings. -/
def inspect (i : Interpreter) : String :=
  "Bindings \x7b env: " ++ i.bindings.env.text ++
    ", refs: " ++ Decimal.textOfNat i.bindings.refs.length ++
    ", primitives: " ++ Decimal.textOfNat i.table.length ++ " \x7d"

/-- Evaluates a form while the values in `held` are held; a failure changes nothing. -/
def evalHolding (held : List Value) (form : Value) (i : Interpreter) :
    Except Error Value × Interpreter :=
  let ctx : Context := ⟨i.table, form :: .state i.bindings.intoState :: held⟩
  match Eval.eval maxEvalDepth ctx form i.bindings with
  | (.ok value, b) => (.ok value, { i with bindings := b })
  | (.error e, _) => (.error e, i)

/-- Evaluates a form; a failure changes nothing. -/
def eval (form : Value) (i : Interpreter) : Except Error Value × Interpreter :=
  evalHolding [] form i

/-- Evaluates forms in order up to the first that fails.  The value of the last
one is the result, or `last` if there is none. -/
def evalForms : (last : Value) → List Value → Interpreter → Except Error Value × Interpreter
  | last, [], i => (.ok last, i)
  | last, form :: rest, i =>
    match evalHolding [last] form i with
    | (.ok value, i') => evalForms value rest i'
    | (.error e, i') => (.error e, i')

/-- Reads a text and evaluates its forms in order.  Nothing is evaluated if the
text cannot be read. -/
def evalText (source : String) (i : Interpreter) : Except Error Value × Interpreter :=
  match readProgram source with
  | .error e => (.error e, i)
  | .ok forms => evalForms .null forms i

end Interpreter
end CapLisp
