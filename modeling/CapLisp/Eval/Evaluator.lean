/-
# Evaluation

| expression | value |
| --- | --- |
| atom | a reference to the primitive of that name, else what the name is bound to |
| list with the name of a special form at its head | what the form says |
| any other list | the function at its head applied to the operands, left to right |
| vector | the vector of the values |
| dict | the dict of the values, each key before its value |
| anything else | itself |

Every evaluation inside another takes one level of room; without room left the
evaluation fails.  The room is the measure of the recursion, so evaluation
always ends.  Calls and primitives take none by themselves.
-/

import CapLisp.Eval.SpecialForm

namespace CapLisp

/-- The number of evaluations that may be open inside one another. -/
def maxEvalDepth : Nat := 256

namespace Eval

/-- The value of an atom.  The table comes before the environment. -/
def atom (ctx : Context) (name : String) : Action Value :=
  if ctx.table.contains name then pure (.primFn name)
  else do
    let b ← Action.get
    match b.env.lookup name with
    | some value => pure value
    | none => .fail (.unknownIdentifier name)

/-- Evaluates the entries of a dict in order and adds them to `done`, which is
held meanwhile. -/
def entries (eval : Evaluator) (ctx : Context) : (done : Dict) → Dict → Action Dict
  | done, [] => pure done
  | done, (key, value) :: rest => do
    let key ← eval (ctx.hold (.dict done)) key
    let value ← eval (ctx.holdAll [key, .dict done]) value
    entries eval ctx (Dict.insert key value done) rest

/-- Evaluates an expression; `eval` evaluates the expressions inside it. -/
def step (eval : Evaluator) (ctx : Context) : Value → Action Value
  | .atom name => atom ctx name
  | .list [] => .fail (.wrongNumberArgs "application" 2 0)
  | .list (head :: operands) =>
    match SpecialForm.ofHead? head with
    | some form => form.run eval ctx operands
    | none => do
      let func ← eval ctx head
      let args ← evalAll eval (ctx.hold func) operands
      applyFunction eval ctx func args
  | .vector items => do return .vector (← evalAll eval ctx items)
  | .dict items => do return .dict (← entries eval ctx [] items)
  | value => pure value

/-- Evaluates an expression with `room` levels left. -/
def eval : (room : Nat) → Evaluator
  | 0 => fun _ _ => .fail (.failed (.depthLimit maxEvalDepth))
  | room + 1 => step (eval room)

end Eval

/-- Evaluates an expression under a table, with the full room. -/
def evaluate (table : Table) (expr : Value) : Action Value :=
  Eval.eval maxEvalDepth ⟨table, [expr]⟩ expr

/-- Applies a function to arguments under a table, with the full room. -/
def applyValue (table : Table) (func : Value) (args : List Value) : Action Value :=
  applyFunction (Eval.eval maxEvalDepth) ⟨table, []⟩ func args

/-- Calls a primitive of the table on arguments, with the full room. -/
def callPrimitive (table : Table) (name : String) (args : List Value) : Action Value :=
  applyValue table (.primFn name) args

end CapLisp
