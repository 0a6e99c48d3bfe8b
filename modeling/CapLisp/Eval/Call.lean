/-
# Calls

Applying a function to arguments is resolved first and run then.  Resolving
looks at the table, the function and the arguments alone: it finds the entry of
a primitive, checks the arguments, and carries an application of `apply`
through to the function that is applied in the end.  That recursion is on the
argument list, which holds the next one inside it.

| resolved call | what runs |
| --- | --- |
| `body` | the body of a closure, in its scope extended by the parameters |
| `nested` | an expression on a state of its own |
| `operation` | a shipped operation |
| `procedure` | a procedure of the host |

A procedure of the host can evaluate expressions and apply functions.  An
evaluation takes a level of room.  An application takes none, so nothing but the
stack of the host bounds procedures that apply one another without evaluating
anything.  Each application says how many procedures the stack takes inside it
(`Procedure.apply`).  The bound is free, and what is shown of all tables is shown
for every bound; where it is passed the process of the host would end, and here
the application ends with the error `Failure.hostStack`.
-/

import CapLisp.Eval.Action
import CapLisp.Primitive.Table
import CapLisp.Value.Search

namespace CapLisp

/-- What an evaluation knows besides the bindings. -/
structure Context where
  table : Table
  held : List Value

namespace Context

/-- The context in which `v` is held, too. -/
def hold (v : Value) (ctx : Context) : Context := { ctx with held := v :: ctx.held }

/-- The context in which the given values are held, too. -/
def holdAll (vs : List Value) (ctx : Context) : Context := { ctx with held := vs ++ ctx.held }

/-- Tells whether the closure numbered `serial` is reachable from the bindings,
shadowed frames included, or from a held value. -/
def holds (serial : Nat) (b : Bindings) (ctx : Context) : Bool :=
  Value.isHeldBy serial (.state b.intoState :: ctx.held)

end Context

/-- A way of evaluating expressions. -/
abbrev Evaluator := Context → Value → Action Value

/-- Evaluates expressions from left to right; values stay held while the later
expressions are evaluated. -/
def evalAll (eval : Evaluator) (ctx : Context) : List Value → Action (List Value)
  | [] => pure []
  | expr :: rest => do
    let value ← eval ctx expr
    let values ← evalAll eval (ctx.hold value) rest
    return value :: values

/-- Evaluates the forms of a body in order; the last value is the result, or
`last` if there is none.  Each value stays held until the next one is there. -/
def evalBody (eval : Evaluator) (ctx : Context) : (last : Value) → List Value → Action Value
  | last, [] => pure last
  | last, form :: rest => do
    let value ← eval (ctx.hold last) form
    evalBody eval ctx value rest

/-- An application whose function is resolved and whose arguments are checked. -/
inductive Call where
  | body (scope : Chain Value) (bodies : List Value)
  | nested (expr : Value) (state : State Value)
  | operation (op : Operation) (args : List Value)
  | procedure (procedure : Procedure) (args : List Value)

namespace Call

/-- The call of a closure: each parameter is bound in front of `scope`. -/
def enter (scope : Chain Value) (fn : Closure Value) (args : List Value) : Except Error Call :=
  if fn.params.length = args.length then
    .ok (.body (Chain.extend scope (fn.params.zip args)) fn.bodies)
  else .error (.wrongNumberArgs "lambda" fn.params.length args.length)

/-- The refusal of arguments that `apply` or `base-eval` cannot take apart: they
are not two, or the second one is no state. -/
def refusal : Primitive → List Value → Error
  | .baseEval, [_, v] => .wrongKind Primitive.baseEval.name (.is .state) v.kind
  | p, args => .wrongNumberArgs p.name 2 args.length

mutual

/-- The call that applying `func` to the arguments comes to. -/
def resolve (table : Table) : (args : List Value) → (func : Value) → Except Error Call
  | args, .lambda fn => enter fn.scope fn args
  | args, .lambdaRec name fn => enter ((name, .lambdaRec name fn) :: fn.scope) fn args
  | args, .primFn name =>
    match table.find? name with
    | none => .error (.impossible (.unknownPrimitive name))
    | some p =>
      match p.check args with
      | .error e => .error e
      | .ok () =>
        match p, args with
        | .apply, [func, list] => resolveOn table list func
        | .baseEval, [expr, .state s] => .ok (.nested expr s)
        | .operation op, args => .ok (.operation op args)
        | .host _ _ steps, args => .ok (.procedure (steps args) args)
        | p, args => .error (refusal p args)
  | _, func => .error (.notAFunction func)
termination_by structural args => args

/-- The call that applying `func` to the elements of a list or vector comes to. -/
def resolveOn (table : Table) : (list : Value) → (func : Value) → Except Error Call
  | .list args, func => resolve table args func
  | .vector args, func => resolve table args func
  | other, _ => .error (.wrongKind Primitive.apply.name .listLike other.kind)
termination_by structural list => list

end

end Call

/-- A way of applying functions to arguments. -/
abbrev Applier := Context → Value → List Value → Action Value

/-- A way of running procedures of the host. -/
abbrev Runner := Context → Procedure → Action Value

/-- The context of a call.  The function is held while the call runs.  So are
the arguments of `apply`, which hold the function and the arguments of the call
that it comes to. -/
def Context.forCall (ctx : Context) (func : Value) (args : List Value) : Context :=
  match func with
  | .primFn name =>
    match ctx.table.find? name with
    | some .apply => ctx.holdAll (func :: args)
    | _ => ctx.hold func
  | _ => ctx.hold func

namespace Call

/-- Runs a resolved call; `host` runs the procedures of the host.  A closure body
runs in its own scope while the caller's environment is held; a nested evaluation
runs on its own state while the caller's state is held; a procedure holds its
arguments. -/
def runWith (eval : Evaluator) (host : Runner) (ctx : Context) : Call → Action Value
  | body scope bodies => do
    let b ← Action.get
    Action.within (.persistent scope) (evalBody eval (ctx.hold (.env b.env)) .null bodies)
  | nested expr s => do
    let b ← Action.get
    let (value, s) ← Action.onState s (eval (ctx.holdAll [expr, .state b.intoState]) expr)
    return .vector [value, .state s]
  | operation op args => fun b =>
    match op.run b args with
    | .ok (value, refs) => (.ok value, { b with refs := refs })
    | .error e => (.error e, b)
  | procedure p args => host (ctx.holdAll args) p

end Call

/-- Applies a function to arguments; `host` runs the procedures of the host. -/
def applyWith (eval : Evaluator) (host : Runner) : Applier := fun ctx func args =>
  match Call.resolve ctx.table args func with
  | .error e => .fail e
  | .ok call => call.runWith eval host (ctx.forCall func args)

namespace Procedure

/-- Does the steps of a procedure.  An application is made as everywhere else and
takes no level of room; `applier` makes it, given the number of procedures that
may be open inside it. -/
def run (evaluator : Evaluator) (applier : (frames : Nat) → Applier) (ctx : Context) :
    Procedure → Action Value
  | done outcome => .ofExcept outcome
  | lookup name next => do
    let b ← Action.get
    run evaluator applier ctx (next (b.env.lookup name))
  | define name value next => do
    Action.define name value
    run evaluator applier ctx next
  | eval expr kept next => do
    let outcome ← (evaluator (ctx.holdAll kept) expr).outcome
    run evaluator applier ctx (next outcome)
  | apply frames func args kept next => do
    let outcome ← (applier frames (ctx.holdAll kept) func args).outcome
    run evaluator applier ctx (next outcome)

/-- Runs a procedure that other procedures apply, as long as `frames` are left. -/
def runWithin (evaluator : Evaluator) : (frames : Nat) → Runner
  | 0 => fun _ _ => .fail (.failed .hostStack)
  | frames + 1 => fun ctx p =>
    p.run evaluator (fun _ => applyWith evaluator (runWithin evaluator frames)) ctx

/-- Runs a procedure that is called from the program. -/
def runHost (evaluator : Evaluator) : Runner := fun ctx p =>
  p.run evaluator (fun frames => applyWith evaluator (runWithin evaluator frames)) ctx

end Procedure

namespace Call

/-- Runs a resolved call. -/
def run (eval : Evaluator) (ctx : Context) (call : Call) : Action Value :=
  call.runWith eval (Procedure.runHost eval) ctx

/-- The call that a primitive makes of its arguments, once it has checked them.  The
table is that of the functions which `apply` applies. -/
def ofPrimitive (table : Table) (p : Primitive) (args : List Value) : Except Error Call :=
  match p.check args with
  | .error e => .error e
  | .ok () =>
    match p, args with
    | .apply, [func, list] => resolveOn table list func
    | .baseEval, [expr, .state s] => .ok (.nested expr s)
    | .operation op, args => .ok (.operation op args)
    | .host _ _ steps, args => .ok (.procedure (steps args) args)
    | p, args => .error (refusal p args)

/-- An operation runs on the store and leaves the rest of the bindings alone. -/
theorem run_operation (eval : Evaluator) (ctx : Context) (op : Operation) (args : List Value) :
    (operation op args).run eval ctx = fun b =>
      match op.run b args with
      | .ok (value, refs) => (.ok value, { b with refs := refs })
      | .error e => (.error e, b) := rfl

end Call

/-- Calls a primitive on arguments, whether or not the table lists it. -/
def Primitive.call (eval : Evaluator) (ctx : Context) (args : List Value) (p : Primitive) :
    Action Value :=
  match Call.ofPrimitive ctx.table p args with
  | .error e => .fail e
  | .ok call => call.run eval ctx

/-- Applies a function to arguments. -/
def applyFunction (eval : Evaluator) : Applier := applyWith eval (Procedure.runHost eval)

end CapLisp
