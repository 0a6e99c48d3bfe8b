/-
# Call trees

The evaluator recurses on the room that is left, so it is plain that it ends, and
nothing is said about why.  A call tree is what one evaluation does between the
evaluations that it asks for: it reads and writes the bindings, asks for the value of
an expression and goes on with the outcome.  Nothing in it recurses through an
evaluation, and how deep evaluations nest is left to whoever runs the tree.

| node | what happens |
| --- | --- |
| `done` | the evaluation ends |
| `get`, `put` | the bindings are read, replaced |
| `eval` | an expression is to be evaluated |

An evaluation ends with a value, an error or an application that is left to do
(`Tail`).  Run by an evaluator, the tree of an expression does what a step of the
evaluator does (`run_ofExpr`).
-/

import CapLisp.Eval.Evaluator
import CapLisp.Proofs.Resolve

namespace CapLisp

/-- What an evaluation does up to its end, with its requests for other evaluations. -/
inductive CallTree (α : Type) where
  | done (outcome : Except Error α)
  | get (next : Bindings → CallTree α)
  | put (b : Bindings) (next : CallTree α)
  | eval (ctx : Context) (expr : Value) (next : Except Error Value → CallTree α)

namespace CallTree

variable {α β : Type}

/-- Goes on with the outcome of a tree, value or error. -/
def andThen (next : Except Error α → CallTree β) : CallTree α → CallTree β
  | done outcome => next outcome
  | get more => get fun b => (more b).andThen next
  | put b more => put b (more.andThen next)
  | eval ctx expr more => eval ctx expr fun outcome => (more outcome).andThen next

instance : Monad CallTree where
  pure a := done (.ok a)
  bind x next := x.andThen fun
    | .ok a => next a
    | .error e => done (.error e)

/-- Ends with an error. -/
def fail (e : Error) : CallTree α := done (.error e)

/-- The outcome of a tree as a value. -/
def outcome (x : CallTree α) : CallTree (Except Error α) := x.andThen fun o => done (.ok o)

/-- Does what an action does that asks for no evaluation. -/
def lift (x : Action α) : CallTree α := get fun b => put (x.run b).2 (done (x.run b).1)

/-- Asks for the value of an expression. -/
def evaluate (ctx : Context) (expr : Value) : CallTree Value := eval ctx expr done

/-- Runs a tree in another environment and puts the old one back. -/
def within (env : Env Value) (x : CallTree α) : CallTree α := get fun b =>
  put { b with env := env } (x.andThen fun o => get fun b' => put { b' with env := b.env } (done o))

/-- Runs a tree on a state of its own, which comes back with the value. -/
def onState (s : State Value) (x : CallTree α) : CallTree (α × State Value) := get fun b =>
  put (.ofState s b.fresh) (x.andThen fun o => get fun b' =>
    put { b with fresh := b'.fresh } (done (o.map fun a => (a, b'.intoState))))

/-- Runs a tree; an evaluator answers the requests. -/
def run (evaluator : Evaluator) : CallTree α → Action α
  | done outcome => .ofExcept outcome
  | get next => fun b => (next b).run evaluator b
  | put b next => fun _ => next.run evaluator b
  | eval ctx expr next => fun b =>
    let r := (evaluator ctx expr).run b
    (next r.1).run evaluator r.2

section

variable {evaluator : Evaluator}

/-- What comes next runs on the outcome and the bindings of what came first. -/
theorem run_andThen (x : CallTree α) (next : Except Error α → CallTree β) (b : Bindings) :
    ((x.andThen next).run evaluator).run b =
      ((next ((x.run evaluator).run b).1).run evaluator).run ((x.run evaluator).run b).2 := by
  induction x generalizing b with
  | done outcome => rfl
  | get more ih => exact ih b b
  | put b' more ih => exact ih b'
  | eval ctx expr more ih => exact ih _ _

/-- One tree after another runs as one action after another. -/
theorem run_bind_eq {x : CallTree α} {next : α → CallTree β} {y : Action α}
    {more : α → Action β} (hx : x.run evaluator = y)
    (hnext : ∀ a, (next a).run evaluator = more a) :
    (x >>= next).run evaluator = y >>= more := by
  funext b
  have hrun : ((x >>= next).run evaluator).run b = _ := run_andThen x _ b
  rw [hx] at hrun
  refine hrun.trans ((?_ : _ = _).trans (Action.run_bind y more b).symm)
  rcases y.run b with ⟨e | a, b'⟩
  · rfl
  · exact congrFun (hnext a) b'

/-- The same where an action follows both. -/
theorem run_bind_bind {γ : Type} {x : CallTree α} {next : α → CallTree β} {y : Action α}
    {last : β → Action γ} {more : α → Action γ} (hx : x.run evaluator = y)
    (hnext : ∀ a, (next a).run evaluator >>= last = more a) :
    (x >>= next).run evaluator >>= last = y >>= more := by
  rw [run_bind_eq hx fun _ => rfl]
  funext b
  refine (Action.run_bind _ last b).trans ((?_ : _ = _).trans (Action.run_bind y more b).symm)
  rw [Action.run_bind]
  rcases y.run b with ⟨e | a, b'⟩
  · rfl
  · exact congrFun (hnext a) b'

/-- The tree of an outcome runs as the outcome. -/
theorem run_outcome {x : CallTree α} {y : Action α} (hx : x.run evaluator = y) :
    x.outcome.run evaluator = y.outcome := by
  funext b
  exact (run_andThen x _ b).trans (by rw [hx]; rfl)

/-- The tree of an action inside an environment runs as that action. -/
theorem run_within (env : Env Value) {x : CallTree α} {y : Action α}
    (hx : x.run evaluator = y) :
    (within env x).run evaluator = Action.within env y := by
  funext b
  exact (run_andThen x _ { b with env := env }).trans (by rw [hx]; rfl)

/-- The tree of an action on a state runs as that action. -/
theorem run_onState (s : State Value) {x : CallTree α} {y : Action α}
    (hx : x.run evaluator = y) :
    (onState s x).run evaluator = Action.onState s y := by
  funext b
  exact (run_andThen x _ (.ofState s b.fresh)).trans (by rw [hx]; rfl)

end

/-! ### The trees of the evaluator -/

/-- Evaluates expressions from left to right. -/
def evalAll (ctx : Context) : List Value → CallTree (List Value)
  | [] => pure []
  | expr :: rest => do
    let value ← evaluate ctx expr
    let values ← evalAll (ctx.hold value) rest
    return value :: values

/-- Evaluates the forms of a body in order. -/
def evalBody (ctx : Context) : (last : Value) → List Value → CallTree Value
  | last, [] => pure last
  | last, form :: rest => do
    let value ← evaluate (ctx.hold last) form
    evalBody ctx value rest

/-- Evaluates the entries of a dict in order. -/
def entries (ctx : Context) : (made : Dict) → Dict → CallTree Dict
  | made, [] => pure made
  | made, (key, value) :: rest => do
    let key ← evaluate (ctx.hold (.dict made)) key
    let value ← evaluate (ctx.holdAll [key, .dict made]) value
    entries ctx (Dict.insert key value made) rest

/-- The tree of an application, in the context of its caller. -/
abbrev Applications := Context → Value → List Value → CallTree Value

/-- The tree of a procedure of the host. -/
abbrev Procedures := Context → Procedure → CallTree Value

/-- A resolved call; `host` gives the trees of the procedures. -/
def ofCallWith (host : Procedures) (ctx : Context) : Call → CallTree Value
  | .body scope bodies => do
    let b ← lift Action.get
    within (.persistent scope) (evalBody (ctx.hold (.env b.env)) .null bodies)
  | .nested expr s => do
    let b ← lift Action.get
    let (value, s) ← onState s (evaluate (ctx.holdAll [expr, .state b.intoState]) expr)
    return .vector [value, .state s]
  | .operation op args => lift fun b =>
    match op.run b args with
    | .ok (value, refs) => (.ok value, { b with refs := refs })
    | .error e => (.error e, b)
  | .procedure p args => host (ctx.holdAll args) p

/-- An application that a procedure makes; `host` gives the trees of the procedures. -/
def ofApplyWith (host : Procedures) : Applications := fun ctx func args =>
  match Call.resolve ctx.table args func with
  | .error e => fail e
  | .ok call => ofCallWith host (ctx.forCall func args) call

/-- The steps of a procedure; `applications` gives the trees of its applications. -/
def ofProcedure (applications : (frames : Nat) → Applications) (ctx : Context) :
    Procedure → CallTree Value
  | .done outcome => done outcome
  | .lookup name next => get fun b => ofProcedure applications ctx (next (b.env.lookup name))
  | .define name value next => do
    lift (Action.define name value)
    ofProcedure applications ctx next
  | .eval expr kept next => do
    let outcome ← (evaluate (ctx.holdAll kept) expr).outcome
    ofProcedure applications ctx (next outcome)
  | .apply frames func args kept next => do
    let outcome ← (applications frames (ctx.holdAll kept) func args).outcome
    ofProcedure applications ctx (next outcome)

/-- A procedure that other procedures apply, as long as `frames` are left. -/
def ofRunWithin : (frames : Nat) → Procedures
  | 0 => fun _ _ => fail (.failed .hostStack)
  | frames + 1 => ofProcedure fun _ => ofApplyWith (ofRunWithin frames)

/-- A procedure that is called from the program. -/
def ofHost : Procedures := ofProcedure fun frames => ofApplyWith (ofRunWithin frames)

/-- A resolved call. -/
def ofCall (ctx : Context) (call : Call) : CallTree Value := ofCallWith ofHost ctx call

open SpecialForm in
/-- A `def` form. -/
def runDefine (ctx : Context) (operands : List Value) : CallTree Value := do
  let (name, expr) ← done (define.target operands)
  let value ← evaluate ctx expr
  lift (Action.define name value)
  return .null

open SpecialForm in
/-- A `def-rec` form. -/
def runDefineRec (ctx : Context) (operands : List Value) : CallTree Value := do
  let (name, expr) ← done (defineRec.target operands)
  let value ← evaluate ctx expr
  match value with
  | .lambda fn =>
    let b ← lift Action.get
    if ctx.holds fn.serial b then fail (defineRec.error .aliasedFunction)
    else
      lift (Action.define name (.lambdaRec name fn))
      return .null
  | .lambdaRec _ _ => fail (defineRec.error .aliasedFunction)
  | _ => fail (defineRec.error .notAFunction)

open SpecialForm in
/-- An `if` form. -/
def runBranch (ctx : Context) : List Value → CallTree Value
  | [test, yes, no] => do
    let value ← evaluate ctx test
    if value.isTruthy then evaluate ctx yes else evaluate ctx no
  | operands => fail (branch.arityError 3 operands.length)

/-- The clauses of a `cond` form. -/
def runClauses (ctx : Context) : List Value → CallTree Value
  | test :: expr :: rest => do
    let value ← evaluate ctx test
    if value.isTruthy then evaluate ctx expr else runClauses ctx rest
  | _ => pure .null

open SpecialForm in
/-- A `cond` form. -/
def runCond (ctx : Context) (operands : List Value) : CallTree Value :=
  if operands.length % 2 = 0 then runClauses ctx operands
  else fail (cond.arityError (operands.length + 1) operands.length)

/-- The forms of a module. -/
def runForms (ctx : Context) : List Value → CallTree Unit
  | [] => pure ()
  | form :: rest => do
    let _ ← evaluate ctx form
    runForms ctx rest

open SpecialForm in
/-- A `module` form. -/
def runModule (ctx : Context) : List Value → CallTree Value
  | [] => fail (module.arityError 1 0)
  | metadata :: forms => do
    let value ← evaluate ctx metadata
    match Metadata.ofValue value with
    | .error fault => fail (.invalidDeclaration fault value)
    | .ok info =>
      let b ← lift Action.get
      let ctx := ctx.holdAll [value, .env b.env]
      let env ← within (.mutable b.env.thaw) do
        runForms ctx forms
        return (← lift Action.get).env
      match info.missing env with
      | [] => return info.toValue env
      | names => fail (.undefinedExports names)

/-- A special form on its operands. -/
def ofForm (ctx : Context) (operands : List Value) : SpecialForm → CallTree Value
  | .closure => lift (SpecialForm.runClosure operands)
  | .quote => lift (SpecialForm.runQuote operands)
  | .define => runDefine ctx operands
  | .defineRec => runDefineRec ctx operands
  | .sequence => evalBody ctx .null operands
  | .branch => runBranch ctx operands
  | .cond => runCond ctx operands
  | .module => runModule ctx operands

/-- How an evaluation ends: with a value, or with an application as the last thing to
do.  The context is that of the call. -/
inductive Tail where
  | value (v : Value)
  | apply (ctx : Context) (func : Value) (args : List Value)

/-- Ends with the value of a tree. -/
def toTail (x : CallTree Value) : CallTree Tail := x.andThen fun o => done (o.map .value)

/-- The tree of an expression. -/
def ofExpr (ctx : Context) : Value → CallTree Tail
  | .atom name => toTail (lift (Eval.atom ctx name))
  | .list [] => fail (.wrongNumberArgs "application" 2 0)
  | .list (head :: operands) =>
    match SpecialForm.ofHead? head with
    | some form => toTail (ofForm ctx operands form)
    | none => do
      let func ← evaluate ctx head
      let args ← evalAll (ctx.hold func) operands
      return .apply (ctx.forCall func args) func args
  | .vector items => do return .value (.vector (← evalAll ctx items))
  | .dict items => do return .value (.dict (← entries ctx [] items))
  | value => pure (.value value)

/-! ### A tree runs as a step of the evaluator does -/

section

variable {evaluator : Evaluator} {ctx : Context}

/-- The tree of operands runs as their evaluation. -/
theorem run_evalAll (exprs : List Value) :
    (evalAll ctx exprs).run evaluator = CapLisp.evalAll evaluator ctx exprs := by
  induction exprs generalizing ctx with
  | nil => rfl
  | cons expr rest ih =>
    refine run_bind_eq rfl fun value => ?_
    exact run_bind_eq ih fun values => rfl

/-- The tree of forms in a row runs as their evaluation. -/
theorem run_evalBody (last : Value) (forms : List Value) :
    (evalBody ctx last forms).run evaluator = CapLisp.evalBody evaluator ctx last forms := by
  induction forms generalizing last with
  | nil => rfl
  | cons form rest ih => exact run_bind_eq rfl fun value => ih value

/-- The tree of entries runs as their evaluation. -/
theorem run_entries (made dict : Dict) :
    (entries ctx made dict).run evaluator = Eval.entries evaluator ctx made dict := by
  induction dict generalizing made with
  | nil => rfl
  | cons entry rest ih =>
    obtain ⟨key, value⟩ := entry
    refine run_bind_eq rfl fun key => ?_
    exact run_bind_eq rfl fun value => ih _

/-- The tree of a call runs as the call does, if the trees of procedures do. -/
theorem run_ofCallWith {host : Procedures} {runner : Runner}
    (hhost : ∀ ctx p, (host ctx p).run evaluator = runner ctx p) (call : Call) :
    (ofCallWith host ctx call).run evaluator = call.runWith evaluator runner ctx := by
  cases call with
  | body scope bodies =>
    exact run_bind_eq rfl fun b => run_within _ (run_evalBody .null bodies)
  | nested expr s =>
    refine run_bind_eq rfl fun b => ?_
    exact run_bind_eq (run_onState s rfl) fun r => rfl
  | operation op args =>
    rfl
  | procedure p args => exact hhost _ p

/-- The tree of an application runs as the application does. -/
theorem run_ofApplyWith {host : Procedures} {runner : Runner}
    (hhost : ∀ ctx p, (host ctx p).run evaluator = runner ctx p) (ctx : Context) (func : Value)
    (args : List Value) :
    (ofApplyWith host ctx func args).run evaluator = applyWith evaluator runner ctx func args := by
  unfold ofApplyWith applyWith
  cases Call.resolve ctx.table args func with
  | error e => rfl
  | ok call => exact run_ofCallWith hhost call

/-- The tree of a procedure runs as the procedure does, if the trees of its
applications do. -/
theorem run_ofProcedure {applications : Nat → Applications} {applier : Nat → Applier}
    (happly : ∀ frames ctx func args,
      (applications frames ctx func args).run evaluator = applier frames ctx func args)
    (ctx : Context) (p : Procedure) :
    (ofProcedure applications ctx p).run evaluator = p.run evaluator applier ctx := by
  induction p with
  | done outcome => rfl
  | lookup name next ih =>
    funext b
    exact congrFun (ih _) b
  | define name value next ih => exact run_bind_eq rfl fun _ => ih
  | eval expr kept next ih => exact run_bind_eq (run_outcome rfl) fun outcome => ih outcome
  | apply frames func args kept next ih =>
    exact run_bind_eq (run_outcome (happly frames _ func args)) fun outcome => ih outcome

/-- The trees of procedures inside one another run as the procedures do. -/
theorem run_ofRunWithin (frames : Nat) (ctx : Context) (p : Procedure) :
    (ofRunWithin frames ctx p).run evaluator = Procedure.runWithin evaluator frames ctx p := by
  induction frames generalizing ctx p with
  | zero => rfl
  | succ frames ih => exact run_ofProcedure (fun _ => run_ofApplyWith ih) ctx p

/-- The tree of a call runs as the call does. -/
theorem run_ofCall (call : Call) : (ofCall ctx call).run evaluator = call.run evaluator ctx :=
  run_ofCallWith (run_ofProcedure fun frames => run_ofApplyWith (run_ofRunWithin frames)) call

/-- The tree of a definition runs as the definition. -/
theorem run_runDefine (operands : List Value) :
    (runDefine ctx operands).run evaluator = SpecialForm.runDefine evaluator ctx operands := by
  refine run_bind_eq rfl fun target => ?_
  exact run_bind_eq rfl fun value => rfl

/-- The tree of a recursive definition runs as the definition. -/
theorem run_runDefineRec (operands : List Value) :
    (runDefineRec ctx operands).run evaluator =
      SpecialForm.runDefineRec evaluator ctx operands := by
  refine run_bind_eq rfl fun target => run_bind_eq rfl fun value => ?_
  cases value with
  | lambda fn =>
    refine run_bind_eq rfl fun b => ?_
    split <;> rfl
  | _ => rfl

/-- The tree of a branch runs as the branch. -/
theorem run_runBranch (operands : List Value) :
    (runBranch ctx operands).run evaluator = SpecialForm.runBranch evaluator ctx operands := by
  match operands with
  | [test, yes, no] =>
    refine run_bind_eq rfl fun value => ?_
    split <;> rfl
  | [] | [_] | [_, _] | _ :: _ :: _ :: _ :: _ => rfl

/-- The tree of clauses runs as the clauses. -/
theorem run_runClauses (operands : List Value) :
    (runClauses ctx operands).run evaluator =
      SpecialForm.runClauses evaluator ctx operands := by
  match operands with
  | [] | [_] => rfl
  | test :: expr :: rest =>
    refine run_bind_eq rfl fun value => ?_
    split
    · rfl
    · exact run_runClauses rest

/-- The tree of a conditional runs as the conditional. -/
theorem run_runCond (operands : List Value) :
    (runCond ctx operands).run evaluator = SpecialForm.runCond evaluator ctx operands := by
  unfold runCond SpecialForm.runCond
  split
  · exact run_runClauses operands
  · rfl

/-- The tree of a module's forms runs as the forms. -/
theorem run_runForms (forms : List Value) :
    (runForms ctx forms).run evaluator = SpecialForm.runForms evaluator ctx forms := by
  induction forms with
  | nil => rfl
  | cons form rest ih => exact run_bind_eq rfl fun _ => ih

/-- The tree of a module runs as the module. -/
theorem run_runModule (operands : List Value) :
    (runModule ctx operands).run evaluator = SpecialForm.runModule evaluator ctx operands := by
  cases operands with
  | nil => rfl
  | cons metadata forms =>
    refine run_bind_eq rfl fun value => ?_
    generalize SpecialForm.Metadata.ofValue value = checked
    cases checked with
    | error fault => rfl
    | ok info =>
      refine run_bind_eq rfl fun b => ?_
      refine run_bind_eq (run_within _ (run_bind_eq (run_runForms forms) fun _ => rfl))
        fun env => ?_
      generalize info.missing env = names
      cases names <;> rfl

/-- The tree of a special form runs as the form does. -/
theorem run_ofForm (operands : List Value) (form : SpecialForm) :
    (ofForm ctx operands form).run evaluator = form.run evaluator ctx operands := by
  cases form with
  | closure => rfl
  | quote => rfl
  | define => exact run_runDefine operands
  | defineRec => exact run_runDefineRec operands
  | sequence => exact run_evalBody .null operands
  | branch => exact run_runBranch operands
  | cond => exact run_runCond operands
  | module => exact run_runModule operands

end

/-- Does what is left to do. -/
def Tail.run (evaluator : Evaluator) : Tail → Action Value
  | value v => pure v
  | apply ctx func args =>
    match Call.resolve ctx.table args func with
    | .error e => .fail e
    | .ok call => call.run evaluator ctx

/-- An application in the position of a tail runs as the application. -/
theorem Tail.run_apply_forCall (evaluator : Evaluator) (ctx : Context) (func : Value)
    (args : List Value) :
    Tail.run evaluator (.apply (ctx.forCall func args) func args) =
      applyFunction evaluator ctx func args := by
  obtain ⟨table, held⟩ := ctx
  obtain ⟨held', hheld⟩ := Context.exists_forCall_eq table held func args
  cases hresolve : Call.resolve table args func with
  | error e => simp only [run, applyFunction, applyWith, hheld, hresolve]
  | ok call =>
    simp only [run, applyFunction, applyWith, hheld, hresolve]
    rfl

/-- A tree that ends with its value leaves nothing to do. -/
theorem run_toTail {evaluator : Evaluator} {x : CallTree Value} {y : Action Value}
    (hx : x.run evaluator = y) : (toTail x).run evaluator >>= Tail.run evaluator = y := by
  funext b
  have hrun : ((toTail x).run evaluator).run b = _ := run_andThen x _ b
  rw [hx] at hrun
  refine (Action.run_bind _ _ b).trans ?_
  rw [hrun]
  change _ = y.run b
  rcases y.run b with ⟨e | v, b'⟩ <;> rfl

/-- **The tree of an expression runs as a step of the evaluator does**, once what it
leaves to do is done. -/
theorem run_ofExpr (evaluator : Evaluator) (ctx : Context) (expr : Value) :
    (ofExpr ctx expr).run evaluator >>= Tail.run evaluator = Eval.step evaluator ctx expr := by
  cases expr with
  | atom name => exact run_toTail rfl
  | list items =>
    cases items with
    | nil => rfl
    | cons head operands =>
      rw [ofExpr, Eval.step]
      cases SpecialForm.ofHead? head with
      | some form => exact run_toTail (run_ofForm operands form)
      | none =>
        refine run_bind_bind rfl fun func => run_bind_bind (run_evalAll operands) fun args => ?_
        exact Tail.run_apply_forCall evaluator ctx func args
  | vector items => exact run_bind_bind (run_evalAll items) fun values => rfl
  | dict items => exact run_bind_bind (run_entries [] items) fun dict => rfl
  | _ => rfl

end CallTree
end CapLisp
