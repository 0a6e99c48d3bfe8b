/-
# Steps over related evaluators

A step of evaluation leaves the evaluations inside it to an evaluator that it
is given.  All else is put together from a few actions in a few ways.  So a
relation of actions that holds of each of these actions and itself, and that
every way of putting actions together keeps, carries over from two evaluators
to the two steps over them (`Congruence.evaluators_step`).

| ways of putting together | actions |
| --- | --- |
| one after another: `bind` | ending at once: `pure`, `fail` |
| in another environment: `within` | looking, defining: `get`, `define` |
| on a state of its own: `onState` | a serial number, an operation: `nextSerial`, `operation` |

Every form is covered, `def-rec` included.  The first of the two runs may hold
values besides those that the second one holds (`beside`); what `def-rec` makes
of that is left to the relation (`recursion`), and so is what a procedure of the
host does.  A procedure goes on after an error, so a relation that keeps the
outcomes of related actions related covers every procedure as well
(`hosts_of_outcome`).
-/

import CapLisp.Proofs.Applications

namespace CapLisp
namespace SpecialForm

/-- The end of a `def-rec` whose expression came to a closure: the name is bound to
what sees itself under it, unless something holds the closure. -/
def makeRecursive (ctx : Context) (name : String) (fn : Closure Value) : Action Value := do
  let b ← Action.get
  if ctx.holds fn.serial b then .fail (defineRec.error .aliasedFunction)
  else
    Action.define name (.lambdaRec name fn)
    return .null

/-- A closure is made recursive exactly if nothing holds it. -/
theorem run_makeRecursive (ctx : Context) (name : String) (fn : Closure Value) (b : Bindings) :
    (makeRecursive ctx name fn).run b =
      if ctx.holds fn.serial b then (.error (defineRec.error .aliasedFunction), b)
      else (.ok .null, b.define name (.lambdaRec name fn)) := by
  change ((if ctx.holds fn.serial b then _ else _ : Action Value).run b) = _
  split <;> rfl

end SpecialForm

/-- A relation of actions that the parts of a step keep. -/
structure Congruence where
  rel : {α : Type} → Action α → Action α → Prop
  beside : List Value → List Value
  beside_append : ∀ kept held, beside (kept ++ held) = kept ++ beside held
  pure : ∀ {α : Type} (a : α), rel (Pure.pure a) (Pure.pure a)
  fail : ∀ {α : Type} (e : Error), rel (Action.fail e : Action α) (Action.fail e)
  get : rel Action.get Action.get
  define : ∀ name v, rel (Action.define name v) (Action.define name v)
  nextSerial : rel Action.nextSerial Action.nextSerial
  operation : ∀ eval ctx {op args}, Operation.Fits op args →
    rel (Call.run eval ctx (.operation op args)) (Call.run eval ctx (.operation op args))
  bind : ∀ {α β : Type} {x x' : Action α} {next next' : α → Action β}, rel x x' →
    (∀ a, rel (next a) (next' a)) → rel (x >>= next) (x' >>= next')
  within : ∀ {α : Type} (e : Env Value) {x x' : Action α}, rel x x' →
    rel (Action.within e x) (Action.within e x')
  onState : ∀ {α : Type} (s : State Value) {x x' : Action α}, rel x x' →
    rel (Action.onState s x) (Action.onState s x')
  recursion : ∀ table held name fn, rel (SpecialForm.makeRecursive ⟨table, beside held⟩ name fn)
    (SpecialForm.makeRecursive ⟨table, held⟩ name fn)

namespace Congruence

/-- Where both runs hold the same, nothing is beside. -/
theorem id_append (kept held : List Value) : id (kept ++ held) = kept ++ id held := rfl

variable (R : Congruence) {table : Table} {eval eval' : Evaluator} {host host' : Runner}
  {held : List Value}

/-- Two evaluators that are related on every expression. -/
def Evaluators (table : Table) (eval eval' : Evaluator) : Prop :=
  ∀ (held : List Value) (expr : Value),
    R.rel (eval ⟨table, R.beside held⟩ expr) (eval' ⟨table, held⟩ expr)

/-- Two ways of running the procedures of the host that are related on each of them. -/
def Hosts (table : Table) (host host' : Runner) : Prop :=
  ∀ name signature steps, Primitive.host name signature steps ∈ table →
    ∀ (held args : List Value),
      R.rel (host ⟨table, R.beside held⟩ (steps args)) (host' ⟨table, held⟩ (steps args))

variable {R}

/-- A newly held value stands in front of those held beside. -/
theorem beside_cons (v : Value) (held : List Value) : R.beside (v :: held) = v :: R.beside held :=
  R.beside_append [v] held

/-- What is held on top of the rest is the same in both runs. -/
theorem Evaluators.onTop (heval : R.Evaluators table eval eval') (kept : List Value)
    (expr : Value) :
    R.rel (eval ⟨table, kept ++ R.beside held⟩ expr) (eval' ⟨table, kept ++ held⟩ expr) := by
  rw [← R.beside_append]
  exact heval _ expr

/-- A part of the shipped catalog has no procedure of the host. -/
theorem hosts_of_subset (htable : table ⊆ Table.shipped) (host host' : Runner) :
    R.Hosts table host host' :=
  fun _ _ _ hmem => absurd hmem (Table.host_not_mem_of_subset htable)

/-- A fixed outcome does not look at what is held. -/
theorem rel_ofExcept {α : Type} (outcome : Except Error α) :
    R.rel (Action.ofExcept outcome) (Action.ofExcept outcome) := by
  cases outcome with
  | ok a => exact R.pure a
  | error e => exact R.fail e

/-! ### Calls -/

/-- Operands evaluate alike if expressions do. -/
theorem rel_evalAll (heval : R.Evaluators table eval eval') (exprs : List Value) :
    R.rel (evalAll eval ⟨table, R.beside held⟩ exprs) (evalAll eval' ⟨table, held⟩ exprs) := by
  induction exprs generalizing held with
  | nil => exact R.pure []
  | cons expr rest ih =>
    refine R.bind (heval held expr) fun value => ?_
    have hrest := @ih (value :: held)
    rw [R.beside_cons] at hrest
    exact R.bind hrest fun values => R.pure (value :: values)

/-- Forms in a row evaluate alike if expressions do. -/
theorem rel_evalBody (heval : R.Evaluators table eval eval') (last : Value) (forms : List Value) :
    R.rel (evalBody eval ⟨table, R.beside held⟩ last forms)
      (evalBody eval' ⟨table, held⟩ last forms) := by
  induction forms generalizing last with
  | nil => exact R.pure last
  | cons form rest ih => exact R.bind (heval.onTop [last] form) fun value => ih value

/-- The body of a closure evaluates alike if expressions do. -/
theorem rel_call_body (heval : R.Evaluators table eval eval') (scope : Chain Value)
    (bodies : List Value) :
    R.rel (Call.runWith eval host ⟨table, R.beside held⟩ (.body scope bodies))
      (Call.runWith eval' host' ⟨table, held⟩ (.body scope bodies)) := by
  refine R.bind R.get fun b => R.within _ ?_
  have hbody := @rel_evalBody R table eval eval' (.env b.env :: held) heval .null bodies
  rwa [R.beside_cons] at hbody

/-- A nested evaluation runs alike if expressions evaluate alike. -/
theorem rel_call_nested (heval : R.Evaluators table eval eval') (expr : Value) (s : State Value) :
    R.rel (Call.runWith eval host ⟨table, R.beside held⟩ (.nested expr s))
      (Call.runWith eval' host' ⟨table, held⟩ (.nested expr s)) := by
  refine R.bind R.get fun b => ?_
  refine R.bind (R.onState s (heval.onTop [expr, .state b.intoState] expr)) fun r => ?_
  exact R.pure (Value.vector [r.1, .state r.2])

/-- Applications are related where the evaluations inside are, and the procedures. -/
theorem rel_applyWith (hhosts : R.Hosts table host host') (heval : R.Evaluators table eval eval')
    (func : Value) (args : List Value) :
    R.rel (applyWith eval host ⟨table, R.beside held⟩ func args)
      (applyWith eval' host' ⟨table, held⟩ func args) := by
  obtain ⟨kept, hrun⟩ := exists_applyWith_eq table func args
  have hresolves := Call.resolves table args func
  rw [hrun, hrun, ← R.beside_append]
  clear hrun
  generalize Call.resolve table args func = outcome at hresolves ⊢
  induction hresolves with
  | lambda fn args | lambdaRec name fn args =>
    unfold Call.enter
    by_cases hlength : fn.params.length = args.length
    · rw [if_pos hlength]
      exact rel_call_body heval _ _
    · rw [if_neg hlength]
      exact R.fail _
  | unknown | refused | notAFunction => exact R.fail _
  | nested _ expr s => exact rel_call_nested heval expr s
  | operation _ _ hfits => exact R.operation eval ⟨table, held⟩ hfits
  | @procedure _ _ _ steps args hfind _ =>
    have hsteps := hhosts _ _ _ (Table.mem_of_find? hfind) (args ++ (kept ++ held)) args
    rwa [R.beside_append] at hsteps
  | apply_list _ _ ih | apply_vector _ _ ih => exact ih

/-- **Applications are related** where the evaluations inside are. -/
theorem rel_applyFunction
    (hhosts : R.Hosts table (Procedure.runHost eval) (Procedure.runHost eval'))
    (heval : R.Evaluators table eval eval') (func : Value) (args : List Value) :
    R.rel (applyFunction eval ⟨table, R.beside held⟩ func args)
      (applyFunction eval' ⟨table, held⟩ func args) :=
  rel_applyWith hhosts heval func args

/-! ### Procedures of the host -/

section Procedures

variable (houtcome : ∀ {α : Type} {x x' : Action α}, R.rel x x' → R.rel x.outcome x'.outcome)

include houtcome

/-- The steps of a procedure are related where its evaluations and applications are. -/
theorem rel_procedure {applier applier' : Nat → Applier} (heval : R.Evaluators table eval eval')
    (happly : ∀ frames held func args, R.rel (applier frames ⟨table, R.beside held⟩ func args)
      (applier' frames ⟨table, held⟩ func args)) (p : Procedure) :
    R.rel (p.run eval applier ⟨table, R.beside held⟩)
      (p.run eval' applier' ⟨table, held⟩) := by
  induction p with
  | done outcome => exact rel_ofExcept outcome
  | lookup name next ih => exact R.bind R.get fun b => ih _
  | define name v next ih => exact R.bind (R.define name v) fun _ => ih
  | eval expr kept next ih => exact R.bind (houtcome (heval.onTop kept expr)) ih
  | apply frames func args kept next ih =>
    have hinner := happly frames (kept ++ held) func args
    rw [R.beside_append] at hinner
    exact R.bind (houtcome hinner) ih

/-- Procedures that other procedures apply are related, however many may be open. -/
theorem hosts_runWithin (heval : R.Evaluators table eval eval') (frames : Nat) :
    R.Hosts table (Procedure.runWithin eval frames) (Procedure.runWithin eval' frames) := by
  induction frames with
  | zero => exact fun _ _ _ _ _ _ => R.fail _
  | succ frames ih =>
    exact fun _ _ steps _ _ args =>
      rel_procedure houtcome heval (fun _ _ => rel_applyWith ih heval) (steps args)

/-- **Every procedure of the host is related to itself** over related evaluators. -/
theorem hosts_of_outcome (heval : R.Evaluators table eval eval') :
    R.Hosts table (Procedure.runHost eval) (Procedure.runHost eval') :=
  fun _ _ steps _ _ args => rel_procedure houtcome heval
    (fun frames _ => rel_applyWith (hosts_runWithin houtcome heval frames) heval) (steps args)

end Procedures

/-! ### Special forms -/

open SpecialForm

/-- Making a closure does not look at what is held. -/
theorem rel_runClosure (operands : List Value) :
    R.rel (runClosure operands) (runClosure operands) := by
  unfold runClosure
  split
  · split
    · exact R.fail _
    · exact R.bind R.get fun b => R.bind R.nextSerial fun serial => R.pure _
  · exact R.fail _
  · exact R.fail _

/-- Quoting does not look at what is held. -/
theorem rel_runQuote (operands : List Value) : R.rel (runQuote operands) (runQuote operands) := by
  match operands with
  | [form] => exact R.pure form
  | [] | _ :: _ :: _ => exact R.fail _

/-- A definition runs alike if expressions evaluate alike. -/
theorem rel_runDefine (heval : R.Evaluators table eval eval') (operands : List Value) :
    R.rel (runDefine eval ⟨table, R.beside held⟩ operands)
      (runDefine eval' ⟨table, held⟩ operands) := by
  refine R.bind (rel_ofExcept _) fun target => R.bind (heval held target.2) fun value => ?_
  exact R.bind (R.define target.1 value) fun _ => R.pure Value.null

/-- A recursive definition runs alike if expressions evaluate alike. -/
theorem rel_runDefineRec (heval : R.Evaluators table eval eval') (operands : List Value) :
    R.rel (runDefineRec eval ⟨table, R.beside held⟩ operands)
      (runDefineRec eval' ⟨table, held⟩ operands) := by
  refine R.bind (rel_ofExcept _) fun target => R.bind (heval held target.2) fun value => ?_
  cases value with
  | lambda fn => exact R.recursion table held target.1 fn
  | _ => exact R.fail _

/-- A branch runs alike if expressions evaluate alike. -/
theorem rel_runBranch (heval : R.Evaluators table eval eval') (operands : List Value) :
    R.rel (runBranch eval ⟨table, R.beside held⟩ operands)
      (runBranch eval' ⟨table, held⟩ operands) := by
  match operands with
  | [test, yes, no] =>
    refine R.bind (heval held test) fun value => ?_
    split
    · exact heval held yes
    · exact heval held no
  | [] | [_] | [_, _] | _ :: _ :: _ :: _ :: _ => exact R.fail _

/-- The clauses of a conditional run alike if expressions evaluate alike. -/
theorem rel_runClauses (heval : R.Evaluators table eval eval') (operands : List Value) :
    R.rel (runClauses eval ⟨table, R.beside held⟩ operands)
      (runClauses eval' ⟨table, held⟩ operands) := by
  induction operands using runClauses.induct with
  | case1 test expr rest ih =>
    refine R.bind (heval held test) fun value => ?_
    split
    · exact heval held expr
    · exact ih
  | case2 operands hno =>
    rw [runClauses.eq_2 _ _ _ hno, runClauses.eq_2 _ _ _ hno]
    exact R.pure Value.null

/-- A conditional runs alike if expressions evaluate alike. -/
theorem rel_runCond (heval : R.Evaluators table eval eval') (operands : List Value) :
    R.rel (runCond eval ⟨table, R.beside held⟩ operands)
      (runCond eval' ⟨table, held⟩ operands) := by
  unfold runCond
  split
  · exact rel_runClauses heval operands
  · exact R.fail _

/-- The forms of a module run alike if expressions evaluate alike. -/
theorem rel_runForms (heval : R.Evaluators table eval eval') (forms : List Value) :
    R.rel (runForms eval ⟨table, R.beside held⟩ forms) (runForms eval' ⟨table, held⟩ forms) := by
  induction forms with
  | nil => exact R.pure ()
  | cons form rest ih => exact R.bind (heval held form) fun _ => ih

/-- A module runs alike if expressions evaluate alike. -/
theorem rel_runModule (heval : R.Evaluators table eval eval') (operands : List Value) :
    R.rel (runModule eval ⟨table, R.beside held⟩ operands)
      (runModule eval' ⟨table, held⟩ operands) := by
  cases operands with
  | nil => exact R.fail _
  | cons metadata forms =>
    refine R.bind (heval held metadata) fun value => ?_
    cases Metadata.ofValue value with
    | error fault => exact R.fail _
    | ok info =>
      refine R.bind R.get fun b => R.bind (R.within _ ?_) fun e => ?_
      · have hforms := @rel_runForms R table eval eval' ([value, .env b.env] ++ held) heval forms
        rw [R.beside_append] at hforms
        exact R.bind hforms fun _ => R.bind R.get fun b' => R.pure b'.env
      · split
        · exact R.pure _
        · exact R.fail _

/-- Every special form is related to itself over related evaluators. -/
theorem rel_specialForm (heval : R.Evaluators table eval eval') (operands : List Value)
    (form : SpecialForm) :
    R.rel (form.run eval ⟨table, R.beside held⟩ operands)
      (form.run eval' ⟨table, held⟩ operands) := by
  cases form with
  | closure => exact rel_runClosure operands
  | quote => exact rel_runQuote operands
  | define => exact rel_runDefine heval operands
  | defineRec => exact rel_runDefineRec heval operands
  | sequence => exact rel_evalBody heval .null operands
  | branch => exact rel_runBranch heval operands
  | cond => exact rel_runCond heval operands
  | module => exact rel_runModule heval operands

/-! ### Steps -/

/-- An atom is looked up without a view of what is held. -/
theorem rel_atom (name : String) :
    R.rel (Eval.atom ⟨table, R.beside held⟩ name) (Eval.atom ⟨table, held⟩ name) := by
  unfold Eval.atom
  split
  · exact R.pure _
  · refine R.bind R.get fun b => ?_
    split
    · exact R.pure _
    · exact R.fail _

/-- The entries of a dictionary evaluate alike if expressions do. -/
theorem rel_entries (heval : R.Evaluators table eval eval') (done entries : Dict) :
    R.rel (Eval.entries eval ⟨table, R.beside held⟩ done entries)
      (Eval.entries eval' ⟨table, held⟩ done entries) := by
  induction entries generalizing done with
  | nil => exact R.pure done
  | cons entry rest ih =>
    refine R.bind (heval.onTop [.dict done] entry.1) fun key => ?_
    refine R.bind (heval.onTop [key, .dict done] entry.2) fun value => ?_
    exact ih (Dict.insert key value done)

/-- **Steps over related evaluators are related.** -/
theorem evaluators_step
    (hhosts : R.Hosts table (Procedure.runHost eval) (Procedure.runHost eval'))
    (heval : R.Evaluators table eval eval') :
    R.Evaluators table (Eval.step eval) (Eval.step eval') := by
  intro held expr
  cases expr with
  | atom name => exact rel_atom name
  | list items =>
    cases items with
    | nil => exact R.fail _
    | cons head operands =>
      rw [Eval.step, Eval.step]
      split
      · exact rel_specialForm heval operands _
      · refine R.bind (heval held head) fun func => ?_
        have hargs := @rel_evalAll R table eval eval' (func :: held) heval operands
        rw [R.beside_cons] at hargs
        exact R.bind hargs fun args => rel_applyFunction hhosts heval func args
  | vector items =>
    exact R.bind (rel_evalAll heval items) fun values => R.pure (Value.vector values)
  | dict items => exact R.bind (rel_entries heval [] items) fun dict => R.pure (Value.dict dict)
  | _ => exact R.pure _

end Congruence
end CapLisp
