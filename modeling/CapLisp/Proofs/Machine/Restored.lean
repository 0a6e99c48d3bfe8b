/-
# What an evaluation leaves as it found it

The evaluator is given the room and the table with each expression, so it cannot forget
to put them back.  The machine counts the open evaluations in a counter that every end of
an evaluation has to lower, and every tree that it runs names the table it evaluates
under.  Of the machine it is shown that on every outcome the counter stands where it
began (`Machine.HaltsWith`), and that nothing on the way is evaluated or applied under
another table (`Machine.Under`).

Procedures of the host are covered.  What one applies runs inside its tree, under the
table of its caller and at the depth of its caller (`CallTree.under_ofCall`).

Together with what evaluations add to the bindings this is all that an evaluation may
change (`keeps_bindings`).
-/

import CapLisp.Proofs.Growth
import CapLisp.Proofs.Machine.Requests

namespace CapLisp

namespace CallTree

/-- Tells that a tree asks for evaluations under the given table only, whatever it is
answered, and that its value is one of which `P` holds. -/
abbrev Under {α : Type} (table : Table) (P : α → Prop) (x : CallTree α) : Prop :=
  x.Asks table (fun _ => True) (fun _ => True) P

section

variable {α β : Type} {table : Table} {P : α → Prop}

/-- Every outcome will do where nothing is asked of values and errors. -/
theorem ends_any (outcome : Except Error α) : Ends (fun _ => True) (fun _ => True) outcome := by
  cases outcome <;> trivial

/-- An action asks for nothing. -/
theorem under_lift (x : Action α) : (lift x).Under table fun _ => True := .lift fun _ => ends_any _

/-- Taking the outcome as a value asks for the same. -/
theorem Asks.outcome {x : CallTree α} (hx : x.Under table P) :
    x.outcome.Under table fun _ => True :=
  hx.andThen fun _ _ => .pure trivial

/-- On a state of its own a tree asks for the same. -/
theorem Asks.onState {x : CallTree α} (hx : x.Under table P) (s : State Value) :
    (onState s x).Under table fun _ => True :=
  fun _ => hx.andThen fun _ _ _ => ends_any _

end

/-! ### Calls -/

section

variable {table : Table} {ctx : Context} {host : Procedures}

/-- Trees of procedures that ask for evaluations under the table of their context only. -/
def ProceduresUnder (table : Table) (host : Procedures) : Prop :=
  ∀ ctx p, ctx.table = table → (host ctx p).Under table fun _ => True

/-- Trees of applications that ask for evaluations under the table of their context only. -/
def ApplicationsUnder (table : Table) (applications : Applications) : Prop :=
  ∀ ctx func args, ctx.table = table → (applications ctx func args).Under table fun _ => True

/-- A resolved call evaluates under the table of its context. -/
theorem under_ofCallWith (hhost : ProceduresUnder table host) (htable : ctx.table = table)
    (call : Call) : (ofCallWith host ctx call).Under table fun _ => True := by
  cases call with
  | body scope bodies =>
    refine asks_get.bind fun b _ => ?_
    have hheld : (ctx.hold (.env b.env)).table = table := htable
    exact (asks_evalBody hheld .null fun _ _ => trivial).within _
  | nested expr s =>
    refine asks_get.bind fun b _ => ?_
    have hheld : (ctx.holdAll [expr, .state b.intoState]).table = table := htable
    have hexpr : (evaluate (ctx.holdAll [expr, .state b.intoState]) expr).Under table
        fun _ => True := asks_evaluate hheld trivial
    exact (hexpr.onState s).bind fun _ _ => .pure trivial
  | operation op args => exact under_lift _
  | procedure p args =>
    have hheld : (ctx.holdAll args).table = table := htable
    exact hhost _ p hheld

/-- An application that a procedure makes evaluates under the table of its context. -/
theorem under_ofApplyWith (hhost : ProceduresUnder table host) :
    ApplicationsUnder table (ofApplyWith host) := by
  intro ctx func args htable
  unfold ofApplyWith
  cases Call.resolve ctx.table args func with
  | error e => exact .fail trivial
  | ok call =>
    exact under_ofCallWith hhost ((Context.table_forCall ctx func args).trans htable) call

/-- A procedure evaluates and applies under the table of its context. -/
theorem under_ofProcedure {applications : Nat → Applications}
    (happly : ∀ frames, ApplicationsUnder table (applications frames)) :
    ProceduresUnder table (ofProcedure applications) := by
  intro ctx p htable
  have hheld : ∀ kept, (ctx.holdAll kept).table = table := fun _ => htable
  induction p with
  | done outcome => exact ends_any outcome
  | lookup name next ih => exact fun b => ih _
  | define name value next ih => exact (under_lift _).bind fun _ _ => ih
  | eval expr kept next ih =>
    have hexpr : (evaluate (ctx.holdAll kept) expr).Under table fun _ => True :=
      asks_evaluate (hheld kept) trivial
    exact hexpr.outcome.bind fun outcome _ => ih outcome
  | apply frames func args kept next ih =>
    exact (happly frames _ func args (hheld kept)).outcome.bind fun outcome _ => ih outcome

/-- Procedures inside one another keep to the table, however many may be open. -/
theorem under_ofRunWithin (frames : Nat) : ProceduresUnder table (ofRunWithin frames) := by
  induction frames with
  | zero => exact fun _ _ _ => .fail trivial
  | succ frames ih => exact under_ofProcedure fun _ => under_ofApplyWith ih

/-- **A call evaluates under the table of its caller**, procedures of the host included. -/
theorem under_ofCall (htable : ctx.table = table) (call : Call) :
    (ofCall ctx call).Under table fun _ => True :=
  under_ofCallWith
    (under_ofProcedure fun frames => under_ofApplyWith (under_ofRunWithin frames)) htable call

/-- One level of an application keeps to the table. -/
theorem under_ofApplication (htable : ctx.table = table) (func : Value) (args : List Value) :
    (ofApplication ctx func args).Under table (Tail.Under table) := by
  unfold ofApplication
  cases Call.resolveOnce ctx.table args func with
  | error e => exact .fail trivial
  | ok level =>
    cases level with
    | call call => exact (under_ofCall htable call).toTail
    | apply func args => exact .pure htable

end

end CallTree

namespace Machine

open CallTree

/-- Tells that a machine evaluates and applies under the given table only, now and when
it goes on with the trees that wait, whatever they are answered. -/
structure Under (table : Table) (m : Machine) : Prop where
  tree : m.tree.Under table (Tail.Under table)
  stack : ∀ next ∈ m.stack, ∀ outcome, (next outcome).Under table (Tail.Under table)

section

variable {table : Table} {m m' : Machine}

/-- The machine of an evaluation begins under the table of the evaluation. -/
theorem under_ofEval (depth : Nat) (table : Table) (held : List Value) (expr : Value)
    (b : Bindings) : (ofEval depth ⟨table, held⟩ expr b).Under table where
  tree := ⟨rfl, trivial, fun outcome _ => by cases outcome <;> trivial⟩
  stack := List.forall_mem_nil _

/-- The machine of an application begins under the table of the application. -/
theorem under_ofApply (depth : Nat) (table : Table) (held : List Value) (func : Value)
    (args : List Value) (b : Bindings) :
    (ofApply depth ⟨table, held⟩ func args b).Under table where
  tree := Context.table_forCall ⟨table, held⟩ func args
  stack := List.forall_mem_nil _

/-- The end of an evaluation goes back to a tree under the same table. -/
theorem Under.leave {outcome : Except Error Value} (h : m.Under table)
    (hleave : m.leave outcome = some m') : m'.Under table := by
  obtain ⟨depth, tree, b, stack⟩ := m
  cases stack with
  | nil => cases hleave
  | cons next stack =>
    cases hleave
    obtain ⟨hnext, hstack⟩ := List.forall_mem_cons.1 h.stack
    exact ⟨hnext outcome, hstack⟩

/-- **No step changes the table.** -/
theorem Under.step (h : m.Under table) (hstep : m.step = some m') : m'.Under table := by
  obtain ⟨depth, tree, b, stack⟩ := m
  have htree := h.tree
  match tree with
  | .get next =>
    cases hstep
    exact ⟨htree b, h.stack⟩
  | .put b' next =>
    cases hstep
    exact ⟨htree, h.stack⟩
  | .eval ctx expr next =>
    obtain ⟨htable, -, hnext⟩ := htree
    by_cases hbelow : depth < maxEvalDepth
    · rw [step_eval hbelow] at hstep
      cases hstep
      refine ⟨asks_ofExpr (fun _ _ => trivial) htable fun _ _ => trivial, ?_⟩
      exact List.forall_mem_cons.2 ⟨fun outcome => hnext outcome (ends_any outcome), h.stack⟩
    · -- At the limit the request is answered with an error.
      simp only [Machine.step, if_neg hbelow, Option.some.injEq] at hstep
      subst hstep
      exact ⟨hnext _ trivial, h.stack⟩
  | .done (.ok (.apply ctx func args)) =>
    cases hstep
    exact ⟨under_ofApplication htree func args, h.stack⟩
  | .done (.ok (.value v)) => exact h.leave hstep
  | .done (.error e) => exact h.leave hstep

/-- **No run changes the table.** -/
theorem Under.reaches (h : m.Under table) (hreach : m.Reaches m') : m'.Under table := by
  induction hreach with
  | refl => exact h
  | tail _ hstep ih => exact ih.step hstep

end

/-- Tells that a machine stands still after finitely many steps, with the given outcome
and bindings and with the depth counter where it began, and that every evaluation it asks
for and every application it makes on the way is under the given table. -/
structure Restores (table : Table) (start : Machine) (r : Except Error Value × Bindings) :
    Prop where
  halts : start.HaltsWith r
  evaluations : ∀ m, start.Reaches m → ∀ ctx expr next, m.tree = .eval ctx expr next →
    ctx.table = table
  applications : ∀ m, start.Reaches m → ∀ ctx func args,
    m.tree = .done (.ok (.apply ctx func args)) → ctx.table = table

/-- What begins under a table restores the counter and the table. -/
theorem Under.restores {table : Table} {start : Machine} {r : Except Error Value × Bindings}
    (h : start.Under table) (hhalts : start.HaltsWith r) : start.Restores table r where
  halts := hhalts
  evaluations m hreach ctx expr next hm := by
    have htree := (h.reaches hreach).tree
    rw [hm] at htree
    exact htree.1
  applications m hreach ctx func args hm := by
    have htree := (h.reaches hreach).tree
    rw [hm] at htree
    exact htree

/-- Evaluating restores the depth counter and the table, whatever the outcome. -/
theorem restores_ofEval (depth : Nat) (table : Table) (held : List Value) (expr : Value)
    (b : Bindings) :
    (ofEval depth ⟨table, held⟩ expr b).Restores table
      ((Eval.eval (maxEvalDepth - depth) ⟨table, held⟩ expr).run b) := by
  have hanswers : Answers depth (Eval.eval (maxEvalDepth - depth)) := answers_eval rfl
  exact (under_ofEval depth table held expr b).restores
    (haltsWith rfl (hanswers ⟨table, held⟩ expr _ b []))

/-- Applying restores the depth counter and the table, whatever the outcome. -/
theorem restores_ofApply (depth : Nat) (table : Table) (held : List Value) (func : Value)
    (args : List Value) (b : Bindings) :
    (ofApply depth ⟨table, held⟩ func args b).Restores table
      ((applyFunction (Eval.eval (maxEvalDepth - depth)) ⟨table, held⟩ func args).run b) := by
  have hanswers : Answers depth (Eval.eval (maxEvalDepth - depth)) := answers_eval rfl
  have happly := reaches_apply hanswers ((Context.mk table held).forCall func args) func args b []
  rw [Tail.run_apply_forCall] at happly
  exact (under_ofApply depth table held func args b).restores (haltsWith rfl happly)

end Machine

/-- **What evaluation may change.**  Under any table, procedures of the host included, at
any depth, from any bindings and for every outcome: an evaluation, and an application of
a value to arguments, ends with the depth counter where it began and keeps to its table
throughout.  The environment afterwards is what it was with some definitions added, in
the same variant and with every name still bound; the frames of a persistent one stand
behind the newer ones, and every slot is still there.  Applying a closure leaves the
environment of its caller exactly as it was. -/
theorem keeps_bindings (table : Table) (depth : Nat) (held : List Value) (b : Bindings) :
    let room := maxEvalDepth - depth
    (∀ expr : Value,
      let r := (Eval.eval room ⟨table, held⟩ expr).run b
      (Machine.ofEval depth ⟨table, held⟩ expr b).Restores table r ∧ b.Keeps r.2) ∧
    (∀ (func : Value) (args : List Value),
      let r := (applyFunction (Eval.eval room) ⟨table, held⟩ func args).run b
      (Machine.ofApply depth ⟨table, held⟩ func args b).Restores table r ∧ b.Keeps r.2) ∧
    (∀ (fn : Closure Value) (args : List Value),
      ((applyFunction (Eval.eval room) ⟨table, held⟩ (.lambda fn) args).run b).2.env = b.env) ∧
    ∀ (name : String) (fn : Closure Value) (args : List Value),
      ((applyFunction (Eval.eval room) ⟨table, held⟩ (.lambdaRec name fn) args).run b).2.env =
        b.env := by
  intro room
  have heval : AddingEval table (Eval.eval room) := addingEval_eval table room
  refine ⟨fun expr => ⟨?_, ?_⟩, fun func args => ⟨?_, ?_⟩, fun fn args => ?_,
    fun name fn args => ?_⟩
  · exact Machine.restores_ofEval depth table held expr b
  · have hadds : (Eval.eval room ⟨table, held⟩ expr).Adds := heval held expr
    exact (hadds b).keeps
  · exact Machine.restores_ofApply depth table held func args b
  · have hadds : (applyFunction (Eval.eval room) ⟨table, held⟩ func args).Adds :=
      Congruence.rel_applyFunction (addingHosts heval) heval func args
    exact (hadds b).keeps
  · exact env_applyFunction_of_enter _ held (Call.Resolves.lambda fn args).resolve_eq b
  · exact env_applyFunction_of_enter _ held (Call.Resolves.lambdaRec name fn args).resolve_eq b

end CapLisp
