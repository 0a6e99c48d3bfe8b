/-
# Applications by name

An application whose operator is the name of a primitive evaluates its operands and
calls the primitive.  What the call comes to is read off the check of its arguments, and
for an operation off the operation.

| application | comes to |
| --- | --- |
| of a primitive that refuses the arguments | the refusal (`run_call_refused`) |
| of an operation that accepts them | a run of the operation (`run_call_operation`) |
| of `apply` to a function and a list | the application of the function (`resolve_apply`) |
-/

import CapLisp.Eval.Evaluator
import CapLisp.Proofs.Resolve

namespace CapLisp

/-- Tells that a table has a primitive under its own name. -/
def Table.Grants (table : Table) (p : Primitive) : Prop := table.find? p.name = some p

/-- The call of an operation by its name. -/
def Operation.call (eval : Evaluator) (ctx : Context) (args : List Value) (op : Operation) :
    Action Value :=
  applyFunction eval ctx (.primFn op.name) args

section

variable {table : Table} {eval : Evaluator} {held args : List Value} {b : Bindings}

/-! ### Calls -/

/-- An application runs what it resolves to, under the same table, whatever runs the
procedures of the host.  What it holds besides its caller does not depend on the caller. -/
theorem exists_applyWith_eq (table : Table) (func : Value) (args : List Value) :
    ∃ kept, ∀ (eval : Evaluator) (host : Runner) (held : List Value),
      applyWith eval host ⟨table, held⟩ func args =
        match Call.resolve table args func with
        | .error e => .fail e
        | .ok call => call.runWith eval host ⟨table, kept ++ held⟩ := by
  obtain ⟨kept, hkept⟩ := Context.exists_forCall_eq_append table func args
  refine ⟨kept, fun eval host held => ?_⟩
  unfold applyWith
  cases Call.resolve table args func with
  | error e => rfl
  | ok call => exact congrArg (Call.runWith eval host · call) (hkept held)

/-- The same for an application from the program. -/
theorem exists_applyFunction_eq (table : Table) (func : Value) (args : List Value) :
    ∃ kept, ∀ (eval : Evaluator) (held : List Value),
      applyFunction eval ⟨table, held⟩ func args =
        match Call.resolve table args func with
        | .error e => .fail e
        | .ok call => call.run eval ⟨table, kept ++ held⟩ := by
  obtain ⟨kept, hrun⟩ := exists_applyWith_eq table func args
  exact ⟨kept, fun eval held => hrun eval _ held⟩

/-- The same where it does not matter what is held. -/
theorem exists_run_applyFunction (table : Table) (eval : Evaluator) (held args : List Value)
    (func : Value) :
    ∃ held', applyFunction eval ⟨table, held⟩ func args =
      match Call.resolve table args func with
      | .error e => .fail e
      | .ok call => call.run eval ⟨table, held'⟩ := by
  obtain ⟨kept, hrun⟩ := exists_applyFunction_eq table func args
  exact ⟨kept ++ held, hrun eval held⟩

/-- A call whose arguments are refused does nothing else. -/
theorem run_call_refused {p : Primitive} (hgrant : table.Grants p) {e : Error}
    (hcheck : p.check args = .error e) :
    (applyFunction eval ⟨table, held⟩ (.primFn p.name) args).run b = (.error e, b) := by
  obtain ⟨held', hrun⟩ := exists_run_applyFunction table eval held args (.primFn p.name)
  rw [hrun, (Call.Resolves.refused hgrant hcheck).resolve_eq]
  rfl

/-- The call of an operation on arguments that it accepts. -/
theorem run_call_operation {op : Operation} (hgrant : table.Grants (.operation op))
    (hcheck : (Primitive.operation op).check args = .ok ()) :
    (op.call eval ⟨table, held⟩ args).run b =
      match op.run b args with
      | .ok (v, refs) => (.ok v, { b with refs := refs })
      | .error e => (.error e, b) := by
  have hresolve : Call.resolve table args (.primFn op.name) = .ok (.operation op args) :=
    (Call.Resolves.operation hgrant hcheck (Operation.fits_of_check hcheck)).resolve_eq
  obtain ⟨held', hrun⟩ := exists_run_applyFunction table eval held args (.primFn op.name)
  rw [Operation.call, hrun, hresolve]
  rfl

/-- The call of an operation that leaves the store alone. -/
theorem run_call_pure {op : Operation} (hgrant : table.Grants (.operation op))
    (hcheck : (Primitive.operation op).check args = .ok ())
    (hpure : op.run b args = (op.result args).map fun v => (v, b.refs)) :
    (op.call eval ⟨table, held⟩ args).run b = (op.result args, b) := by
  rw [run_call_operation hgrant hcheck, hpure]
  cases op.result args <;> rfl

/-- A call of `apply` resolves as the application of its function to its list does. -/
theorem resolve_apply (hgrant : table.Grants .apply) {func list : Value} {items : List Value}
    (hlist : list = .list items ∨ list = .vector items) :
    Call.resolve table [func, list] (.primFn "apply") = Call.resolve table items func := by
  rcases hlist with rfl | rfl
  · exact (Call.Resolves.apply_list hgrant (Call.resolves table items func)).resolve_eq
  · exact (Call.Resolves.apply_vector hgrant (Call.resolves table items func)).resolve_eq

/-- **A procedure applies a function as the program does**: no level is taken, and the
stack of the host does not show unless the function is a procedure itself. -/
theorem applyWith_eq_applyFunction {ctx : Context} {func : Value} (host : Runner)
    (hcall : ∀ p rest, Call.resolve ctx.table args func ≠ .ok (.procedure p rest)) :
    applyWith eval host ctx func args = applyFunction eval ctx func args := by
  unfold applyFunction applyWith
  cases hresolve : Call.resolve ctx.table args func with
  | error e => rfl
  | ok call =>
    cases call with
    | procedure p rest => exact absurd hresolve (hcall p rest)
    | _ => rfl

/-- A procedure that applies `+` where no level is left for an evaluation. -/
example :
    let three : Primitive := .host "three" ⟨.exact 0, []⟩ fun _ =>
      .apply 0 (.primFn "+") [.number 1, .number 2] [] .done
    ((applyFunction (Eval.eval 0) ⟨three :: Table.shipped, []⟩ (.primFn "three") []).run
      .empty).1 = .ok (.number 3) := by
  rfl

/-! ### Forms -/

/-- The name of a primitive that is granted evaluates to the primitive. -/
theorem eval_name {p : Primitive} (hgrant : table.Grants p) (room : Nat) (held : List Value) :
    Eval.eval (room + 1) ⟨table, held⟩ (.atom p.name) = pure (.primFn p.name) := by
  have hcontains : table.contains p.name = true := by
    rw [Table.contains, hgrant]
    rfl
  exact if_pos hcontains

/-- An application evaluates the operator, then the operands, and applies what they come to. -/
theorem eval_application {f : Value} (hf : SpecialForm.ofHead? f = none) (room : Nat)
    (held operands : List Value) :
    Eval.eval (room + 1) ⟨table, held⟩ (.list (f :: operands)) = (do
      let func ← Eval.eval room ⟨table, held⟩ f
      let args ← evalAll (Eval.eval room) ⟨table, func :: held⟩ operands
      applyFunction (Eval.eval room) ⟨table, held⟩ func args) := by
  rw [Eval.eval, Eval.step]
  simp only [hf]
  rfl

/-- The name of an operation is that of no special form. -/
theorem ofHead?_name (op : Operation) : SpecialForm.ofHead? (.atom op.name) = none := by
  cases op <;> rfl

/-- A form with the name of an operation at its head evaluates its operands and calls the
operation. -/
theorem eval_operationForm {op : Operation} (hgrant : table.Grants (.operation op)) (room : Nat)
    (held operands : List Value) :
    Eval.eval (room + 2) ⟨table, held⟩ (.list (.atom op.name :: operands)) = (do
      let args ← evalAll (Eval.eval (room + 1)) ⟨table, .primFn op.name :: held⟩ operands
      op.call (Eval.eval (room + 1)) ⟨table, held⟩ args) := by
  have hname : Eval.eval (room + 1) ⟨table, held⟩ (.atom op.name) = pure (.primFn op.name) :=
    eval_name hgrant room held
  rw [eval_application (ofHead?_name op), hname]
  rfl

end

end CapLisp
