/-
# Sandbox isolation

A nested evaluation runs on a state of its own.  What it comes to does not
depend on the bindings of its caller, and it leaves these as they were, also
when it defines names, writes its own slots and fails midway.

Two results are compared by their full view.  Closures that a nested
evaluation builds are numbered from where its caller's numbers end, and this
is the one trace of the caller.  A program sees it through `def-rec` only.
-/

import CapLisp.Proofs.Applications
import CapLisp.Proofs.Simulation.SimilarRuns

namespace CapLisp

/-- The view of an outcome. -/
def outcomeView (d : Detail) : Except Error Value → Except Error Value
  | .ok v => .ok (v.view d)
  | .error e => .error (e.view d)

/-- Tells that an atom occurs nowhere in a value: not in elements, keys and
values, code and scopes of closures, environments or slots. -/
def Value.Without (name : String) (v : Value) : Prop := v.Everywhere (· ≠ .atom name)

/-- Similar outcomes have the same view. -/
theorem SimilarOutcome.view_eq {d : Detail} {outcome outcome' : Except Error Value}
    (h : SimilarOutcome d (Similar d) outcome outcome') :
    outcomeView d outcome = outcomeView d outcome' := by
  cases h with
  | ok hv => exact congrArg Except.ok hv.view
  | error he => exact congrArg Except.error he.view

/-- A value without `def-rec` shows no more than its view. -/
theorem Value.Without.plain {v : Value} (h : v.Without "def-rec") : v.Plain .full := by
  refine Value.Everywhere.mono (fun w hw => ?_) h
  cases w with
  | atom name => exact fun he => hw (congrArg Value.atom he)
  | env e => exact nofun
  | state s => exact nofun
  | _ => trivial

/-- Without `def-rec` nothing tells apart which values are held. -/
theorem Invariant.heldAlike_plainness {d : Detail} {table : Table} (held held' : List Value) :
    (plainness d table).HeldAlike held held' :=
  fun _ _ hname _ => absurd rfl hname

/-- A call of `base-eval` is a nested evaluation. -/
theorem exists_run_baseEval {table : Table} {name : String}
    (hgrant : table.find? name = some .baseEval) (eval : Evaluator) (held : List Value)
    (expr : Value) (s : State Value) :
    ∃ held', applyFunction eval ⟨table, held⟩ (.primFn name) [expr, .state s] =
      Call.run eval ⟨table, held'⟩ (.nested expr s) := by
  obtain ⟨held', hrun⟩ := exists_run_applyFunction table eval held [expr, .state s] (.primFn name)
  refine ⟨held', ?_⟩
  rw [hrun, (Call.Resolves.nested hgrant expr s).resolve_eq]

/-- **A nested evaluation neither sees nor changes its caller.**  Under a table
that grants `base-eval`, at any depth, for every expression and state without
the atom `def-rec`: called from any two bindings, whatever their names, slots
and held values, `base-eval` comes to the same result and state or to the same
error, and the environment and the store of either caller are afterwards what
they were before.  Of its table and its depth `base-eval` is a reader: the run inside
begins under the table and at the depth of the caller, and neither is written.  That
the counter of a machine comes back to where it was, under one table throughout, holds of
every application (`Machine.restores_ofApply`). -/
theorem baseEval_isolated {table : Table} {name : String}
    (hgrant : table.find? name = some .baseEval) (hhosts : BlindHosts .full table) (room : Nat)
    {expr : Value} (hexpr : expr.Without "def-rec") {s : State Value}
    (hs : (Value.state s).Without "def-rec") (held held' : List Value) (b b' : Bindings) :
    let call := fun held =>
      applyFunction (Eval.eval room) ⟨table, held⟩ (.primFn name) [expr, .state s]
    outcomeView .full ((call held).run b).1 = outcomeView .full ((call held').run b').1 ∧
    (((call held).run b).2.env = b.env ∧ ((call held).run b).2.refs = b.refs) ∧
    (((call held').run b').2.env = b'.env ∧ ((call held').run b').2.refs = b'.refs) := by
  obtain ⟨kept, hkept⟩ := exists_run_baseEval hgrant (Eval.eval room) held expr s
  obtain ⟨kept', hkept'⟩ := exists_run_baseEval hgrant (Eval.eval room) held' expr s
  have houtcome : SimilarOutcome .full (Similar .full)
      ((Call.run (Eval.eval room) ⟨table, kept⟩ (.nested expr s)).run b).1
      ((Call.run (Eval.eval room) ⟨table, kept'⟩ (.nested expr s)).run b').1 :=
    similarOutcome_nested (agreeEval_eval hhosts room) (.refl hexpr.plain) (.refl hs.plain) b b'
  simp only [hkept, hkept']
  refine ⟨houtcome.view_eq, ?_⟩
  rw [Call.run_nested, Call.run_nested]
  exact ⟨⟨rfl, rfl⟩, ⟨rfl, rfl⟩⟩

/-- A host grants doubling.  One caller binds `x` and has a slot, the other does
not; the nested evaluation defines `n` and then fails at `x`. -/
theorem baseEval_isolated_double :
    let double : Primitive := .host "double" ⟨.exact 1, [.is .number]⟩ fun
      | [.number n] => .done (.ok (.number (n * 2)))
      | _ => .done (.ok .null)
    let table : Table := [.baseEval, double]
    let expr : Value := .list [.atom "do",
      .list [.atom "def", .atom "n", .list [.atom "double", .number 21]], .atom "x"]
    let s : State Value := ⟨.persistent [], [.number 5]⟩
    let call := applyFunction (Eval.eval 8) ⟨table, []⟩ (.primFn "base-eval") [expr, .state s]
    let b : Bindings := ⟨.mutable [("x", .number 1)], [.null], 3⟩
    table.find? "base-eval" = some .baseEval ∧ BlindHosts .full table ∧
    expr.Without "def-rec" ∧ (Value.state s).Without "def-rec" ∧
    outcomeView .full (call.run b).1 = outcomeView .full (call.run .empty).1 ∧
    ((call.run b).2.env = b.env ∧ (call.run b).2.refs = b.refs) ∧
    ((call.run .empty).2.env = Bindings.empty.env ∧
      (call.run .empty).2.refs = Bindings.empty.refs) := by
  intro double table expr s call b
  have hgrant : table.find? "base-eval" = some .baseEval := by rfl
  have hhosts : BlindHosts .full table := by
    intro name signature steps hmem args args' h
    simp only [table, double, List.mem_cons, List.not_mem_nil, or_false, reduceCtorEq,
      Primitive.host.injEq, false_or] at hmem
    obtain ⟨rfl, rfl, rfl⟩ := hmem
    -- The two argument lists have the same shape, and what doubling gives is data.
    cases h with
    | nil => exact .done (.ok similar_null)
    | cons hv hrest =>
      cases hrest <;> cases hv.matched <;> exact .done (.ok (similar_of_isData rfl rfl))
  have hexpr : expr.Without "def-rec" := by
    simp [expr, Value.Without]
  have hs : (Value.state s).Without "def-rec" := by
    simp [s, Value.Without, Env.values]
  exact ⟨hgrant, hhosts, hexpr, hs, baseEval_isolated hgrant hhosts 8 hexpr hs [] [] b .empty⟩

end CapLisp
