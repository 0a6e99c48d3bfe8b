/-
# Applying through `apply`

`(apply f (list a1 … an))` and `(f a1 … an)` evaluate the same forms in the same order,
and come to one and the same call.  Three things differ on the way.

* The operands of `list` are evaluated a level deeper.  A run that does not meet the depth
  limit there goes on as it does a level above (`continues_listForm`).
* More is held meanwhile: `apply`, `list`, and the arguments once more.  Only `def-rec`
  asks what is held (`coincide_applyList`).
* The arguments are put in a list and taken out of it again (`resolve_apply_list`).
-/

import CapLisp.Proofs.Applications
import CapLisp.Proofs.Headroom
import CapLisp.Proofs.Variants

namespace CapLisp

/-- The form that applies `f` through `apply` to the list of the operands. -/
def applyForm (f : Value) (operands : List Value) : Value :=
  .list [.atom "apply", f, .list (.atom "list" :: operands)]

section

variable {table : Table} {held held' : List Value}

/-- A call of `list` evaluates its operands and gives the list of their values. -/
theorem eval_listForm (hlist : table.Grants (.operation .list)) (room : Nat)
    (held operands : List Value) :
    Eval.eval (room + 2) ⟨table, held⟩ (.list (.atom "list" :: operands)) = (do
      let args ← evalAll (Eval.eval (room + 1)) ⟨table, .primFn "list" :: held⟩ operands
      return .list args) := by
  have hcall : ∀ args, Operation.list.call (Eval.eval (room + 1)) ⟨table, held⟩ args =
      pure (.list args) := fun args => funext fun b => run_call_pure hlist rfl rfl
  refine (eval_operationForm hlist room held operands).trans ?_
  exact congrArg (evalAll _ _ operands >>= ·) (funext hcall)

/-- The form of `list` goes on as its operands do a level above. -/
theorem continues_listForm (htable : table ⊆ Table.shipped)
    (hlist : table.Grants (.operation .list)) (room : Nat) (held operands : List Value)
    {α : Type} (next : Value → Action α) :
    Action.Continues .depthLimit
      (Eval.eval room ⟨table, held⟩ (.list (.atom "list" :: operands)) >>= next)
      (evalAll (Eval.eval room) ⟨table, .primFn "list" :: held⟩ operands >>= fun args =>
        next (.list args)) := by
  match room with
  | 0 => exact fun _ hend => absurd rfl hend
  | 1 => exact fun _ hend => absurd rfl hend
  | room + 2 =>
    rw [eval_listForm hlist, Action.bind_assoc]
    have hargs : Action.Continues .depthLimit
        (evalAll (Eval.eval (room + 1)) ⟨table, .primFn "list" :: held⟩ operands)
        (evalAll (Eval.eval (room + 2)) ⟨table, .primFn "list" :: held⟩ operands) :=
      Congruence.rel_evalAll (headroom_eval htable (Nat.le_succ (room + 1))) operands
    exact hargs.bind fun args => .refl _

/-- Through `apply` or not, an application to the same arguments runs the same call. -/
theorem coincide_applyList {I : Invariant table} (hhosts : I.GoodHosts) {eval : Evaluator}
    (heval : I.CoincideEval eval) (hheld : ∀ kept kept', I.HeldAlike kept kept')
    (happly : table.Grants .apply) {n : Stage} {func : Value} {args : List Value}
    (hfunc : I.Good n func) (hargs : ∀ v ∈ args, I.Good n v) :
    I.Coincide n I.Good (applyFunction eval ⟨table, held⟩ (.primFn "apply") [func, .list args])
      (applyFunction eval ⟨table, held'⟩ func args) := by
  obtain ⟨kept, hkept⟩ :=
    exists_run_applyFunction table eval held [func, .list args] (.primFn "apply")
  obtain ⟨kept', hkept'⟩ := exists_run_applyFunction table eval held' args func
  rw [hkept, hkept', resolve_apply happly (.inl rfl)]
  have hresolve := Invariant.goodCall_resolve hhosts hfunc hargs
  cases hcall : Call.resolve table args func with
  | error e =>
    rw [hcall] at hresolve
    exact .fail hresolve
  | ok call =>
    rw [hcall] at hresolve
    exact Invariant.coincide_call (Invariant.coincideRunner_runHost hhosts heval) heval
      (hheld kept kept') hresolve

/-- Two operands are evaluated in order, the first one held during the second. -/
theorem evalAll_pair_bind {α : Type} (eval : Evaluator) (expr expr' : Value)
    (next : List Value → Action α) :
    (evalAll eval ⟨table, held⟩ [expr, expr'] >>= next) = (do
      let value ← eval ⟨table, held⟩ expr
      let value' ← eval ⟨table, value :: held⟩ expr'
      next [value, value']) := by
  simp only [evalAll, Action.bind_assoc]
  rfl

/-- What `apply` to a list of operands comes to, with the operands at the level of the
operator. -/
theorem continues_applyForm (htable : table ⊆ Table.shipped) (happly : table.Grants .apply)
    (hlist : table.Grants (.operation .list)) (room : Nat) (held : List Value) (f : Value)
    (operands : List Value) :
    Action.Continues .depthLimit (Eval.eval (room + 1) ⟨table, held⟩ (applyForm f operands)) (do
      let func ← Eval.eval room ⟨table, .primFn "apply" :: held⟩ f
      let args ← evalAll (Eval.eval room)
        ⟨table, .primFn "list" :: func :: .primFn "apply" :: held⟩ operands
      applyFunction (Eval.eval room) ⟨table, held⟩ (.primFn "apply") [func, .list args]) := by
  rw [applyForm, eval_application rfl]
  cases room with
  | zero => exact fun _ hend => absurd rfl hend
  | succ room =>
    have hname : Eval.eval (room + 1) ⟨table, held⟩ (.atom "apply") = pure (.primFn "apply") :=
      eval_name happly room held
    rw [hname]
    change Action.Continues .depthLimit (evalAll _ _ [f, .list (.atom "list" :: operands)] >>= _) _
    rw [evalAll_pair_bind]
    exact Action.Continues.bind (.refl _) fun func =>
      continues_listForm htable hlist (room + 1) (func :: .primFn "apply" :: held) operands _

end

/-- **Applying through `apply` is plain application.**  Under any part of the shipped
catalog that grants `apply` and `list`, for an operator form that is no special form and
operand forms, from any bindings, all without the atom `def-rec`: unless
`(apply f (list a1 … an))` ends in the depth-limit error, `(f a1 … an)` comes to the same
value or the same error and leaves the same bindings. -/
theorem application_eq_applyForm {table : Table} (htable : table ⊆ Table.shipped)
    (happly : table.Grants .apply) (hlist : table.Grants (.operation .list)) {f : Value}
    (hform : SpecialForm.ofHead? f = none) (hf : f.Without "def-rec") {operands : List Value}
    (hoperands : ∀ operand ∈ operands, operand.Without "def-rec") {b : Bindings}
    (hb : b.Without "def-rec") (room : Nat) (held held' : List Value)
    (hend : ((Eval.eval room ⟨table, held⟩ (applyForm f operands)).run b).1 ≠
      .error .depthLimit) :
    (Eval.eval room ⟨table, held'⟩ (.list (f :: operands))).run b =
      (Eval.eval room ⟨table, held⟩ (applyForm f operands)).run b := by
  cases room with
  | zero => exact absurd rfl hend
  | succ room =>
    let I := Invariant.plainness .full table
    have hhosts : I.GoodHosts := I.goodHosts_of_subset htable
    have heval : I.CoincideEval (Eval.eval room) := Invariant.coincideEval_eval hhosts room
    have hheld : ∀ kept kept', I.HeldAlike kept kept' := Invariant.heldAlike_plainness
    rw [← continues_applyForm htable happly hlist room held f operands b hend,
      eval_application hform]
    refine Invariant.Coincide.run_eq (Q := I.Good) ?_ le_rfl (hb.sound table)
    refine .bind (heval _ _ _ f (hheld _ _) hf.plain) fun m func hm hfunc => ?_
    refine .bind (Invariant.coincide_evalAll heval (hheld _ _) fun operand hmem =>
      (hoperands operand hmem).plain) fun k args hk hargs => ?_
    exact coincide_applyList hhosts heval hheld happly (hfunc.mono hk) hargs

/-- Operands that define a name, write a slot and read both, for a closure that reads the
name again. -/
theorem application_eq_applyForm_effects :
    let f : Value := .list [.atom "fn", .vector [.atom "x", .atom "y"],
      .list [.atom "+", .atom "x", .atom "y"]]
    let operands : List Value := [
      .list [.atom "do", .list [.atom "def", .atom "k", .number 40], .atom "k"],
      .list [.atom "write-ref", .atom "r", .list [.atom "-", .atom "k", .number 38]]]
    let b : Bindings := ⟨.mutable [("r", .ref 0)], [.null], 0⟩
    let run := fun expr => (Eval.eval 8 ⟨Table.shipped, [expr]⟩ expr).run b
    Table.shipped.Grants .apply ∧ Table.shipped.Grants (.operation .list) ∧
    SpecialForm.ofHead? f = none ∧ f.Without "def-rec" ∧
    (∀ operand ∈ operands, operand.Without "def-rec") ∧ b.Without "def-rec" ∧
    (run (applyForm f operands)).1 = .ok (.number 42) ∧
    run (.list (f :: operands)) = run (applyForm f operands) := by
  intro f operands b run
  have happly : Table.shipped.Grants .apply := by rfl
  have hlist : Table.shipped.Grants (.operation .list) := by rfl
  have hform : SpecialForm.ofHead? f = none := by rfl
  have hf : f.Without "def-rec" := by
    simp [f, Value.Without]
  have hoperands : ∀ operand ∈ operands, operand.Without "def-rec" := by
    simp [operands, Value.Without]
  have hb : b.Without "def-rec" := by
    constructor <;> simp [b, Env.values, Value.Without]
  have hrun : (run (applyForm f operands)).1 = .ok (.number 42) := by rfl
  have hend : (run (applyForm f operands)).1 ≠ .error .depthLimit := by simp [hrun]
  exact ⟨happly, hlist, hform, hf, hoperands, hb, hrun,
    application_eq_applyForm (List.Subset.refl Table.shipped) happly hlist hform hf hoperands hb 8
      [applyForm f operands] [.list (f :: operands)] hend⟩

end CapLisp
