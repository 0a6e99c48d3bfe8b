/-
# What the host's snapshot shows

A host's interpreter evaluates a form on a copy of its bindings and keeps the
original until the form has ended, to go back to it after an error.  So a form
runs with one holder more than it has when it is evaluated on the bindings
themselves.  A holder more can make `def-rec` refuse a closure, and it can do
nothing else: up to its first refusal a run goes the same way with more values
held (`beside_eval`), and a refusal ends it.

| bare evaluation | the interpreter |
| --- | --- |
| a value | the value, and the bindings that are left |
| an error | the error, and the bindings from before |
| takes a closure that only the snapshot holds | refuses an alias, and the bindings from before |

The last case needs a `def-rec` and a closure in the bindings.  Without one of
them an interpreter is transparent.
-/

import CapLisp.Proofs.Aliasing
import CapLisp.Proofs.Headroom
import CapLisp.Proofs.Variants

namespace CapLisp

/-- The error of a `def-rec` that found its closure held. -/
def Error.aliasRefused : Error := SpecialForm.defineRec.error .aliasedFunction

/-! ### One holder more -/

/-- What some values hold, they hold with more beside them. -/
theorem Context.holds_append {table : Table} {held kept : List Value} {serial : Nat} {b : Bindings}
    (h : Context.holds serial b ⟨table, held⟩ = true) :
    Context.holds serial b ⟨table, held ++ kept⟩ = true := by
  rw [Context.holds, Value.isHeldBy_eq] at h ⊢
  rw [← List.cons_append, List.any_append, h, Bool.true_or]

/-- Unless more holders make it refuse, `def-rec` does the same without them. -/
theorem SpecialForm.continues_makeRecursive (table : Table) (held kept : List Value) (name : String)
    (fn : Closure Value) :
    Action.Continues .aliasRefused (makeRecursive ⟨table, held ++ kept⟩ name fn)
      (makeRecursive ⟨table, held⟩ name fn) := by
  intro b hend
  rw [run_makeRecursive] at hend ⊢
  rw [run_makeRecursive]
  by_cases hmore : Context.holds fn.serial b ⟨table, held ++ kept⟩ = true
  · rw [if_pos hmore] at hend
    exact absurd rfl hend
  · rw [if_neg hmore, if_neg fun hless => hmore (Context.holds_append hless)]

/-- The second of two related actions is what the first is without some holders. -/
def Congruence.holdingLess (kept : List Value) : Congruence :=
  .continuing .aliasRefused (· ++ kept) (fun _ _ => List.append_assoc ..)
    fun table held => SpecialForm.continues_makeRecursive table held kept

/-- **Unless `def-rec` refuses, holders make no difference.** -/
theorem beside_eval {table : Table} (htable : table ⊆ Table.shipped) (kept : List Value)
    (room : Nat) :
    (Congruence.holdingLess kept).Evaluators table (Eval.eval room) (Eval.eval room) := by
  induction room with
  | zero => exact fun _ _ => .refl _
  | succ room ih =>
    exact Congruence.evaluators_step (Congruence.hosts_of_subset htable _ _) ih

/-! ### The interpreter -/

/-- Bindings without a closure hold none. -/
theorem Bindings.holds_eq_false {b : Bindings} {serial : Nat} (h : ¬ b.Contains serial) :
    (Value.state b.intoState).holds serial = false := by
  rw [← Bool.not_eq_true]
  intro hholds
  obtain ⟨fn, hserial, hinside⟩ := Value.contains_of_holds hholds
  cases hinside with
  | part hu hinside =>
    refine h ?_
    rcases List.mem_append.1 hu with henv | hslot
    · exact .inl ⟨_, henv, fn, hserial, hinside⟩
    · exact .inr ⟨_, hslot, fn, hserial, hinside⟩

namespace Interpreter

variable {i : Interpreter} {form : Value}

/-- What a host makes of a run on its bindings: they become what the run left if it
succeeded, and stay what they were if it failed. -/
def commit (i : Interpreter) : Except Error Value × Bindings → Except Error Value × Interpreter
  | (.ok v, b) => (.ok v, { i with bindings := b })
  | (.error e, _) => (.error e, i)

/-- An interpreter evaluates on its bindings while it holds a snapshot of them. -/
theorem eval_eq_commit (i : Interpreter) (form : Value) :
    i.eval form = i.commit ((Eval.eval maxEvalDepth
      ⟨i.table, [form] ++ [.state i.bindings.intoState]⟩ form).run i.bindings) := by
  unfold eval evalHolding commit
  rfl

/-- An interpreter whose snapshot no `def-rec` can tell is transparent. -/
theorem eval_eq_commit_of_heldAlike {I : Invariant i.table} (hhosts : I.GoodHosts)
    (hb : I.Sound i.bindings) (hform : I.Good i.bindings.stage form)
    (halike : I.HeldAlike [form] ([form] ++ [.state i.bindings.intoState])) :
    i.eval form = i.commit ((evaluate i.table form).run i.bindings) := by
  have hrun := (Invariant.coincideEval_eval hhosts maxEvalDepth i.bindings.stage _ _ form halike
    hform).run_eq le_rfl hb
  rw [eval_eq_commit, hrun]
  rfl

/-- **The host's interpreter is transparent unless it refuses an alias.**  Under any part
of the shipped catalog, for every form and all bindings: an interpreter ends as the
evaluation on its own bindings does, with the same value and the bindings that it leaves,
or with the same error and the bindings from before; or else it ends with the error of a
`def-rec` that takes a closure to be an alias, and the bindings from before.  The latter
is ruled out if `def-rec` occurs nowhere in the form and the bindings, and if no closure
stands in the bindings. -/
theorem eval_eq_commit_or_refused (htable : i.table ⊆ Table.shipped) (form : Value) :
    let bare := (evaluate i.table form).run i.bindings
    (i.eval form = i.commit bare ∨ i.eval form = (.error .aliasRefused, i)) ∧
    ((form.Without "def-rec" ∧ i.bindings.Without "def-rec") ∨
        (∀ serial, ¬ i.bindings.Contains serial) →
      i.eval form = i.commit bare) := by
  intro bare
  constructor
  · rcases hrun : (Eval.eval maxEvalDepth ⟨i.table, [form] ++ [.state i.bindings.intoState]⟩
      form).run i.bindings with ⟨outcome, b⟩
    rw [eval_eq_commit, hrun]
    -- What is held besides can do nothing but make a `def-rec` refuse.
    by_cases hrefused : outcome = .error .aliasRefused
    · right
      rw [hrefused]
      rfl
    · left
      have hbare : bare = (outcome, b) := by
        rw [← hrun]
        refine beside_eval htable [.state i.bindings.intoState] maxEvalDepth [form] form _ ?_
        change ((Eval.eval maxEvalDepth ⟨i.table, [form] ++ _⟩ form).run i.bindings).1 ≠ _
        rw [hrun]
        exact hrefused
      rw [hbare]
  · rintro (⟨hform, hb⟩ | hnone)
    · exact eval_eq_commit_of_heldAlike
        ((Invariant.plainness .full i.table).goodHosts_of_subset htable) (hb.sound i.table)
        hform.plain (Invariant.heldAlike_plainness _ _)
    · refine eval_eq_commit_of_heldAlike (I := Invariant.free i.table) Invariant.goodHosts_free
        (Invariant.sound_free _) (Invariant.good_free _ _) ?_
      -- The snapshot holds no closure at all, so it does not change what is held.
      intro n fn _ _
      have hsnapshot := Bindings.holds_eq_false (hnone fn.serial)
      simp only [List.any_append, List.any_cons, List.any_nil, hsnapshot, Bool.or_false]

/-- The form reads a slot whose closure the snapshot holds, and writes it: the
interpreter refuses the closure, and the evaluation on its bindings takes it. -/
theorem eval_ne_commit_of_snapshot :
    let old : Closure Value := ⟨0, ["x"], [.atom "x"], []⟩
    let i : Interpreter := ⟨Table.shipped, ⟨.persistent [("r", .ref 0)], [.lambda old], 1⟩⟩
    let form := SpecialForm.recursion "f" (SpecialForm.takeOut "r")
    i.eval form = (.error .aliasRefused, i) ∧
    (evaluate i.table form).run i.bindings =
      (.ok .null, ⟨.persistent [("f", .lambdaRec "f" old), ("r", .ref 0)], [.number 0], 1⟩) := by
  intro old i form
  let b₁ : Bindings := ⟨i.bindings.env, [.number 0], 1⟩
  have hinner : ∀ held, (Eval.eval 255 ⟨i.table, held⟩ (SpecialForm.takeOut "r")).run i.bindings =
      (.ok (.lambda old), b₁) := fun held => by rfl
  have hbare : Context.holds old.serial b₁ ⟨i.table, [form]⟩ = false := by decide +kernel
  have hkept : Context.holds old.serial b₁
      ⟨i.table, [form] ++ [.state i.bindings.intoState]⟩ = true := by decide +kernel
  constructor
  · rw [eval_eq_commit]
    exact congrArg i.commit (SpecialForm.eval_recursion_of_holds (hinner _) hkept "f")
  · exact SpecialForm.eval_recursion_of_free (hinner _) hbare "f"

/-- Where the closure that the form takes out of a slot is its own, the snapshot makes no
difference. -/
theorem eval_eq_commit_or_refused_fresh :
    let i : Interpreter := ⟨Table.shipped, ⟨.mutable [("r", .ref 0)], [.null], 4⟩⟩
    let form : Value := .list [.atom "do",
      .list [.atom "write-ref", .atom "r", .list [.atom "fn", .vector [], .number 1]], .null,
      SpecialForm.recursion "f" (SpecialForm.takeOut "r")]
    i.table ⊆ Table.shipped ∧ (∀ serial, ¬ i.bindings.Contains serial) ∧
    (i.eval form).1.isOk = true ∧
    i.eval form = i.commit ((evaluate i.table form).run i.bindings) := by
  intro i form
  have hshipped : i.table ⊆ Table.shipped := List.Subset.refl _
  have hnone : ∀ serial, ¬ i.bindings.Contains serial := by
    rintro serial (⟨v, hv, fn, -, hinside⟩ | ⟨v, hv, fn, -, hinside⟩) <;>
      obtain rfl := List.mem_singleton.1 hv <;> cases hinside with
      | part hu _ => cases hu
  have hok : (i.eval form).1.isOk = true := by decide +kernel
  exact ⟨hshipped, hnone, hok, (eval_eq_commit_or_refused hshipped form).2 (.inr hnone)⟩

end Interpreter
end CapLisp
