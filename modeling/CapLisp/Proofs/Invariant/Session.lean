/-
# Sessions stay within the limit

A form that is done leaves the bindings that its evaluation ends with, and one
that fails leaves those that it began with.  Either way an interpreter stays
within a limit, form by form and text by text.  A text spells a few kinds of
values only, so a limit that allows these allows every text
(`Steady.evalText`).
-/

import CapLisp.Interpreter
import CapLisp.Proofs.Invariant.Evaluator
import CapLisp.Proofs.Syntax

namespace CapLisp
namespace Invariant

variable {table : Table} {I : Invariant table}

/-- An interpreter over the table with bindings within the limit. -/
structure Steady (I : Invariant table) (i : Interpreter) : Prop where
  table_eq : i.table = table
  sound : I.Sound i.bindings

/-- The end of a step of an interpreter that stayed within the limit.  The error
of a form that was undone may hold more slots than are left. -/
structure SteadyEnd (I : Invariant table) (r : Except Error Value × Interpreter) : Prop where
  steady : I.Steady r.2
  value : ∀ v, r.1 = .ok v → I.Good r.2.bindings.stage v
  error : ∀ e, r.1 = .error e → ∃ n, I.GoodError n e

/-- A session that ends a form with a good value is steady. -/
theorem Steady.done {i : Interpreter} (hi : I.Steady i) {v : Value}
    (hv : I.Good i.bindings.stage v) : I.SteadyEnd (.ok v, i) := by
  refine ⟨hi, fun w hw => ?_, fun e he => ?_⟩
  · obtain rfl := Except.ok.inj hw
    exact hv
  · cases he

/-- A session that ends a form with a good error is steady. -/
theorem Steady.failed {i : Interpreter} (hi : I.Steady i) {e : Error} {n : Stage}
    (he : I.GoodError n e) : I.SteadyEnd (.error e, i) := by
  refine ⟨hi, fun v hv => ?_, fun e' he' => ?_⟩
  · cases hv
  · obtain rfl := Except.error.inj he'
    exact ⟨n, he⟩

/-- **A form within the limit leaves an interpreter within it**, done or undone. -/
theorem Steady.evalHolding (hhosts : I.GoodHosts) {i : Interpreter} (hi : I.Steady i)
    {form : Value} (hform : ∀ n, I.Good n form) (held : List Value) :
    I.SteadyEnd (i.evalHolding held form) := by
  obtain ⟨table', bindings⟩ := i
  obtain ⟨rfl, hsound⟩ := hi
  have hkept := keepsEval_eval hhosts maxEvalDepth _
    (form :: .state bindings.intoState :: held) form (hform bindings.stage) bindings le_rfl
    hsound
  simp only [Interpreter.evalHolding]
  rw [Action.run] at hkept
  rcases hr : Eval.eval maxEvalDepth ⟨table', form :: .state bindings.intoState :: held⟩ form
    bindings with ⟨e | v, b⟩ <;> rw [hr] at hkept
  · have he : I.GoodError b.stage e := hkept.outcome
    exact Steady.failed ⟨rfl, hsound⟩ he
  · have hend : I.Steady ⟨table', b⟩ := ⟨rfl, hkept.sound⟩
    have hv : I.Good b.stage v := hkept.outcome
    exact hend.done hv

/-- Forms in order leave an interpreter within the limit, up to the first that fails. -/
theorem Steady.evalForms (hhosts : I.GoodHosts) {forms : List Value}
    (hforms : ∀ form ∈ forms, ∀ n, I.Good n form) {i : Interpreter} (hi : I.Steady i)
    {last : Value} (hlast : I.Good i.bindings.stage last) :
    I.SteadyEnd (Interpreter.evalForms last forms i) := by
  induction forms generalizing i last with
  | nil => exact hi.done hlast
  | cons form rest ih =>
    obtain ⟨hform, hrest⟩ := List.forall_mem_cons.1 hforms
    have hstep := hi.evalHolding hhosts hform [last]
    rw [Interpreter.evalForms]
    rcases hr : i.evalHolding [last] form with ⟨e | v, i'⟩ <;> rw [hr] at hstep
    · exact hstep
    · exact ih hrest hstep.steady (hstep.value v rfl)

/-- **A text leaves an interpreter within the limit** if the limit allows all
that a text can spell. -/
theorem Steady.evalText (hhosts : I.GoodHosts) (hspelled : ∀ n v, v.isSyntax = true → I.value n v)
    {i : Interpreter} (hi : I.Steady i) (source : String) :
    I.SteadyEnd (i.evalText source) := by
  rw [Interpreter.evalText]
  rcases hread : readProgram source with e | forms
  · obtain ⟨error, rfl⟩ : ∃ error, e = .read error := by
      rw [readProgram, readProgramWith] at hread
      cases hparse : Reader.parseProgram .default source.toList with
      | ok forms => rw [hparse] at hread; cases hread
      | error error => rw [hparse] at hread; cases hread; exact ⟨error, rfl⟩
    exact hi.failed (n := ⟨0, 0⟩) trivial
  · have hforms : ∀ form ∈ forms, ∀ n, I.Good n form := by
      intro form hmem n
      exact Value.Everywhere.mono (hspelled n) (syntactic_readProgram hread form hmem)
    exact hi.evalForms hhosts hforms (good_of_isData rfl rfl)

end Invariant
end CapLisp
