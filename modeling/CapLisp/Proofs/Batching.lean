/-
# Texts in one batch or one by one

A host may feed a program to an interpreter in one text or in several.  Where it
puts the cut makes no difference: the forms are the same (`readProgramWith_append`),
each is done or undone by itself, and all that a form learns from being in a batch
is that the result of the form before it is still held.  That matters to no form
(`Interpreter.evalHolding_eq_eval`).

So a batch leaves the bindings that its forms leave one by one, up to the first
that fails (`Interpreter.EndsAfter`).
-/

import CapLisp.Proofs.Numbering
import CapLisp.Proofs.Reader.Concatenation

namespace CapLisp

/-- What was read holds no closure, so every number is above its numbers. -/
theorem Value.Syntactic.numbered {v : Value} (h : v.Syntactic) (k : Nat) : v.Numbered k := by
  refine Value.Everywhere.mono (fun w hw => Value.isNumbered_of_closure? ?_) h
  cases w <;> first | rfl | cases hw

/-- Null holds no closure. -/
theorem Value.numbered_null (k : Nat) : Value.null.Numbered k :=
  everywhere_null.2 (isNumbered_of_closure? rfl)

namespace Interpreter

/-- Tells that forms evaluated one by one all succeed and lead to an interpreter. -/
inductive Commits : Interpreter → List Value → Interpreter → Prop
  | nil (i : Interpreter) : Commits i [] i
  | cons {i i' i'' : Interpreter} {form v : Value} {rest : List Value}
    (hform : i.eval form = (.ok v, i')) (hrest : Commits i' rest i'') :
    Commits i (form :: rest) i''

/-- Tells that an end is the one after the longest prefix of forms that succeed: all
of them, or those before one that fails, with its error. -/
inductive EndsAfter (i : Interpreter) : List Value → Except Error Value × Interpreter → Prop
  | done {forms : List Value} {v : Value} {i' : Interpreter} (h : i.Commits forms i') :
    EndsAfter i forms (.ok v, i')
  | failed {before after : List Value} {form : Value} {e : Error} {i' : Interpreter}
    (h : i.Commits before i') (hform : i'.eval form = (.error e, i')) :
    EndsAfter i (before ++ form :: after) (.error e, i')

/-- A form that succeeds comes before a run that ends. -/
theorem EndsAfter.cons {i i' : Interpreter} {form v : Value} {forms : List Value}
    {r : Except Error Value × Interpreter} (hform : i.eval form = (.ok v, i'))
    (h : i'.EndsAfter forms r) : i.EndsAfter (form :: forms) r := by
  cases h with
  | done h => exact .done (.cons hform h)
  | failed h hfails => exact .failed (.cons hform h) hfails

/-- A form that fails leaves the interpreter as it was. -/
theorem eq_of_evalHolding_eq_error {i i' : Interpreter} {held : List Value} {form : Value}
    {e : Error} (h : i.evalHolding held form = (.error e, i')) : i' = i := by
  rw [evalHolding] at h
  split at h
  · cases h
  · exact (Prod.mk.inj h).2.symm

/-- Forms in order are the first of them and then, from where these end, the others. -/
theorem evalForms_append (last : Value) (xs ys : List Value) (i : Interpreter) :
    evalForms last (xs ++ ys) i =
      match evalForms last xs i with
      | (.ok v, i') => evalForms v ys i'
      | (.error e, i') => (.error e, i') := by
  induction xs generalizing last i with
  | nil => rfl
  | cons form rest ih =>
    rw [List.cons_append, evalForms, evalForms]
    rcases i.evalHolding [last] form with ⟨_ | v, i'⟩
    · rfl
    · exact ih v i'

open Invariant

section

variable {table : Table} {i : Interpreter} {forms : List Value}

/-- What is held from before makes no difference to a form of a text. -/
theorem evalHolding_eq (htable : table.HandsOn Value.IsLambda) (hi : (numbering table).Steady i)
    {form : Value} (hform : form.Syntactic) {last : Value}
    (hlast : last.Numbered i.bindings.fresh) : i.evalHolding [last] form = i.eval form := by
  obtain ⟨rfl, hsound⟩ := hi
  exact evalHolding_eq_eval htable (sound_numbering.1 hsound) (hform.numbered _)
    (List.forall_mem_singleton.2 hlast.below)

/-- **A batch ends where its forms one by one end.** -/
theorem endsAfter_evalForms (htable : table.HandsOn Value.IsLambda)
    (hi : (numbering table).Steady i) (hforms : ∀ form ∈ forms, form.Syntactic) {last : Value}
    (hlast : last.Numbered i.bindings.fresh) : i.EndsAfter forms (evalForms last forms i) := by
  induction forms generalizing i last with
  | nil => exact .done (.nil i)
  | cons form rest ih =>
    obtain ⟨hform, hrest⟩ := List.forall_mem_cons.1 hforms
    have hstep := hi.evalHolding (limitsOnly_numbering.goodHosts htable)
      (fun n => hform.numbered n.serials) [last]
    have heq := evalHolding_eq htable hi hform hlast
    rw [evalForms]
    rcases hr : i.evalHolding [last] form with ⟨e | v, i'⟩
    · obtain rfl := eq_of_evalHolding_eq_error hr
      exact .failed (.nil i') (heq.symm.trans hr)
    · rw [hr] at hstep
      exact (ih hstep.steady hrest (hstep.value v rfl)).cons (heq.symm.trans hr)

/-- A batch goes on behind a result as it starts, but no forms leave that result. -/
theorem evalForms_eq (htable : table.HandsOn Value.IsLambda) (hi : (numbering table).Steady i)
    (hforms : ∀ form ∈ forms, form.Syntactic) {last : Value}
    (hlast : last.Numbered i.bindings.fresh) :
    evalForms last forms i =
      (if forms = [] then .ok last else (evalForms .null forms i).1,
        (evalForms .null forms i).2) := by
  cases forms with
  | nil => rfl
  | cons form rest =>
    have hform := hforms form (List.mem_cons_self ..)
    rw [if_neg (List.cons_ne_nil _ _), evalForms, evalForms, evalHolding_eq htable hi hform hlast,
      evalHolding_eq htable hi hform (Value.numbered_null _)]

end

/-- A text that can be read is evaluated form by form. -/
theorem evalText_eq {i : Interpreter} {source : String} {forms : List Value}
    (h : readProgram source = .ok forms) : i.evalText source = evalForms .null forms i := by
  rw [evalText, h]

/-- **Texts keep the numbering** of closures, whatever becomes of them. -/
theorem numbered_evalText {i : Interpreter} (htable : i.table.HandsOn Value.IsLambda)
    (hi : i.bindings.Numbered) (source : String) :
    (i.evalText source).2.table = i.table ∧ (i.evalText source).2.bindings.Numbered := by
  have hspelled : ∀ n v, v.isSyntax = true → (numbering i.table).value n v := fun n v hv => by
    refine Value.isNumbered_of_closure? ?_
    cases v <;> first | rfl | cases hv
  have hend : (numbering i.table).SteadyEnd (i.evalText source) :=
    Steady.evalText (limitsOnly_numbering.goodHosts htable) hspelled
      ⟨rfl, sound_numbering.2 hi⟩ source
  exact ⟨hend.steady.table_eq, sound_numbering.1 hend.steady.sound⟩

/-- **Batching does not matter.**  From bindings whose closures are numbered, under
any table whose procedures of the host hand closures on: let `a` be a text that can be
read.  If `b` can be read, too, then `a`, a line feed and `b` in one text end as `a`
does if `a` fails, and else as `a` and then `b` do, with the result of `a` if `b` has
no forms; either way the bindings are those after the longest prefix of forms that
succeed.  If `b` cannot be read, the one text fails with the error of `b` and changes
nothing. -/
theorem evalText_append {i : Interpreter} (htable : i.table.HandsOn Value.IsLambda)
    (hi : i.bindings.Numbered) {a : String} {xs : List Value} (ha : readProgram a = .ok xs)
    (b : String) :
    (∀ ys, readProgram b = .ok ys →
      (∀ e, (i.evalText a).1 = .error e → i.evalText (a ++ "\n" ++ b) = i.evalText a) ∧
      (∀ v, (i.evalText a).1 = .ok v →
        i.evalText (a ++ "\n" ++ b) =
          (if ys = [] then .ok v else ((i.evalText a).2.evalText b).1,
            ((i.evalText a).2.evalText b).2)) ∧
      i.EndsAfter (xs ++ ys) (i.evalText (a ++ "\n" ++ b))) ∧
    ∀ e, readProgram b = .error e → i.evalText (a ++ "\n" ++ b) = (.error e, i) := by
  have hread : readProgram (a ++ "\n" ++ b) = (readProgram b).map (xs ++ ·) :=
    readProgramWith_append ha b
  have hxs := syntactic_readProgram ha
  constructor
  · intro ys hb
    have hys := syntactic_readProgram hb
    -- In one text the first form of `b` is run while the result of `a` is still held.  That
    -- result is numbered, so the form cannot tell.
    have hsteady : (numbering i.table).Steady i := ⟨rfl, sound_numbering.2 hi⟩
    have hend : (numbering i.table).SteadyEnd (evalForms .null xs i) :=
      hsteady.evalForms (limitsOnly_numbering.goodHosts htable)
        (fun form hmem n => (hxs form hmem).numbered n.serials) (Value.numbered_null _)
    rw [hb] at hread
    have hjoined : i.evalText (a ++ "\n" ++ b) = evalForms .null (xs ++ ys) i := evalText_eq hread
    have hsplit := evalForms_append .null xs ys i
    rw [hjoined, evalText_eq ha]
    refine ⟨fun e he => ?_, fun v hv => ?_, ?_⟩
    · rcases hr : evalForms .null xs i with ⟨e' | v, i'⟩ <;> rw [hr] at he hsplit
      · exact hsplit
      · cases he
    · rcases hr : evalForms .null xs i with ⟨e | v', i'⟩ <;> rw [hr] at hv hsplit hend
      · cases hv
      · obtain rfl := Except.ok.inj hv
        rw [hsplit, evalText_eq hb]
        exact evalForms_eq htable hend.steady hys (hend.value v' rfl)
    · refine endsAfter_evalForms htable hsteady (fun form hmem => ?_) (Value.numbered_null _)
      exact (List.mem_append.1 hmem).elim (hxs form) (hys form)
  · intro e hb
    rw [evalText, hread, hb]
    rfl

/-- The result of the first text is a closure, which its cell alone holds, and it is
held while the form of the second one empties the cell and asks for the closure.  The
first text ends in a comment. -/
theorem evalText_append_closure :
    let i := Interpreter.default
    let a := "(def r (ref (fn [x] x))) (read-ref r) ; a closure"
    let b := "(def-rec f (first (list (read-ref r) (write-ref r 0))))"
    i.table.HandsOn Value.IsLambda ∧ i.bindings.Numbered ∧
    ∃ xs ys v, readProgram a = .ok xs ∧ readProgram b = .ok ys ∧ (i.evalText a).1 = .ok v ∧
      v.text = "(fn [x] x)" ∧
      i.evalText (a ++ "\n" ++ b) = ((if ys = [] then .ok v else ((i.evalText a).2.evalText b).1),
        ((i.evalText a).2.evalText b).2) ∧
      i.EndsAfter (xs ++ ys) (i.evalText (a ++ "\n" ++ b)) := by
  intro i a b
  have htable : i.table.HandsOn Value.IsLambda :=
    Table.handsOn_of_subset (List.Subset.refl Table.shipped) Value.IsLambda
  have hi : i.bindings.Numbered := Bindings.numbered_empty
  have hreadA : (readProgram a).isOk = true := by decide +kernel
  have hreadB : (readProgram b).isOk = true := by decide +kernel
  have hvalue : (i.evalText a).1.toOption.map Value.text = some "(fn [x] x)" := by decide +kernel
  cases ha : readProgram a with
  | error e => rw [ha] at hreadA; cases hreadA
  | ok xs =>
    cases hb : readProgram b with
    | error e => rw [hb] at hreadB; cases hreadB
    | ok ys =>
      cases hv : (i.evalText a).1 with
      | error e => rw [hv] at hvalue; cases hvalue
      | ok v =>
        rw [hv] at hvalue
        obtain ⟨-, hjoined, hends⟩ := (evalText_append htable hi ha b).1 ys hb
        exact ⟨htable, hi, xs, ys, v, rfl, rfl, rfl, Option.some.inj hvalue, hjoined v hv, hends⟩

end Interpreter
end CapLisp
