/-
# Evaluations agree

Evaluating related expressions in related bindings ends alike at every depth,
whatever is held elsewhere and whatever serial numbers are free
(`agreeEval_eval`).  Related code has no atom `def-rec`, so no form is met that
could tell the two runs apart.
-/

import CapLisp.Proofs.Simulation.SpecialForm

namespace CapLisp
namespace Simulation

variable {S : Simulation} {table : Table} {eval : Evaluator} {held held' : List Value}

/-- An atom is looked up alike. -/
theorem agree_atom (name : String) :
    S.Agree S.value (Eval.atom ⟨table, held⟩ name) (Eval.atom ⟨table, held'⟩ name) := by
  unfold Eval.atom
  split
  · exact .pure (S.of_alike (.primFn name))
  · refine .get_bind fun b b' hb => ?_
    exact rel_cases (S.lookup hb.env name) (fun _ _ => .pure) (.fail_of_values_eq_nil rfl)

/-- Alike entries evaluate alike if expressions do. -/
theorem agree_entries (heval : S.AgreeEval table eval) {done done' entries entries' : Dict}
    (hdone : List.Forall₂ (AlikeEntry S.value) done done')
    (h : List.Forall₂ (AlikeEntry S.value) entries entries') :
    S.Agree (List.Forall₂ (AlikeEntry S.value)) (Eval.entries eval ⟨table, held⟩ done entries)
      (Eval.entries eval ⟨table, held'⟩ done' entries') := by
  induction h generalizing done done' with
  | nil => exact .pure hdone
  | cons hentry _ ih =>
    refine .bind (heval _ _ _ _ hentry.key) fun key key' hkey => ?_
    refine .bind (heval _ _ _ _ hentry.value) fun value value' hvalue => ?_
    exact ih (alike_insert hkey hvalue hdone)

/-- Related heads stand for the same special form, and not for `def-rec`. -/
theorem alike_ofHead? {head head' : Value} (h : S.value head head') :
    SpecialForm.ofHead? head = SpecialForm.ofHead? head' ∧
      SpecialForm.ofHead? head ≠ some .defineRec := by
  cases S.alike h with
  | @atom name hname =>
    refine ⟨rfl, fun hform => hname ?_⟩
    have hbeq := List.find?_some hform
    exact (beq_iff_eq.1 hbeq).symm
  | _ => exact ⟨rfl, nofun⟩

/-- **A step agrees** if the evaluations inside it do. -/
theorem agreeEval_step (hhosts : S.AgreeHosts table (Procedure.runHost eval))
    (heval : S.AgreeEval table eval) : S.AgreeEval table (Eval.step eval) := by
  intro held held' expr expr' h
  cases S.alike h with
  | @atom name => exact agree_atom name
  | list hitems =>
    cases hitems with
    | nil => exact .fail_of_values_eq_nil rfl
    | cons hhead hoperands =>
      obtain ⟨hsame, hform⟩ := alike_ofHead? hhead
      rw [Eval.step, Eval.step, ← hsame]
      split
      · next form hsome =>
        exact agree_specialForm heval (fun he => hform (he ▸ hsome)) hoperands
      · refine .bind (heval _ _ _ _ hhead) fun func func' hfunc => ?_
        refine .bind (agree_evalAll heval hoperands) fun args args' hargs => ?_
        exact agree_applyFunction hhosts heval hfunc hargs
  | vector hitems =>
    exact .bind (agree_evalAll heval hitems) fun values values' hvalues =>
      .pure (S.of_alike (.vector hvalues))
  | dict hentries =>
    exact .bind (agree_entries heval .nil hentries) fun dict dict' hdict =>
      .pure (S.of_alike (.dict hdict))
  | _ => exact .pure h

/-- **Evaluations of related expressions agree**, whatever the room. -/
theorem agreeEval_eval
    (hhosts : ∀ eval, S.AgreeEval table eval → S.AgreeHosts table (Procedure.runHost eval))
    (room : Nat) : S.AgreeEval table (Eval.eval room) := by
  induction room with
  | zero => exact fun _ _ _ _ _ => .fail_of_values_eq_nil rfl
  | succ room ih => exact agreeEval_step (hhosts _ ih) ih

/-- A part of the shipped catalog has no procedure of the host. -/
theorem agreeHosts_of_subset (htable : table ⊆ Table.shipped) (host : Runner) :
    S.AgreeHosts table host :=
  fun _ _ _ hmem => absurd hmem (Table.host_not_mem_of_subset htable)

end Simulation
end CapLisp
