/-
# Evaluation stays within the limit

One step of evaluation stays within the limit if the evaluations inside it do
(`keepsEval_step`), so by induction on the room every evaluation does
(`keepsEval_eval`).  Without room an evaluation fails before it does anything.
-/

import CapLisp.Proofs.Invariant.SpecialForm

namespace CapLisp
namespace Invariant

variable {table : Table} {I : Invariant table} {n : Stage} {eval : Evaluator}
  {held held' : List Value}

/-- An atom names a primitive of the table or a value of the environment. -/
theorem coincide_atom (name : String) :
    I.Coincide n I.Good (Eval.atom ⟨table, held⟩ name) (Eval.atom ⟨table, held'⟩ name) := by
  unfold Eval.atom
  split
  · exact .pure fun _ _ => Value.everywhere_primFn.2 (I.primFn ‹_›)
  · refine .get_bind fun b _ hs => ?_
    split
    · next value hfound =>
      have hvalue := hs.env.2 value (Env.mem_values_of_lookup hfound)
      exact .pure fun _ hle => hvalue.mono hle
    · exact .fail trivial

/-- The entries of a dict evaluated in turn give a good dict. -/
theorem coincide_entries (heval : I.CoincideEval eval) (hheld : I.HeldAlike held held')
    {done entries : Dict} (hdone : I.Good n (.dict done))
    (h : ∀ entry ∈ entries, I.Good n entry.1 ∧ I.Good n entry.2) :
    I.Coincide n (fun m dict => I.Good m (.dict dict))
      (Eval.entries eval ⟨table, held⟩ done entries)
      (Eval.entries eval ⟨table, held'⟩ done entries) := by
  induction entries generalizing n done with
  | nil => exact .pure fun _ hnm => hdone.mono hnm
  | cons entry rest ih =>
    obtain ⟨hentry, hrest⟩ := List.forall_mem_cons.1 h
    refine .bind (heval n _ _ entry.1 (hheld.append [.dict done]) hentry.1)
      fun m key hnm hkey => ?_
    refine .bind (heval m _ _ entry.2 (hheld.append [key, .dict done]) (hentry.2.mono hnm))
      fun k value hmk hvalue => ?_
    refine ih (good_dict_insert (hkey.mono hmk) hvalue (hdone.mono (hnm.trans hmk))) ?_
    exact fun other hmem => (hrest other hmem).imp (Good.mono (hnm.trans hmk))
      (Good.mono (hnm.trans hmk))

/-- The head of a special form is the atom that names it. -/
theorem eq_atom_of_ofHead? {head : Value} {form : SpecialForm}
    (h : SpecialForm.ofHead? head = some form) : head = .atom form.name := by
  cases head with
  | atom name =>
    have hname : form.name = name := by simpa using List.find?_some h
    rw [hname]
  | _ => cases h

/-- **A step stays within the limit** if the evaluations inside it do. -/
theorem coincideEval_step (hhosts : I.GoodHosts) (heval : I.CoincideEval eval) :
    I.CoincideEval (Eval.step eval) := by
  intro n held held' expr hheld hexpr
  cases expr with
  | atom name => exact coincide_atom name
  | list items =>
    cases items with
    | nil => exact .fail trivial
    | cons head operands =>
      obtain ⟨hhead, hoperands⟩ := List.forall_mem_cons.1 hexpr.items_list
      rw [Eval.step, Eval.step]
      cases hform : SpecialForm.ofHead? head with
      | some form =>
        obtain rfl := eq_atom_of_ofHead? hform
        exact coincide_specialForm heval hheld hhead.here hoperands
      | none =>
        refine .bind (heval n _ _ head hheld hhead) fun m func hnm hfunc => ?_
        refine .bind (coincide_evalAll heval (hheld.append [func])
          fun v hv => (hoperands v hv).mono hnm) fun k args hmk hargs => ?_
        exact coincide_applyFunction hhosts heval hheld (hfunc.mono hmk) hargs
  | vector items =>
    refine .bind (coincide_evalAll heval hheld hexpr.items_vector) fun m values _ hvalues => ?_
    exact .pure fun k hmk => good_vector fun v hv => (hvalues v hv).mono hmk
  | dict entries =>
    refine .bind (coincide_entries heval hheld good_dict_nil (Value.everywhere_dict.1 hexpr).2)
      fun m dict _ hdict => ?_
    exact .pure fun k hmk => hdict.mono hmk
  | _ => exact .pure fun m hnm => hexpr.mono hnm

/-- **Every evaluation stays within the limit**, whatever the room, and does the
same beside alike held values. -/
theorem coincideEval_eval (hhosts : I.GoodHosts) (room : Nat) :
    I.CoincideEval (Eval.eval room) := by
  induction room with
  | zero => exact fun _ _ _ _ _ _ => .fail trivial
  | succ room ih => exact coincideEval_step hhosts ih

/-- **The evaluator keeps the invariant in any room.** -/
theorem keepsEval_eval (hhosts : I.GoodHosts) (room : Nat) : I.KeepsEval (Eval.eval room) :=
  (coincideEval_eval hhosts room).keepsEval

/-- The shipped catalog has no host procedures. -/
theorem goodHosts_of_subset (I : Invariant table) (htable : table ⊆ Table.shipped) :
    I.GoodHosts :=
  fun _ _ _ hmem => absurd hmem (Table.host_not_mem_of_subset htable)

end Invariant
end CapLisp
