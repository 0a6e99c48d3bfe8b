/-
# Operations agree

On related arguments and in related bindings an operation ends alike
(`agree_operation`), since the relations of a simulation are among those that no
operation tells the two sides of apart (`likeness`).  Keys are compared by equality,
which does not tell related values apart, so related dicts find and take entries at the
same places.
-/

import CapLisp.Proofs.Likeness
import CapLisp.Proofs.Simulation.Basic

namespace CapLisp
namespace Simulation

variable {S : Simulation}

section Dicts

variable {entries others : Dict} {key key' : Value}

/-- Alike keys find alike values in alike dictionaries, or neither finds one. -/
theorem alike_find? (hkey : S.value key key')
    (h : List.Forall₂ (AlikeEntry S.value) entries others) :
    Option.Rel S.value (Dict.find? key entries) (Dict.find? key' others) := by
  induction h with
  | nil => exact .none
  | cons hentry _ ih =>
    rw [Dict.find?, Dict.find?, S.beq_eq hkey hentry.key]
    split
    · exact .some hentry.value
    · exact ih

/-- Inserting alike entries keeps dictionaries alike. -/
theorem alike_insert {value value' : Value} (hkey : S.value key key')
    (hvalue : S.value value value') (h : List.Forall₂ (AlikeEntry S.value) entries others) :
    List.Forall₂ (AlikeEntry S.value) (Dict.insert key value entries)
      (Dict.insert key' value' others) := by
  induction h with
  | nil => exact .cons ⟨hkey, hvalue⟩ .nil
  | cons hentry hrest ih =>
    rw [Dict.insert, Dict.insert, S.beq_eq hkey hentry.key]
    split
    · exact .cons ⟨hentry.key, hvalue⟩ hrest
    · exact .cons hentry ih

end Dicts

/-- A string is like itself. -/
theorem alike_string (text : String) : S.value (.string text) (.string text) :=
  S.of_alike (.string text)

/-- The relations of a simulation, as far as operations use them. -/
def likeness (S : Simulation) : Likeness where
  value := S.value
  dict := List.Forall₂ (AlikeEntry S.value)
  env := S.env
  state := S.state
  error := S.error
  parts h := by
    cases S.alike h with
    | list hitems => exact .list hitems
    | vector hitems => exact .vector hitems
    | dict hentries => exact .dict hentries
    | state hs => exact .state hs
    | _ => constructor
  beq_eq := S.beq_eq
  find? hentries hkey := alike_find? hkey hentries
  state_env := S.state_env
  string := alike_string
  number n := S.of_alike (.number n)
  bool b := S.of_alike (.bool b)
  ref index := S.of_alike (.ref index)
  list h := S.of_alike (.list h)
  vector h := S.of_alike (.vector h)
  of_dict h := S.of_alike (.dict h)
  of_env h := S.of_alike (.env h)
  of_state h := S.of_alike (.state h)
  dict_nil := .nil
  dict_insert hentries hkey hvalue := alike_insert hkey hvalue hentries
  state_empty := S.snapshot S.chain_nil .nil
  snapshot he hrefs := S.snapshot (S.freeze he) hrefs
  plain := S.plain
  missingKey := S.missingKey
  thrown := S.thrown

/-- **Running an operation on related arguments agrees.** -/
theorem agree_operation {op : Operation} {vs ws : List Value} (hfits : op.Fits vs)
    (h : List.Forall₂ S.value vs ws) (eval : Evaluator) (ctx ctx' : Context) :
    S.Agree S.value (Call.run eval ctx (.operation op vs))
      (Call.run eval ctx' (.operation op ws)) := by
  intro b b' hb
  have hrun := Likeness.outcome_run (L := S.likeness) hfits h hb.env hb.refs
  simp only [Action.run, Call.run_operation]
  generalize op.run b vs = outcome at hrun ⊢
  generalize op.run b' ws = outcome' at hrun ⊢
  cases hrun with
  | ok hr => exact ⟨rfl, hb.withRefs hr.2, .ok hr.1⟩
  | error he => exact ⟨rfl, hb, .error he⟩

end Simulation
end CapLisp
