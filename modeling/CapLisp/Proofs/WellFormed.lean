/-
# Well-formed values

Two things hold of every value that is built.  The keys of a dict are pairwise
unequal, since an entry goes in under a new key or in the place of an equal
one.  A mutable environment lists each name once, since a definition replaces
the value of a bound name.

Both are kept by evaluation under the shipped catalog (`wellFormed_eval`).
-/

import CapLisp.Proofs.Invariant.Evaluator

namespace CapLisp

namespace Dict

/-- The keys are pairwise unequal: no key equals an earlier one. -/
def Unequal (entries : Dict) : Prop :=
  entries.Pairwise fun earlier later => (later.1 == earlier.1) = false

/-- **Inserting keeps the keys unequal.** -/
theorem unequal_insert {entries : Dict} (h : entries.Unequal) (key value : Value) :
    (insert key value entries).Unequal := by
  induction entries with
  | nil => exact List.pairwise_singleton _ _
  | cons entry rest ih =>
    obtain ⟨other, old⟩ := entry
    obtain ⟨hother, hrest⟩ := List.pairwise_cons.1 h
    rw [insert]
    split
    · exact List.pairwise_cons.2 ⟨hother, hrest⟩
    · next hne =>
      refine List.pairwise_cons.2 ⟨?_, ih hrest⟩
      intro later hmem
      rcases (mem_insert_cases hmem).1 with hkey | ⟨before, hbefore, hkey⟩
      · rw [hkey]
        exact eq_false_of_ne_true hne
      · rw [hkey]
        exact hother before hbefore

/-- A key that equals none is inserted at the end. -/
theorem insert_of_unequal {key value : Value} {entries : Dict}
    (h : ∀ entry ∈ entries, (key == entry.1) = false) :
    insert key value entries = entries ++ [(key, value)] := by
  induction entries with
  | nil => rfl
  | cons entry rest ih =>
    obtain ⟨other, old⟩ := entry
    obtain ⟨hother, hrest⟩ := List.forall_mem_cons.1 h
    simp only [insert, hother, ih hrest, Bool.false_eq_true, ↓reduceIte, List.cons_append]

/-- Entries with keys that differ are inserted in their order. -/
theorem foldl_insert_of_unequal {done entries : Dict} (h : (done ++ entries).Unequal) :
    entries.foldl (fun dict entry => insert entry.1 entry.2 dict) done = done ++ entries := by
  induction entries generalizing done with
  | nil => rw [List.foldl_nil, List.append_nil]
  | cons entry rest ih =>
    have hnew : ∀ other ∈ done, (entry.1 == other.1) = false := fun other hmem =>
      (List.pairwise_append.1 h).2.2 other hmem entry (List.mem_cons_self ..)
    rw [List.foldl_cons, insert_of_unequal hnew, ih, List.append_assoc]
    · rfl
    · rw [List.append_assoc]
      exact h

/-- **Putting the entries of a dict in again** gives the same dict. -/
theorem ofEntries_of_unequal {entries : Dict} (h : entries.Unequal) :
    ofEntries entries = entries :=
  foldl_insert_of_unequal h

end Dict

namespace Value

/-- The keys of a dict are pairwise unequal, and an environment lists each name once. -/
def isWellFormed : Value → Prop
  | dict entries => Dict.Unequal entries
  | env e => e.Distinct
  | state s => s.env.Distinct
  | _ => True

/-- A value that is well formed at every depth. -/
def WellFormed (v : Value) : Prop := v.Everywhere isWellFormed

end Value

/-- Bindings that list each name once and hold well-formed values. -/
structure Bindings.WellFormed (b : Bindings) : Prop where
  distinct : b.env.Distinct
  env : ∀ v ∈ b.env.values, v.WellFormed
  refs : ∀ v ∈ b.refs, v.WellFormed

/-- The limit that well-formedness sets. -/
def Invariant.wellFormedness (table : Table) : Invariant table where
  value _ v := v.isWellFormed
  env e := e.Distinct
  breach _ := True
  mono _ h := h
  detached _ _ _ _ _ h := h
  data {_ v} hd := by cases v <;> trivial
  lambda _ _ _ := trivial
  lambdaRec _ := trivial
  quote := trivial
  primFn _ := trivial
  ref _ := trivial
  dict_nil := List.Pairwise.nil
  dict_insert h := Dict.unequal_insert h _ _
  env_value h := h
  state_env h := h
  frozen := trivial
  continued definitions h := Env.defineAll_induction (P := Env.Distinct) h
    (fun _ name item he => Env.distinct_define he name item) definitions
  persistent := trivial
  define h := Env.distinct_define h _ _
  thaw h := Env.distinct_thaw h
  unknownPrimitive _ _ := trivial
  danglingReference _ _ := trivial

/-- **Evaluation builds well-formed values only.** -/
theorem wellFormed_eval {table : Table} (htable : table ⊆ Table.shipped) (room : Nat)
    (held : List Value) {b : Bindings} (hb : b.WellFormed) {expr : Value}
    (hexpr : expr.WellFormed) {r : Except Error Value × Bindings}
    (hr : (Eval.eval room ⟨table, held⟩ expr).run b = r) :
    r.2.WellFormed ∧ ∀ v, r.1 = .ok v → v.WellFormed := by
  have hhosts := (Invariant.wellFormedness table).goodHosts_of_subset htable
  have hsound : (Invariant.wellFormedness table).Sound b :=
    ⟨⟨hb.distinct, hb.env⟩, hb.refs, Nat.zero_le _⟩
  obtain ⟨_, _, sound, outcome⟩ :=
    Invariant.keepsEval_eval hhosts room _ held expr hexpr b le_rfl hsound
  rw [hr] at sound outcome
  refine ⟨⟨sound.env.1, sound.env.2, sound.refs⟩, ?_⟩
  intro v hv
  rw [hv] at outcome
  exact outcome

end CapLisp
