/-
# Capability confinement

A program under a table gets hold of no primitive that the table lacks.  Atoms
are looked up in the table, so a reference to a primitive comes from the table
or was there before; no form and no operation makes one up, and a nested
evaluation runs under the table of its caller.

So a call never finds its primitive missing: that error is left to programs
whose bindings were confined to another table.
-/

import CapLisp.Proofs.Invariant.Evaluator

namespace CapLisp

/-- Tells that every primitive that occurs in a value, at any depth, is an entry
of the table. -/
def Value.Confined (table : Table) (v : Value) : Prop :=
  v.Everywhere fun w => ∀ name, w = .primFn name → table.contains name = true

/-- Tells that every primitive in the environment, shadowed frames included, and
in the store is an entry of the table. -/
structure Bindings.Confined (table : Table) (b : Bindings) : Prop where
  env : ∀ v ∈ b.env.values, v.Confined table
  refs : ∀ v ∈ b.refs, v.Confined table

/-- Tells that a run ended, with a value or an error, confined to a table. -/
structure ConfinedEnd (table : Table) (r : Except Error Value × Bindings) : Prop where
  bindings : r.2.Confined table
  value : ∀ v, r.1 = .ok v → v.Confined table
  error : ∀ e, r.1 = .error e → (∀ v ∈ e.values, v.Confined table) ∧
    ∀ name, e ≠ .impossible (.unknownPrimitive name)

namespace Invariant

/-- The limit that the entries of a table set. -/
def confinement (table : Table) : Invariant table where
  value _ v := ∀ name, v = .primFn name → table.contains name = true
  env _ := True
  breach breach := ∀ name, breach ≠ .unknownPrimitive name
  mono _ h := h
  detached _ _ _ _ _ h := h
  data hd name he := by rw [he] at hd; cases hd
  lambda _ _ _ := nofun
  lambdaRec _ := nofun
  quote := nofun
  primFn h _ he := by cases he; exact h
  ref _ := nofun
  dict_nil := nofun
  dict_insert _ := nofun
  env_value _ := nofun
  state_env _ := trivial
  frozen := nofun
  continued _ _ := nofun
  persistent := trivial
  define _ := trivial
  thaw _ := trivial
  unknownPrimitive hfind hallowed := absurd (hallowed _ rfl) (Table.not_contains_of_find? hfind)
  danglingReference _ _ := nofun

variable {table : Table} {n : Stage}

/-- Bindings are sound for confinement exactly if every value in them is confined. -/
theorem sound_confinement {b : Bindings} : (confinement table).Sound b ↔ b.Confined table := by
  constructor
  · intro h
    exact ⟨h.env.2, h.refs⟩
  · intro h
    exact ⟨⟨trivial, h.env⟩, h.refs, Nat.zero_le _⟩

/-- A primitive that is missing from the table breaks the limit. -/
theorem GoodError.ne_unknownPrimitive {e : Error} (h : (confinement table).GoodError n e)
    (name : String) : e ≠ .impossible (.unknownPrimitive name) := by
  rintro rfl
  exact h name rfl

/-- A run that keeps confinement ends confined. -/
theorem Kept.confinedEnd {b : Bindings} {r : Except Error Value × Bindings}
    (h : (confinement table).Kept (confinement table).Good b r) : ConfinedEnd table r := by
  obtain ⟨outcome, b'⟩ := r
  refine ⟨sound_confinement.1 h.sound, ?_, ?_⟩
  · rintro v rfl
    exact h.outcome
  · rintro e rfl
    exact ⟨GoodError.values h.outcome, GoodError.ne_unknownPrimitive h.outcome⟩

end Invariant

/-- **Programs stay confined to their table.**  Under any part of the shipped
catalog, at any depth: an evaluation, or an application of a value to arguments,
in which every primitive is granted ends with granted primitives only, in the
value, in the values of the error, in the environment and in the store.  It
never fails for a primitive that is not in the table.  No form catches an
error, so this goes for every nested evaluation, too. -/
theorem confinedEnd_of_confined {table : Table} (htable : table ⊆ Table.shipped) (room : Nat)
    (held : List Value) {b : Bindings} (hb : b.Confined table) :
    (∀ expr : Value, expr.Confined table →
      ConfinedEnd table ((Eval.eval room ⟨table, held⟩ expr).run b)) ∧
    ∀ (func : Value) (args : List Value), func.Confined table →
      (∀ v ∈ args, v.Confined table) →
      ConfinedEnd table
        ((applyFunction (Eval.eval room) ⟨table, held⟩ func args).run b) := by
  have hhosts := (Invariant.confinement table).goodHosts_of_subset htable
  have heval := Invariant.keepsEval_eval hhosts room
  have hsound := Invariant.sound_confinement.2 hb
  constructor
  · intro expr hexpr
    exact (heval _ held expr hexpr b le_rfl hsound).confinedEnd
  · intro func args hfunc hargs
    have hkeeps : (Invariant.confinement table).Keeps b.stage
        (Invariant.confinement table).Good
        (applyFunction (Eval.eval room) ⟨table, held⟩ func args) :=
      Invariant.keeps_applyFunction hhosts (Invariant.coincideEval_eval hhosts room) hfunc
        hargs
    exact (hkeeps b le_rfl hsound).confinedEnd

/-- A program that holds `base-eval` and the empty state, and nothing else, and
tries to add numbers in a nested evaluation. -/
theorem confinedEnd_sandbox :
    [Primitive.baseEval, .operation .pureState] ⊆ Table.shipped ∧
    Bindings.empty.Confined [.baseEval, .operation .pureState] ∧
    ConfinedEnd [.baseEval, .operation .pureState]
      ((Eval.eval 8 ⟨[.baseEval, .operation .pureState], []⟩
        (.list [.primFn "base-eval", .list [.atom "quote", .list [.atom "+", .number 1]],
          .list [.atom "pure-state"]])).run .empty) := by
  have htable : [Primitive.baseEval, .operation .pureState] ⊆ Table.shipped := by
    simp [Table.shipped, Primitive.catalog, Operation.all]
  have hempty : Bindings.empty.Confined [.baseEval, .operation .pureState] :=
    ⟨by simp [Bindings.empty, Env.empty, Env.values], by simp [Bindings.empty]⟩
  refine ⟨htable, hempty, (confinedEnd_of_confined htable 8 [] hempty).1 _ ?_⟩
  simp [Value.Confined, Table.contains, Table.find?, Primitive.name]

end CapLisp
