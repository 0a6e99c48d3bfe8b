/-
# References point into the store

A program gets a reference from `ref` alone, and the store that the slot went
into only grows while the program runs.  So a reference never points past the
end of the store, as long as no program can run on a store of its own, which is
what `base-eval` grants.

A form that fails is undone, and the store is short again.  Then the
environment and the slots of before are back as well, with the references that
pointed into that store, and what the form made is gone with it.

Programs come as texts here.  A text spells no reference, so a session begins
without any.
-/

import CapLisp.Proofs.Invariant.Session

namespace CapLisp

/-- Tells that every reference that occurs in a value, at any depth, points to
one of the first `n` slots. -/
def Value.PointsBelow (n : Nat) (v : Value) : Prop :=
  v.Everywhere fun w => ∀ index, w = .ref index → index.toNat < n

/-- Tells that every reference in the environment, shadowed frames included, and
in the store points to a slot of the store. -/
structure Bindings.Intact (b : Bindings) : Prop where
  env : ∀ v ∈ b.env.values, v.PointsBelow b.refs.length
  refs : ∀ v ∈ b.refs, v.PointsBelow b.refs.length

/-- Tells that a step of an interpreter ended with references into its store only
and not for a broken invariant of the evaluator. -/
structure IntactEnd (r : Except Error Value × Interpreter) : Prop where
  bindings : r.2.bindings.Intact
  value : ∀ v, r.1 = .ok v → v.PointsBelow r.2.bindings.refs.length
  error : ∀ e, r.1 = .error e → e.kind ≠ .impossible

namespace Invariant

/-- The limit that the length of the store sets to references.  It goes with the
table granting every primitive, so that no application can find one missing. -/
def references {table : Table} (hnested : Primitive.baseEval ∉ table) : Invariant table where
  value n v := (∀ name, v = .primFn name → table.contains name = true) ∧
    ∀ index, v = .ref index → index.toNat < n.slots
  env _ := True
  breach _ := False
  mono hmn h := ⟨h.1, fun index he => (h.2 index he).trans_le hmn.1⟩
  detached hgrant := absurd hgrant hnested
  data hd := by constructor <;> rintro _ rfl <;> cases hd
  lambda _ _ _ := ⟨nofun, nofun⟩
  lambdaRec _ := ⟨nofun, nofun⟩
  quote := ⟨nofun, nofun⟩
  primFn h := ⟨by rintro _ ⟨⟩; exact h, nofun⟩
  ref h := ⟨nofun, by rintro _ ⟨⟩; exact h⟩
  dict_nil := ⟨nofun, nofun⟩
  dict_insert _ := ⟨nofun, nofun⟩
  env_value _ := ⟨nofun, nofun⟩
  state_env _ := trivial
  frozen := ⟨nofun, nofun⟩
  continued _ _ := ⟨nofun, nofun⟩
  persistent := trivial
  define _ := trivial
  thaw _ := trivial
  unknownPrimitive hfind hallowed := Table.not_contains_of_find? hfind (hallowed.1 _ rfl)
  danglingReference hpast hallowed := absurd (hallowed.2 _ rfl) hpast.not_gt

variable {table : Table} {hnested : Primitive.baseEval ∉ table} {n : Stage}

/-- What the reader gives refers to no slot. -/
theorem value_of_isSyntax (n : Stage) (v : Value) (h : v.isSyntax = true) :
    (references hnested).value n v := by
  constructor <;> rintro _ rfl <;> cases h

/-- Good values refer only to slots of their stage. -/
theorem Good.pointsBelow {v : Value} (h : (references hnested).Good n v) :
    v.PointsBelow n.slots :=
  Value.Everywhere.mono (fun _ hw => hw.2) h

/-- Sound bindings refer only to slots of their store. -/
theorem Sound.intact {b : Bindings} (h : (references hnested).Sound b) : b.Intact :=
  ⟨fun v hv => (h.env.2 v hv).pointsBelow, fun v hv => (h.refs v hv).pointsBelow⟩

/-- **No invariant of the evaluator breaks**: a missing primitive and a reference
past the slots are both against the limit. -/
theorem GoodError.kind_ne_impossible {e : Error} (h : (references hnested).GoodError n e) :
    e.kind ≠ .impossible := by
  cases e with
  | impossible breach => exact False.elim h
  | _ => rintro ⟨⟩

end Invariant

/-- The interpreter after a list of texts, whatever became of each. -/
def Interpreter.afterTexts (texts : List String) (i : Interpreter) : Interpreter :=
  texts.foldl (fun i text => (i.evalText text).2) i

/-- **No reference ever dangles.**  A session begins with an empty environment of
either variant and an empty store, under any part of the shipped catalog without
`base-eval`.  Whatever texts it is fed, and however these end: the next text
does not end in an `Impossible` error, and afterwards every reference anywhere
in the environment, in the store and in the value that is returned points to a
slot of the store. -/
theorem intactEnd_evalText {table : Table} (htable : table ⊆ Table.shipped)
    (hnested : Primitive.baseEval ∉ table) {env : Env Value} (hempty : env.values = [])
    (fresh : Nat) (texts : List String) (source : String) :
    IntactEnd ((Interpreter.afterTexts texts ⟨table, env, [], fresh⟩).evalText source) := by
  let I := Invariant.references hnested
  have hhosts := I.goodHosts_of_subset htable
  have htext : ∀ {i : Interpreter}, I.Steady i → ∀ text, I.SteadyEnd (i.evalText text) :=
    fun hi text => hi.evalText hhosts Invariant.value_of_isSyntax text
  have hstart : I.Steady ⟨table, env, [], fresh⟩ := by
    refine ⟨rfl, ⟨trivial, ?_⟩, List.forall_mem_nil _, Nat.zero_le _⟩
    rw [hempty]
    exact List.forall_mem_nil _
  have hbefore : I.Steady (Interpreter.afterTexts texts ⟨table, env, [], fresh⟩) :=
    List.foldlRecOn texts _ hstart fun i hi text _ => (htext hi text).steady
  obtain ⟨hsteady, hvalue, herror⟩ := htext hbefore source
  refine ⟨hsteady.sound.intact, fun v hv => (hvalue v hv).pointsBelow, ?_⟩
  intro e he
  obtain ⟨n, hgood⟩ := herror e he
  exact hgood.kind_ne_impossible

/-- The second text makes a slot, writes a reference to it into the first one and
fails: both are undone.  The next slot has the index of the lost one. -/
theorem intactEnd_evalText_undone :
    let table := Table.shipped.without ["base-eval"]
    let before : Interpreter := ⟨table, .mutable [], [], 0⟩
    let texts := ["(def r (ref 1))", "(do (write-ref r (ref r)) (throw 'stop r))"]
    let source := "(ref (read-ref r))"
    table ⊆ Table.shipped ∧ Primitive.baseEval ∉ table ∧ before.bindings.env.values = [] ∧
    ((before.afterTexts texts).evalText source).1.toOption.map Value.text = some "#<ref:1>" ∧
    IntactEnd ((before.afterTexts texts).evalText source) := by
  intro table before texts source
  have htable : table ⊆ Table.shipped := List.filter_subset_self _
  have hnested : Primitive.baseEval ∉ table := by
    simp [table, Table.without, Primitive.name]
  have hempty : (Env.mutable [] : Env Value).values = [] := rfl
  have hvalue : ((before.afterTexts texts).evalText source).1.toOption.map Value.text =
      some "#<ref:1>" := by decide +kernel
  exact ⟨htable, hnested, hempty, hvalue, intactEnd_evalText htable hnested hempty 0 texts source⟩

end CapLisp
