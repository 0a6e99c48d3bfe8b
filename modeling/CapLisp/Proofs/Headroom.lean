/-
# Depth headroom

The room that is left has one effect on a run: without any, an evaluation fails
for the depth limit.  No form, call or operation catches an error, a nested
evaluation included, so this error goes through to the end of the run.  A run
that ends in another way met the limit nowhere, and with more room it does the
same.
-/

import CapLisp.Proofs.Congruence

namespace CapLisp

/-- The error of an evaluation without room: of kind `Other`, labelled `eval`. -/
def Error.depthLimit : Error := .failed (.depthLimit maxEvalDepth)

namespace Action

variable {α β : Type}

/-- Tells that an action does what another one does, from any bindings on which
that other one does not meet the given limit. -/
def Continues (limit : Error) (x x' : Action α) : Prop :=
  ∀ b, (x.run b).1 ≠ .error limit → x'.run b = x.run b

variable {limit : Error}

/-- An action goes on as itself. -/
theorem Continues.refl (x : Action α) : Continues limit x x := fun _ _ => rfl

/-- The second action of two runs only if the first one did not meet the limit. -/
theorem Continues.bind {x x' : Action α} {next next' : α → Action β}
    (hx : Continues limit x x') (hnext : ∀ a, Continues limit (next a) (next' a)) :
    Continues limit (x >>= next) (x' >>= next') := by
  intro b hend
  rw [run_bind] at hend ⊢
  rw [run_bind]
  rcases hr : x.run b with ⟨e | a, b'⟩ <;> rw [hr] at hend
  · have hfirst : x'.run b = x.run b := by
      refine hx b ?_
      rw [hr]
      intro he
      exact hend (congrArg Except.error (Except.error.inj he))
    rw [hfirst, hr]
  · have hfirst : x'.run b = x.run b := by
      refine hx b ?_
      rw [hr]
      rintro ⟨⟩
    rw [hfirst, hr]
    exact hnext a b' hend

/-- An action goes on alike inside another environment. -/
theorem Continues.within {x x' : Action α} (hx : Continues limit x x') (e : Env Value) :
    Continues limit (within e x) (within e x') := by
  intro b hend
  have hinner : x'.run { b with env := e } = x.run { b with env := e } := hx _ hend
  exact congrArg (fun r => (r.1, { r.2 with env := b.env })) hinner

/-- An action goes on alike on a state. -/
theorem Continues.onState {x x' : Action α} (hx : Continues limit x x') (s : State Value) :
    Continues limit (onState s x) (onState s x') := by
  intro b hend
  have hinner : x'.run (.ofState s b.fresh) = x.run (.ofState s b.fresh) := by
    refine hx _ fun hlimit => hend ?_
    exact congrArg (Except.map fun a => (a, (x.run (.ofState s b.fresh)).2.intoState)) hlimit
  exact congrArg
    (fun r => (r.1.map fun a => (a, r.2.intoState), { b with fresh := r.2.fresh })) hinner

end Action

/-- The second of two related actions is what the first is without a limit, given that
no `def-rec` tells the two apart below the limit. -/
def Congruence.continuing (limit : Error) (beside : List Value → List Value)
    (beside_append : ∀ kept held, beside (kept ++ held) = kept ++ beside held)
    (recursion : ∀ table held name fn, Action.Continues limit
      (SpecialForm.makeRecursive ⟨table, beside held⟩ name fn)
      (SpecialForm.makeRecursive ⟨table, held⟩ name fn)) : Congruence where
  rel := Action.Continues limit
  beside := beside
  beside_append := beside_append
  pure _ := .refl _
  fail _ := .refl _
  get := .refl _
  define _ _ := .refl _
  nextSerial := .refl _
  operation _ _ := fun _ => .refl _
  bind hx hnext := hx.bind hnext
  within e _ _ hx := hx.within e
  onState s _ _ hx := hx.onState s
  recursion := recursion

/-- The second of two related actions is what the first is with more room. -/
def Congruence.headroom : Congruence :=
  .continuing .depthLimit id id_append
    fun table held name fn => .refl (SpecialForm.makeRecursive ⟨table, held⟩ name fn)

/-- A part of the shipped catalog has no procedure of the host. -/
theorem headroom_hosts_of_subset {table : Table} (htable : table ⊆ Table.shipped)
    (host host' : Runner) : Congruence.headroom.Hosts table host host' :=
  Congruence.hosts_of_subset htable host host'

/-- **An evaluator with more room continues one with less.** -/
theorem headroom_eval {table : Table} (htable : table ⊆ Table.shipped) {room room' : Nat}
    (hroom : room ≤ room') :
    Congruence.headroom.Evaluators table (Eval.eval room) (Eval.eval room') := by
  induction room generalizing room' with
  | zero => exact fun _ _ _ hend => absurd rfl hend
  | succ room ih =>
    obtain ⟨more, rfl⟩ : ∃ more, room' = more + 1 := ⟨room' - 1, by omega⟩
    have hless : Congruence.headroom.Evaluators table (Eval.eval room) (Eval.eval more) :=
      ih (by omega)
    exact Congruence.evaluators_step (headroom_hosts_of_subset htable _ _) hless

/-- **More room changes no run that has enough.**  Under any part of the shipped
catalog, from any bindings: an evaluation, or an application of a value to
arguments, that does not end in the depth-limit error has the same outcome and
leaves the same bindings with any more room.  A run with more room meets the
limit in fewer places, so no form or call can have kept the error to itself, a
nested evaluation included. -/
theorem run_eq_of_room_le {table : Table} (htable : table ⊆ Table.shipped) {room room' : Nat}
    (hroom : room ≤ room') (held : List Value) (b : Bindings) :
    (∀ expr : Value,
      ((Eval.eval room ⟨table, held⟩ expr).run b).1 ≠ .error .depthLimit →
      (Eval.eval room' ⟨table, held⟩ expr).run b = (Eval.eval room ⟨table, held⟩ expr).run b) ∧
    ∀ (func : Value) (args : List Value),
      ((applyFunction (Eval.eval room) ⟨table, held⟩ func args).run b).1 ≠ .error .depthLimit →
      (applyFunction (Eval.eval room') ⟨table, held⟩ func args).run b =
        (applyFunction (Eval.eval room) ⟨table, held⟩ func args).run b := by
  have heval := headroom_eval htable hroom
  have hhosts := headroom_hosts_of_subset htable (Procedure.runHost (Eval.eval room))
    (Procedure.runHost (Eval.eval room'))
  constructor
  · intro expr hend
    exact heval held expr b hend
  · intro func args hend
    exact Congruence.rel_applyFunction hhosts heval func args b hend

/-- A nested addition takes three levels of room, its call by itself two. -/
theorem run_eq_of_room_le_nested :
    let sum : Value := .list [.atom "+", .number 1, .number 2]
    let expr : Value := .list
      [.atom "base-eval", .list [.atom "quote", sum], .list [.atom "pure-state"]]
    let outcome : Except Error Value := .ok (.vector [.number 3, .state ⟨.persistent [], []⟩])
    let run := fun room => (Eval.eval room ⟨Table.shipped, []⟩ expr).run .empty
    let call := fun room => (applyFunction (Eval.eval room) ⟨Table.shipped, []⟩
      (.primFn "base-eval") [sum, .state ⟨.persistent [], []⟩]).run .empty
    (run 2).1 = .error .depthLimit ∧
    ((run 3).1 = outcome ∧ run maxEvalDepth = run 3) ∧
    ((call 2).1 = outcome ∧ call maxEvalDepth = call 2) := by
  intro sum expr outcome run call
  have hlimit : (run 2).1 = .error .depthLimit := by rfl
  have hrun : (run 3).1 = outcome := by rfl
  have hcall : (call 2).1 = outcome := by rfl
  have hrun' : (run 3).1 ≠ .error .depthLimit := by simp [hrun, outcome]
  have hcall' : (call 2).1 ≠ .error .depthLimit := by simp [hcall, outcome]
  have hshipped : Table.shipped ⊆ Table.shipped := List.Subset.refl _
  exact ⟨hlimit, ⟨hrun, (run_eq_of_room_le hshipped (by decide) [] .empty).1 expr hrun'⟩,
    ⟨hcall, (run_eq_of_room_le hshipped (by decide) [] .empty).2 _ _ hcall'⟩⟩

end CapLisp
