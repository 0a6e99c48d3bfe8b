/-
# State threading through the sandbox

`base-eval` runs a form on a state and hands the state back that the form leaves.
A program may give it all its forms at once, in a `do`, or one by one, each on the
state that the one before left.  In the first case the state stays in use and one
level of room is taken by the `do`; in the second it is taken apart and put together
between the forms.  Neither shows, as long as the room is enough for the `do`
(`threads_of_do`).

The two runs differ in what they hold on to meanwhile, and this could show in a
`def-rec`.  Without it evaluation does not depend on what is held
(`Invariant.heldAlike_plainness`), and more room changes no run that has enough
(`headroom_eval`).
-/

import CapLisp.Proofs.Headroom
import CapLisp.Proofs.Isolation

namespace CapLisp

/-- Tells that calls on forms one by one, each on the state that the one before handed
back, end in this way: the last call does, or an earlier one fails so.  Each call that
succeeds gives a vector of a value and a state. -/
inductive Threads (call : Value → State Value → Action Value) :
    State Value → List Value → Bindings → Except Error Value × Bindings → Prop
  | failed {s : State Value} {form : Value} {rest : List Value} {b b' : Bindings} {e : Error}
    (h : (call form s).run b = (.error e, b')) : Threads call s (form :: rest) b (.error e, b')
  | last {s s' : State Value} {form v : Value} {b b' : Bindings}
    (h : (call form s).run b = (.ok (.vector [v, .state s']), b')) :
    Threads call s [form] b (.ok (.vector [v, .state s']), b')
  | step {s s' : State Value} {form v next : Value} {rest : List Value} {b b' : Bindings}
    {r : Except Error Value × Bindings}
    (h : (call form s).run b = (.ok (.vector [v, .state s']), b'))
    (hrest : Threads call s' (next :: rest) b' r) : Threads call s (form :: next :: rest) b r

section

variable {table : Table} {name : String} {room : Nat}

/-- A form without `def-rec` that has enough room does the same with one level more and
whatever is held. -/
theorem run_eval_succ (htable : table ⊆ Table.shipped) {form : Value}
    (hform : form.Without "def-rec") {b : Bindings}
    (hb : (Invariant.plainness .full table).Sound b) (held held' : List Value)
    (hend : ((Eval.eval room ⟨table, held⟩ form).run b).1 ≠ .error .depthLimit) :
    (Eval.eval (room + 1) ⟨table, held'⟩ form).run b =
      (Eval.eval room ⟨table, held⟩ form).run b := by
  have hmore : (Eval.eval (room + 1) ⟨table, held⟩ form).run b =
      (Eval.eval room ⟨table, held⟩ form).run b :=
    headroom_eval htable (Nat.le_succ room) held form b hend
  have hheld : (Eval.eval (room + 1) ⟨table, held'⟩ form).run b =
      (Eval.eval (room + 1) ⟨table, held⟩ form).run b :=
    (Invariant.coincideEval_eval ((Invariant.plainness .full table).goodHosts_of_subset htable)
      (room + 1) b.stage held held' form (Invariant.heldAlike_plainness held held')
      hform.plain).run_eq le_rfl hb
  exact hheld.trans hmore

/-- The forms of a body and nested evaluations of the forms one by one end alike. -/
theorem threads_of_evalBody (htable : table ⊆ Table.shipped)
    (hgrant : table.find? name = some .baseEval) {forms : List Value}
    (hforms : ∀ form ∈ forms, form.Without "def-rec") (hne : forms ≠ []) {b' : Bindings}
    (hb' : (Invariant.plainness .full table).Sound b') (last : Value) (held held' : List Value)
    (hend : ((evalBody (Eval.eval room) ⟨table, held'⟩ last forms).run b').1 ≠
      .error .depthLimit) {b : Bindings} (hfresh : b.fresh = b'.fresh) :
    let r := (evalBody (Eval.eval room) ⟨table, held'⟩ last forms).run b'
    Threads
      (fun form s => applyFunction (Eval.eval (room + 1)) ⟨table, held⟩ (.primFn name)
        [form, .state s])
      b'.intoState forms b
      (r.1.map fun v => .vector [v, .state r.2.intoState], { b with fresh := r.2.fresh }) := by
  induction forms generalizing b b' last with
  | nil => exact absurd rfl hne
  | cons form rest ih =>
    obtain ⟨hform, hrest⟩ := List.forall_mem_cons.1 hforms
    have hkept := Invariant.keepsEval_eval
      ((Invariant.plainness .full table).goodHosts_of_subset htable) room b'.stage
      (last :: held') form hform.plain b' le_rfl hb'
    -- The call on the form runs as the form does in the body.
    have hcall : ((Eval.eval room ⟨table, last :: held'⟩ form).run b').1 ≠ .error .depthLimit →
        (applyFunction (Eval.eval (room + 1)) ⟨table, held⟩ (.primFn name)
          [form, .state b'.intoState]).run b =
        (((Eval.eval room ⟨table, last :: held'⟩ form).run b').1.map fun v =>
            .vector [v, .state ((Eval.eval room ⟨table, last :: held'⟩ form).run b').2.intoState],
          { b with fresh := ((Eval.eval room ⟨table, last :: held'⟩ form).run b').2.fresh }) := by
      intro hfirst
      obtain ⟨kept, hnested⟩ :=
        exists_run_baseEval hgrant (Eval.eval (room + 1)) held form b'.intoState
      have hstart : Bindings.ofState b'.intoState b.fresh = b' := by rw [hfresh]; rfl
      rw [hnested, Call.run_nested, hstart]
      simp only [Context.holdAll, run_eval_succ htable hform hb' (last :: held') _ hfirst]
    simp only [evalBody, Action.run_bind, Context.hold] at hend ⊢
    rcases hx : (Eval.eval room ⟨table, last :: held'⟩ form).run b' with ⟨e | v, b''⟩ <;>
      rw [hx] at hkept hcall hend
    · exact .failed (hcall hend)
    · have hstep := hcall (by rintro ⟨⟩)
      cases rest with
      | nil => exact .last hstep
      | cons next rest =>
        exact .step hstep (ih hrest (List.cons_ne_nil _ _) hkept.sound v hend rfl)

/-- A `do` takes one level of room and evaluates its forms in order. -/
theorem eval_do (ctx : Context) (forms : List Value) :
    Eval.eval (room + 1) ctx (.list (.atom "do" :: forms)) =
      evalBody (Eval.eval room) ctx .null forms := rfl

/-- **State threads through the sandbox.**  Under any part of the shipped catalog with
`base-eval`, from any bindings of the caller and at any depth: let a nested evaluation
of `(do form ...)`, of at least one form, on a state not end in the depth-limit error,
and let `def-rec` stand nowhere in the forms and the state.  Then nested evaluations of
the forms one by one, each on the state that the one before handed back, end in the same
way: they all succeed, and the last one gives the result and the state of the `do`, or
the first that fails does so with its error. -/
theorem threads_of_do (htable : table ⊆ Table.shipped) (hgrant : table.find? name = some .baseEval)
    {forms : List Value} (hforms : ∀ form ∈ forms, form.Without "def-rec") (hne : forms ≠ [])
    {s : State Value} (hs : (Value.state s).Without "def-rec") (held held' : List Value)
    (b : Bindings) :
    let call := fun held form s =>
      applyFunction (Eval.eval room) ⟨table, held⟩ (.primFn name) [form, .state s]
    let whole := (call held' (.list (.atom "do" :: forms)) s).run b
    whole.1 ≠ .error .depthLimit → Threads (call held) s forms b whole := by
  intro call whole hend
  obtain ⟨kept, hnested⟩ :=
    exists_run_baseEval hgrant (Eval.eval room) held' (.list (.atom "do" :: forms)) s
  have hwhole : whole = (Call.run (Eval.eval room) ⟨table, kept⟩
      (.nested (.list (.atom "do" :: forms)) s)).run b := congrArg (fun x => x.run b) hnested
  rw [Call.run_nested] at hwhole
  cases room with
  | zero => exact absurd (congrArg Prod.fst hwhole) hend
  | succ room =>
    have hgood : (Invariant.plainness .full table).Good ⟨0, 0⟩ (.state s) := hs.plain
    have hsound := hgood.sound_ofState (Table.mem_of_find? hgrant) (Nat.zero_le b.fresh)
      (Nat.zero_le _)
    rw [eval_do] at hwhole
    have hbody : ((evalBody (Eval.eval room) ((Context.mk table kept).holdAll
        [.list (.atom "do" :: forms), .state b.intoState]) .null forms).run
          (.ofState s b.fresh)).1 ≠ .error .depthLimit := by
      intro hlimit
      refine hend ?_
      rw [hwhole]
      simp only [hlimit]
      rfl
    exact hwhole ▸ threads_of_evalBody htable hgrant hforms hne hsound .null held _ hbody rfl

end

/-- Three forms that define a name, write the slot of the state and look at both. -/
theorem threads_of_do_counter :
    let forms : List Value := [
      .list [.atom "def", .atom "x", .list [.atom "read-ref", .atom "r"]],
      .list [.atom "write-ref", .atom "r", .list [.atom "+", .atom "x", .number 1]],
      .vector [.atom "x", .list [.atom "read-ref", .atom "r"]]]
    let s : State Value := ⟨.persistent [("r", .ref 0)], [.number 5]⟩
    let s' : State Value := ⟨.persistent [("x", .number 5), ("r", .ref 0)], [.number 6]⟩
    let call := fun form (s : State Value) => applyFunction (Eval.eval 8) ⟨Table.shipped, []⟩
      (.primFn "base-eval") [form, .state s]
    (∀ form ∈ forms, form.Without "def-rec") ∧ forms ≠ [] ∧ (Value.state s).Without "def-rec" ∧
    ((call (.list (.atom "do" :: forms)) s).run .empty).1 =
      .ok (.vector [.vector [.number 5, .number 6], .state s']) ∧
    Threads call s forms .empty ((call (.list (.atom "do" :: forms)) s).run .empty) := by
  intro forms s s' call
  have hgrant : Table.shipped.find? "base-eval" = some .baseEval := by rfl
  have hforms : ∀ form ∈ forms, form.Without "def-rec" := by
    simp [forms, Value.Without]
  have hne : forms ≠ [] := List.cons_ne_nil _ _
  have hs : (Value.state s).Without "def-rec" := by
    simp [s, Value.Without, Env.values]
  have hwhole : ((call (.list (.atom "do" :: forms)) s).run .empty).1 =
      .ok (.vector [.vector [.number 5, .number 6], .state s']) := by rfl
  have hend : ((call (.list (.atom "do" :: forms)) s).run .empty).1 ≠ .error .depthLimit := by
    rw [hwhole]
    rintro ⟨⟩
  exact ⟨hforms, hne, hs, hwhole,
    threads_of_do (List.Subset.refl Table.shipped) hgrant hforms hne hs [] [] .empty hend⟩

end CapLisp
