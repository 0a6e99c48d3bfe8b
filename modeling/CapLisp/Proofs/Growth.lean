/-
# What evaluation may change

An evaluation adds to the bindings and takes nothing away.  Its definitions go
into the environment that it began in, which keeps its variant; the slots that
were there are there afterwards.  This goes for every outcome and every table,
procedures of the host included, since no part of a step removes anything and
the two parts that work on another environment or another store put the old one
back (`Bindings.Extends`, `Action.Adds`).  An application of a closure adds
nothing to the environment at all (`env_applyFunction_of_enter`).

What becomes of the depth counter and of the table is a question about a machine
that has them (`Proofs/Machine/Restored`).
-/

import CapLisp.Proofs.Congruence
import CapLisp.Proofs.Invariant.Basic

namespace CapLisp

/-! ### Definitions -/

namespace Env

variable {α : Type}

/-- Definitions go in front of the frames of a persistent environment. -/
theorem defineAll_persistent (definitions frames : List (String × α)) :
    (Env.persistent frames).defineAll definitions =
      .persistent (Chain.extend frames definitions) := by
  induction definitions generalizing frames with
  | nil => rfl
  | cons definition rest ih =>
    have hrest : (persistent (definition :: frames)).defineAll rest =
        .persistent (Chain.extend (definition :: frames) rest) := ih (definition :: frames)
    rw [Chain.extend, List.reverse_cons, List.append_assoc]
    exact hrest

/-- **No definition unbinds a name.** -/
theorem isSome_lookup_defineAll {name : String} {e : Env α} (h : (e.lookup name).isSome = true)
    (definitions : List (String × α)) : ((e.defineAll definitions).lookup name).isSome = true := by
  refine defineAll_induction (P := fun e' => (e'.lookup name).isSome = true) h ?_ definitions
  intro e' key value hbound
  rw [lookup_define]
  split
  · rfl
  · exact hbound

end Env

/-- Tells that bindings kept what they had: the variant of the environment, the
frames of a persistent one, the names that are bound and the slots. -/
structure Bindings.Keeps (b b' : Bindings) : Prop where
  variant : b'.env.isImmutable = b.env.isImmutable
  definitions : ∃ definitions, b'.env = b.env.defineAll definitions
  frames : ∀ frames, b.env = .persistent frames → ∃ newer, b'.env = .persistent (newer ++ frames)
  names : ∀ name, (b.env.lookup name).isSome = true → (b'.env.lookup name).isSome = true
  size : b.refs.length ≤ b'.refs.length
  slots : ∀ index, (Store.get? index b.refs).isSome = true →
    (Store.get? index b'.refs).isSome = true

/-- Bindings that only took definitions and slots kept what they had. -/
theorem Bindings.Extends.keeps {b b' : Bindings} (h : b.Extends b') : b.Keeps b' := by
  obtain ⟨⟨definitions, henv⟩, hrefs⟩ := h
  refine ⟨?_, ⟨definitions, henv⟩, ?_, ?_, hrefs, ?_⟩
  · rw [henv, Env.isImmutable_defineAll]
  · intro frames hframes
    have hnewer : b'.env = .persistent (Chain.extend frames definitions) := by
      rw [henv, hframes, Env.defineAll_persistent]
    exact ⟨definitions.reverse, hnewer⟩
  · intro name hname
    rw [henv]
    exact Env.isSome_lookup_defineAll hname definitions
  · intro index hindex
    have hlt : index.toNat < b.refs.length := by simpa [Store.get?] using hindex
    have hlt' : index.toNat < b'.refs.length := hlt.trans_le hrefs
    simpa [Store.get?] using hlt'

/-- The values of a persistent environment stay in it, whatever hides them. -/
theorem Bindings.Extends.mem_values {b b' : Bindings} (h : b.Extends b')
    (himmutable : b.env.isImmutable = true) {v : Value} (hv : v ∈ b.env.values) :
    v ∈ b'.env.values := by
  cases he : b.env with
  | persistent frames =>
    obtain ⟨newer, hnewer⟩ := h.keeps.frames frames he
    rw [he] at hv
    rw [hnewer, Env.values, List.map_append]
    exact List.mem_append_right _ hv
  | mutable bindings =>
    rw [he] at himmutable
    cases himmutable

namespace Action

/-! ### Actions that only add -/

/-- An action that only adds to the bindings, whatever its outcome. -/
def Adds {α : Type} (x : Action α) : Prop := ∀ b : Bindings, b.Extends (x.run b).2

variable {α β : Type}

/-- An action that leaves environment and store alone only adds. -/
theorem adds_of_same {x : Action α} (henv : ∀ b, (x.run b).2.env = b.env)
    (hrefs : ∀ b, (x.run b).2.refs = b.refs) : x.Adds := by
  intro b
  have hlength : b.refs.length ≤ (x.run b).2.refs.length := by rw [hrefs]
  exact ⟨⟨[], henv b⟩, hlength⟩

/-- Two actions that only add do so in a row. -/
theorem Adds.bind {x : Action α} {next : α → Action β} (hx : x.Adds) (hnext : ∀ a, (next a).Adds) :
    (x >>= next).Adds := by
  intro b
  have hfirst := hx b
  rw [run_bind]
  rcases hr : x.run b with ⟨_ | a, b'⟩ <;> rw [hr] at hfirst
  · exact hfirst
  · exact hfirst.trans (hnext a b')

/-- A definition only adds. -/
theorem adds_define (name : String) (v : Value) : (define name v).Adds :=
  fun _ => ⟨⟨[(name, v)], rfl⟩, le_rfl⟩

/-- Of what an action does in another environment, the store is left. -/
theorem Adds.within {x : Action α} (hx : x.Adds) (e : Env Value) : (within e x).Adds :=
  fun b => ⟨⟨[], rfl⟩, (hx { b with env := e }).refs⟩

/-- Taking the outcome of an action as a value only adds if the action does. -/
theorem Adds.outcome {x : Action α} (hx : x.Adds) : x.outcome.Adds := hx

/-- An operation on fitting arguments only adds. -/
theorem adds_operation (eval : Evaluator) (ctx : Context) {op : Operation} {args : List Value}
    (hfits : op.Fits args) : (Call.run eval ctx (.operation op args)).Adds := by
  have hpure : (∀ b, op.run b args = (op.result args).map fun v => (v, b.refs)) →
      (Call.run eval ctx (.operation op args)).Adds := by
    intro hrun
    refine adds_of_same (fun b => ?_) (fun b => ?_) <;>
      simp only [run, Call.run_operation, hrun] <;> cases op.result args <;> rfl
  cases hfits with
  | ref v =>
    exact fun b =>
      ⟨⟨[], rfl⟩, by simp [run, Call.run_operation, Operation.run_ref, Store.insert]⟩
  | readRef index =>
    refine adds_of_same (fun b => ?_) (fun b => ?_) <;>
      simp only [run, Call.run_operation, Operation.run_readRef] <;>
      cases Store.get? index b.refs <;> rfl
  | writeRef index v =>
    intro b
    simp only [run, Call.run_operation, Operation.run_writeRef]
    cases hset : Store.set? index v b.refs with
    | none => exact .refl b
    | some written => exact ⟨⟨[], rfl⟩, (Store.length_set? hset).ge⟩
  | currentState => exact adds_of_same (fun _ => rfl) fun _ => rfl
  | _ => exact hpure fun b => rfl

/-- Making a closure recursive only adds. -/
theorem adds_makeRecursive (ctx : Context) (name : String) (fn : Closure Value) :
    (SpecialForm.makeRecursive ctx name fn).Adds := by
  intro b
  rw [SpecialForm.run_makeRecursive]
  split
  · exact .refl b
  · exact adds_define name (.lambdaRec name fn) b

end Action

/-- Of two related actions the first only adds. -/
def Congruence.adding : Congruence where
  rel x _ := x.Adds
  beside := id
  beside_append := id_append
  pure _ := Action.adds_of_same (fun _ => rfl) fun _ => rfl
  fail _ := Action.adds_of_same (fun _ => rfl) fun _ => rfl
  get := Action.adds_of_same (fun _ => rfl) fun _ => rfl
  define := Action.adds_define
  nextSerial := Action.adds_of_same (fun _ => rfl) fun _ => rfl
  operation eval ctx := Action.adds_operation eval ctx
  bind hx hnext := hx.bind hnext
  within e _ _ hx := hx.within e
  onState _ _ _ _ := Action.adds_of_same (fun _ => rfl) fun _ => rfl
  recursion table held := Action.adds_makeRecursive ⟨table, held⟩

/-! ### Evaluations -/

section Evaluations

variable {table : Table} {eval : Evaluator} {held : List Value}

/-- An evaluator that only adds. -/
def AddingEval (table : Table) (eval : Evaluator) : Prop :=
  Congruence.adding.Evaluators table eval eval

/-- A procedure of the host adds its definitions and what its evaluations and
applications add. -/
theorem addingHosts (heval : AddingEval table eval) :
    Congruence.adding.Hosts table (Procedure.runHost eval) (Procedure.runHost eval) :=
  Congruence.hosts_of_outcome (fun hx => hx.outcome) heval

/-- **Evaluations only add**, whatever the room. -/
theorem addingEval_eval (table : Table) (room : Nat) : AddingEval table (Eval.eval room) := by
  induction room with
  | zero => exact fun _ _ => Congruence.adding.fail _
  | succ room ih => exact Congruence.evaluators_step (addingHosts ih) ih

/-- A closure runs in a scope of its own. -/
theorem env_body (eval : Evaluator) (ctx : Context) (scope : Chain Value) (bodies : List Value)
    (b : Bindings) : ((Call.run eval ctx (.body scope bodies)).run b).2.env = b.env := rfl

/-- **Applying a closure leaves the environment of its caller.** -/
theorem env_applyFunction_of_enter (eval : Evaluator) (held : List Value) {func : Value}
    {args : List Value} {scope : Chain Value} {fn : Closure Value}
    (hresolve : Call.resolve table args func = Call.enter scope fn args) (b : Bindings) :
    ((applyFunction eval ⟨table, held⟩ func args).run b).2.env = b.env := by
  obtain ⟨kept, hrun⟩ := exists_applyFunction_eq table func args
  rw [hrun, hresolve, Call.enter]
  split
  · rfl
  · next call hcall =>
    split at hcall
    · obtain rfl := Except.ok.inj hcall
      exact env_body eval _ _ _ b
    · cases hcall

end Evaluations

end CapLisp
