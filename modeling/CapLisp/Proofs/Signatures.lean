/-
# Signatures are exact and failures are clean

The signature of a primitive and the demands that its implementation makes on the
arguments are written apart.  A call checks the signature first, and what passes it
meets every demand: the errors that are left to the implementation are few
(`Operation.Raises`), and none refuses a number or a kind of arguments.  So the refusals
of a call are those of its signature (`call_obeys_signature`), but for three that come
from further inside.

| primitive | what it hands on |
| --- | --- |
| `string-append` | its own refusal of an argument that is no string |
| `apply` | what the application of its function to its list comes to |
| `base-eval` | what the evaluation of its expression comes to |

An operation that fails has changed nothing, and `base-eval` never changes its caller.
-/

import CapLisp.Proofs.Applications

namespace CapLisp

/-- A change of results leaves an error as it was. -/
theorem eq_error_of_map {α β : Type} {outcome : Except Error α} {f : α → β} {e : Error}
    (h : outcome.map f = .error e) : outcome = .error e := by
  cases outcome with
  | ok a => cases h
  | error e' =>
    cases h
    rfl

/-- The errors of a signature check: a number of arguments or a kind is refused. -/
def Error.IsRefusal (e : Error) : Prop := e.kind = .wrongNumberArgs ∨ e.kind = .type

/-! ### Checking a signature -/

namespace Signature

/-- Tells that the argument at position `i` is the first that is not of the kind
declared for its position. -/
structure RejectsAt (kinds : List ArgKind) (args : List Value) (i : Nat) (expected : ArgKind)
    (v : Value) : Prop where
  kind : kinds[i]? = some expected
  argument : args[i]? = some v
  rejected : expected.accepts v = false
  first : ∀ j < i, ∀ k w, kinds[j]? = some k → args[j]? = some w → k.accepts w = true

variable {op : String} {kinds : List ArgKind} {args : List Value}

/-- An argument that is accepted moves the first rejected one back by one. -/
theorem RejectsAt.later {i : Nat} {expected k : ArgKind} {v w : Value}
    (h : RejectsAt kinds args i expected v) (hw : k.accepts w = true) :
    RejectsAt (k :: kinds) (w :: args) (i + 1) expected v := by
  refine ⟨h.kind, h.argument, h.rejected, fun j hj k' w' hk' hw' => ?_⟩
  cases j with
  | zero =>
    cases hk'
    cases hw'
    exact hw
  | succ j => exact h.first j (Nat.lt_of_succ_lt_succ hj) k' w' hk' hw'

/-- **The kinds are checked from left to right**, and the first argument that is not of
its kind is refused. -/
theorem checkKinds_eq_error_iff {e : Error} :
    checkKinds op kinds args = .error e ↔
      ∃ i expected v, RejectsAt kinds args i expected v ∧ e = .wrongKind op expected v.kind := by
  constructor
  · intro h
    -- An argument is rejected here, or it is accepted and a later one is rejected.
    fun_induction checkKinds op kinds args with
    | case1 expected kinds v args hv ih =>
      obtain ⟨i, expected', w, hw, he⟩ := ih h
      exact ⟨i + 1, expected', w, hw.later hv, he⟩
    | case2 expected kinds v args hv =>
      cases h
      exact ⟨0, expected, v, ⟨rfl, rfl, eq_false_of_ne_true hv, fun _ hj => absurd hj (by omega)⟩,
        rfl⟩
    | case3 => cases h
  · rintro ⟨i, expected, v, h, rfl⟩
    -- Up to the position of the rejected argument the check passes over what it accepts.
    induction i generalizing kinds args with
    | zero =>
      cases kinds with
      | nil => cases h.kind
      | cons k kinds =>
        cases args with
        | nil => cases h.argument
        | cons w args =>
          obtain rfl : k = expected := Option.some.inj h.kind
          obtain rfl : w = v := Option.some.inj h.argument
          rw [checkKinds, if_neg (Bool.not_eq_true _ ▸ h.rejected)]
    | succ i ih =>
      cases kinds with
      | nil => cases h.kind
      | cons k kinds =>
        cases args with
        | nil => cases h.argument
        | cons w args =>
          rw [checkKinds, if_pos (h.first 0 (Nat.succ_pos i) k w rfl rfl)]
          refine ih ⟨h.kind, h.argument, h.rejected, fun j hj k' w' hk' hw' => ?_⟩
          exact h.first (j + 1) (Nat.succ_lt_succ hj) k' w' hk' hw'

variable {signature : Signature}

/-- A wrong number of arguments is refused with the numbers expected and given. -/
theorem check_of_count (h : signature.arity.accepts args.length = false) :
    signature.check op args =
      .error (.wrongNumberArgs op (signature.arity.expected args.length) args.length) := by
  unfold check Arity.validate
  rw [h]
  rfl

/-- With the right number of arguments their kinds are checked. -/
theorem check_of_accepts (h : signature.arity.accepts args.length = true) :
    signature.check op args = checkKinds op signature.kinds args := by
  unfold check Arity.validate
  rw [if_pos h]
  rfl

/-- A check passes if the number of arguments fits and none is refused. -/
theorem check_eq_ok (hcount : signature.arity.accepts args.length = true)
    (hkinds : ∀ i expected v, ¬ RejectsAt signature.kinds args i expected v) :
    signature.check op args = .ok () := by
  rw [check_of_accepts hcount]
  cases h : checkKinds op signature.kinds args with
  | ok _ => rfl
  | error e =>
    obtain ⟨i, expected, v, hv, -⟩ := checkKinds_eq_error_iff.1 h
    exact absurd hv (hkinds i expected v)

end Signature

/-! ### Running an implementation -/

namespace Operation

/-- Putting texts together fails as a check for a string at every position does. -/
theorem checkKinds_of_appendTexts {args : List Value} {e : Error}
    (h : appendTexts args = .error e) :
    Signature.checkKinds stringAppend.name (List.replicate args.length (.is .string)) args =
      .error e := by
  induction args with
  | nil => cases h
  | cons v args ih =>
    cases v with
    | string text => exact ih (eq_error_of_map h)
    | _ =>
      cases h
      rfl

/-- The errors that an implementation raises on arguments that its signature accepts. -/
inductive Raises : Operation → Error → Prop
  | failed {op : Operation} {failure : Failure} (h : failure.label = op.name) :
    Raises op (.failed failure)
  | dangling (op : Operation) (index : UInt64) :
    Raises op (.impossible (.danglingReference op.name index))
  | thrown (label : String) (payload : Value) : Raises throw (.thrown label payload)
  | text (actual : Kind) : Raises stringAppend (.wrongKind stringAppend.name (.is .string) actual)

namespace Raises

variable {op : Operation} {e : Error}

/-- An error is thrown by the program or names the operation that it comes from. -/
theorem label_eq (h : op.Raises e) : e.kind = .thrown ∨ e.label = some op.name := by
  cases h with
  | failed h => exact .inr (congrArg some h)
  | dangling | text => exact .inr rfl
  | thrown => exact .inl rfl

/-- No error refuses arguments, apart from that of `string-append`. -/
theorem not_isRefusal (h : op.Raises e) (hop : op ≠ stringAppend) : ¬ e.IsRefusal := by
  cases h with
  | text => exact absurd rfl hop
  | _ => rintro (h | h) <;> cases h

end Raises

/-- Tells that an outcome is a value or an error of the implementation. -/
def Accepted {α : Type} (op : Operation) (outcome : Except Error α) : Prop :=
  ∀ e, outcome = .error e → op.Raises e

namespace Accepted

variable {op : Operation} {α β : Type}

/-- A success is no refusal. -/
theorem ok (a : α) : op.Accepted (.ok a) := nofun

/-- An error that the operation may raise is no refusal. -/
theorem error {e : Error} (h : op.Raises e) : op.Accepted (.error e : Except Error α) := by
  rintro _ ⟨⟩
  exact h

/-- A failure under the operation's own label is no refusal. -/
theorem failed {failure : Failure} (h : failure.label = op.name) :
    op.Accepted (.error (.failed failure) : Except Error α) := error (.failed h)

/-- A change of results keeps an outcome accepted. -/
theorem map {outcome : Except Error α} (h : op.Accepted outcome) (f : α → β) :
    op.Accepted (outcome.map f) := by
  cases outcome with
  | ok a => exact ok (f a)
  | error e => exact error (h e rfl)

/-- `first` raises no refusal. -/
theorem firstOf (items : List Value) : first.Accepted (Operation.firstOf items) := by
  cases items with
  | nil => exact failed rfl
  | cons item rest => exact ok item

/-- `rest` raises no refusal. -/
theorem restOf (items : List Value) : rest.Accepted (Operation.restOf items) := by
  cases items with
  | nil => exact failed rfl
  | cons item items => exact ok items

/-- Arithmetic raises no refusal. -/
theorem arithmetic (operation : String) (n : Option Int64) :
    op.Accepted (op.arithmetic operation n) := by
  cases n with
  | none => exact failed rfl
  | some n => exact ok _

/-- An operation on a sequence raises no refusal if what it does there raises none. -/
theorem onSequence {v : Value} {s : Sequence} (hs : v.sequence? = some s)
    {f : Sequence → Except Error Value} (hf : op.Accepted (f s)) :
    op.Accepted (op.onSequence v f) := by
  rw [onSequence_eq hs]
  exact hf

/-- An operation at a position raises no refusal if what it does there raises none. -/
theorem position {n : Int64} {f : Nat → Except Error Value}
    (hf : ∀ count, op.Accepted (f count)) : op.Accepted (op.position n >>= f) := by
  unfold Operation.position
  split
  · exact failed rfl
  · exact hf _

/-- `string-append` raises no refusal. -/
theorem appendTexts (args : List Value) :
    stringAppend.Accepted (Operation.appendTexts args) := by
  intro e h
  obtain ⟨i, expected, v, hv, rfl⟩ :=
    Signature.checkKinds_eq_error_iff.1 (checkKinds_of_appendTexts h)
  obtain rfl : expected = .is .string := List.eq_of_mem_replicate (List.mem_of_getElem? hv.kind)
  exact .text v.kind

end Accepted

/-- **The demands of an implementation are met** by arguments that its signature accepts:
it raises no errors but its own. -/
theorem accepted_run {op : Operation} {args : List Value} (hfits : op.Fits args) (b : Bindings) :
    op.Accepted (op.run b args) := by
  -- All but the procedures of the store come to a result and leave the slots alone.
  have hpure : op.Accepted (op.result args) →
      op.run b args = (op.result args).map (fun v => (v, b.refs)) → op.Accepted (op.run b args) :=
    fun h hrun => hrun ▸ h.map _
  cases hfits with
  | throw label payload => exact hpure (.error (.thrown label payload)) rfl
  | first_list items | first_vector items => exact hpure (.firstOf items) rfl
  | rest_list items | rest_vector items => exact hpure ((Accepted.restOf items).map _) rfl
  | length hs =>
    refine hpure (.onSequence hs ?_) rfl
    split
    · exact .ok _
    · exact .failed rfl
  | take n hs | drop n hs | nth n hs =>
    refine hpure (.position fun count => .onSequence hs ?_) rfl
    split
    · exact .ok _
    · exact .failed rfl
  | lookup key entries =>
    refine hpure ?_ rfl
    rw [result_lookup]
    split
    · exact .ok _
    · exact .failed rfl
  | add m n | sub m n | mul m n => exact hpure (.arithmetic _ _) rfl
  | stringAppend => exact hpure ((Accepted.appendTexts args).map _) rfl
  | readRef index =>
    rw [run_readRef]
    cases Store.get? index b.refs with
    | some v => exact .ok _
    | none => exact .error (.dangling _ index)
  | writeRef index v =>
    rw [run_writeRef]
    cases Store.set? index v b.refs with
    | some written => exact .ok _
    | none => exact .error (.dangling _ index)
  | _ => exact .ok _

end Operation

/-! ### Calling -/

/-- Tells that a refusal comes from further inside a call of a primitive than its check:
from the texts of `string-append`, from the application that a call of `apply` goes
over into, or from the expression that `base-eval` evaluates. -/
inductive RaisedInside (table : Table) (eval : Evaluator) (b : Bindings) :
    Primitive → List Value → Error → Prop
  | text {args : List Value} {i : Nat} {v : Value}
    (h : Signature.RejectsAt (List.replicate args.length (.is .string)) args i (.is .string) v) :
    RaisedInside table eval b (.operation .stringAppend) args
      (.wrongKind Operation.stringAppend.name (.is .string) v.kind)
  | unresolved {func list : Value} {items : List Value} {e : Error}
    (hlist : list = .list items ∨ list = .vector items)
    (h : Call.resolve table items func = .error e) :
    RaisedInside table eval b .apply [func, list] e
  | applied {func list : Value} {items held : List Value} {call : Call} {e : Error}
    (hlist : list = .list items ∨ list = .vector items)
    (h : Call.resolve table items func = .ok call)
    (hrun : ((call.run eval ⟨table, held⟩).run b).1 = .error e) :
    RaisedInside table eval b .apply [func, list] e
  | evaluated {expr : Value} {s : State Value} {held : List Value} {e : Error}
    (h : ((eval ⟨table, held⟩ expr).run (.ofState s b.fresh)).1 = .error e) :
    RaisedInside table eval b .baseEval [expr, .state s] e

/-- What the signature of a primitive says of the end `r` of a call from the bindings
`b`.  The hypotheses of the first three exclude each other and leave nothing out. -/
structure ObeysSignature (table : Table) (eval : Evaluator) (b : Bindings) (p : Primitive)
    (args : List Value) (r : Except Error Value × Bindings) : Prop where
  count : p.signature.arity.accepts args.length = false →
    r = (.error (.wrongNumberArgs p.name (p.signature.arity.expected args.length) args.length), b)
  kind : p.signature.arity.accepts args.length = true →
    ∀ i expected v, Signature.RejectsAt p.signature.kinds args i expected v →
      r = (.error (.wrongKind p.name expected v.kind), b)
  accepted : p.signature.arity.accepts args.length = true →
    (∀ i expected v, ¬ Signature.RejectsAt p.signature.kinds args i expected v) →
      ∀ e, r.1 = .error e → e.IsRefusal → RaisedInside table eval b p args e
  clean : p ≠ .apply → ∀ e, r.1 = .error e → r.2.env = b.env ∧ r.2.refs = b.refs

section

variable {table : Table} {eval : Evaluator} {ctx : Context} {held args : List Value}
  {b : Bindings}

/-- A primitive that refuses its arguments does nothing else. -/
theorem Primitive.run_call_of_refused {p : Primitive} {e : Error}
    (hcheck : p.check args = .error e) : (p.call eval ctx args).run b = (.error e, b) := by
  simp only [call, Call.ofPrimitive, hcheck]
  rfl

/-- An operation that accepts its arguments refuses none, and changes nothing if it fails. -/
theorem run_operation_of_error {op : Operation}
    (hcheck : (Primitive.operation op).check args = .ok ()) {e : Error} {b' : Bindings}
    (h : ((Primitive.operation op).call eval ctx args).run b = (.error e, b')) :
    b' = b ∧ (e.IsRefusal → RaisedInside ctx.table eval b (.operation op) args e) := by
  simp only [Primitive.call, Call.ofPrimitive, hcheck, Call.run_operation, Action.run] at h
  cases hrun : op.run b args with
  | ok r =>
    rw [hrun] at h
    cases h
  | error e' =>
    rw [hrun] at h
    cases h
    refine ⟨rfl, fun he => ?_⟩
    by_cases hop : op = .stringAppend
    · subst hop
      have htexts : Operation.appendTexts args = .error e :=
        eq_error_of_map (eq_error_of_map hrun)
      obtain ⟨i, expected, v, hv, rfl⟩ :=
        Signature.checkKinds_eq_error_iff.1 (Operation.checkKinds_of_appendTexts htexts)
      obtain rfl : expected = .is .string := List.eq_of_mem_replicate (List.mem_of_getElem? hv.kind)
      exact .text hv
    · have hraises := Operation.accepted_run (Operation.fits_of_check hcheck) b e hrun
      exact absurd he (hraises.not_isRefusal hop)

/-- A call of `apply` raises what the application of its function to its list does. -/
theorem raisedInside_apply {func list : Value} {items : List Value}
    (hlist : list = .list items ∨ list = .vector items)
    (hcheck : Primitive.apply.check [func, list] = .ok ()) {e : Error}
    (h : ((Primitive.apply.call eval ctx [func, list]).run b).1 = .error e) :
    RaisedInside ctx.table eval b .apply [func, list] e := by
  have hitems : Call.resolveOn ctx.table list func = Call.resolve ctx.table items func := by
    rcases hlist with rfl | rfl <;> rfl
  simp only [Primitive.call, Call.ofPrimitive, hcheck, hitems] at h
  cases hcall : Call.resolve ctx.table items func with
  | error e' =>
    rw [hcall] at h
    cases h
    exact .unresolved hlist hcall
  | ok call =>
    rw [hcall] at h
    exact .applied hlist hcall h

/-- A call of `base-eval` leaves its caller alone, and raises what its expression does. -/
theorem run_baseEval_of_error {expr : Value} {s : State Value} :
    let r := (Primitive.baseEval.call eval ctx [expr, .state s]).run b
    (r.2.env = b.env ∧ r.2.refs = b.refs) ∧
      ∀ e, r.1 = .error e → RaisedInside ctx.table eval b .baseEval [expr, .state s] e := by
  intro r
  have hr : r = (Call.run eval ctx (.nested expr s)).run b := rfl
  rw [hr, Call.run_nested]
  exact ⟨⟨rfl, rfl⟩, fun e he => .evaluated (eq_error_of_map he)⟩

/-- **The check and the call of a primitive obey its signature**, whether or not a table
lists the primitive. -/
theorem Primitive.obeysSignature_call {p : Primitive} (hp : p ∈ Primitive.catalog)
    (eval : Evaluator) (ctx : Context) (args : List Value) (b : Bindings) :
    ObeysSignature ctx.table eval b p args ((p.call eval ctx args).run b) := by
  have hrefused : ∀ e, p.check args = .error e → (p.call eval ctx args).run b = (.error e, b) :=
    fun e hcheck => run_call_of_refused hcheck
  have hkinds : p.signature.arity.accepts args.length = true → ∀ i expected v,
      Signature.RejectsAt p.signature.kinds args i expected v →
        p.check args = .error (.wrongKind p.name expected v.kind) := fun hcount i expected v hv =>
    (Signature.check_of_accepts hcount).trans
      (Signature.checkKinds_eq_error_iff.2 ⟨i, expected, v, hv, rfl⟩)
  refine ⟨fun hcount => hrefused _ (Signature.check_of_count hcount),
    fun hcount i expected v hv => hrefused _ (hkinds hcount i expected v hv), ?_, ?_⟩
  · intro hcount hnone e he hrefusal
    have hcheck : p.check args = .ok () := Signature.check_eq_ok hcount hnone
    cases Primitive.fits_of_check hcheck with
    | baseEval expr s => exact run_baseEval_of_error.2 e he
    | apply_list func items => exact raisedInside_apply (.inl rfl) hcheck he
    | apply_vector func items => exact raisedInside_apply (.inr rfl) hcheck he
    | operation hfits => exact (run_operation_of_error hcheck (Prod.ext he rfl)).2 hrefusal
    | host => simp [Primitive.catalog] at hp
  · intro hp' e he
    cases hcheck : p.check args with
    | error e' =>
      rw [hrefused e' hcheck]
      exact ⟨rfl, rfl⟩
    | ok _ =>
      cases Primitive.fits_of_check hcheck with
      | baseEval expr s => exact run_baseEval_of_error.1
      | apply_list func items | apply_vector func items => exact absurd rfl hp'
      | operation hfits =>
        obtain ⟨hsame, -⟩ := run_operation_of_error hcheck (Prod.ext he rfl)
        exact ⟨congrArg Bindings.env hsame, congrArg Bindings.refs hsame⟩
      | host => simp [Primitive.catalog] at hp

/-- Applying the name of a primitive calls its entry in the table. -/
theorem exists_applyFunction_eq_call {name : String} {p : Primitive}
    (hfind : table.find? name = some p) (eval : Evaluator) (held args : List Value) :
    ∃ held', applyFunction eval ⟨table, held⟩ (.primFn name) args =
      p.call eval ⟨table, held'⟩ args := by
  obtain ⟨held', hrun⟩ := exists_run_applyFunction table eval held args (.primFn name)
  refine ⟨held', ?_⟩
  rw [hrun, Call.resolve_primFn hfind]
  rfl

/-- **The declared signatures are exact, and failures are clean.**  For every primitive of
the shipped catalog, under any table that grants it, at any depth, in any bindings and on
any arguments: the call refuses the number of arguments if the arity declared does not
accept it, and else the first argument that is not of the kind declared for it.  If
neither is the case, the implementation refuses nothing of its own accord, but for an
argument of `string-append` that is no string.  No primitive other than `apply` changes
the environment or the store of its caller when it fails. -/
theorem call_obeys_signature {p : Primitive} (hp : p ∈ Primitive.catalog)
    (hgrant : table.Grants p) (room : Nat) (held args : List Value) (b : Bindings) :
    ObeysSignature table (Eval.eval room) b p args
      ((applyFunction (Eval.eval room) ⟨table, held⟩ (.primFn p.name) args).run b) := by
  obtain ⟨held', hrun⟩ := exists_applyFunction_eq_call hgrant (Eval.eval room) held args
  rw [hrun]
  exact Primitive.obeysSignature_call hp (Eval.eval room) ⟨table, held'⟩ args b

end

/-- A call of `base-eval` that hands on the refusal of a call inside it. -/
theorem call_obeys_signature_nested :
    let expr : Value := .list [.atom "do", .list [.atom "def", .atom "x", .number 1],
      .list [.atom "not", .atom "x"]]
    let args : List Value := [expr, .state State.empty]
    let r := (applyFunction (Eval.eval 8) ⟨Table.shipped, []⟩ (.primFn "base-eval") args).run .empty
    .baseEval ∈ Primitive.catalog ∧ Table.shipped.Grants .baseEval ∧
    r.1 = .error (.wrongKind "not" (.is .boolean) .number) ∧
    ObeysSignature Table.shipped (Eval.eval 8) .empty .baseEval args r := by
  intro expr args r
  have hmem : Primitive.baseEval ∈ Primitive.catalog := List.mem_cons_self ..
  have hgrant : Table.shipped.Grants .baseEval := by rfl
  have hend : r.1 = .error (.wrongKind "not" (.is .boolean) .number) := by rfl
  exact ⟨hmem, hgrant, hend, call_obeys_signature hmem hgrant 8 [] args .empty⟩

end CapLisp
