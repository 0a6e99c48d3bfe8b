/-
# How an application resolves

`Call.resolve` recurses on the arguments through a second function and a table
look-up.  `Resolves` lists its outcomes, one constructor for each, so that a
proof about calls is an induction with named cases.  `apply` is the one
primitive that resolves further.
-/

import CapLisp.Eval.Call
import CapLisp.Proofs.Arguments

namespace CapLisp

namespace Table

/-- A primitive that is found is in the table. -/
theorem mem_of_find? {table : Table} {name : String} {p : Primitive}
    (h : table.find? name = some p) : p ∈ table :=
  List.mem_of_find?_eq_some h

/-- A name that is not found is not in the table. -/
theorem not_contains_of_find? {table : Table} {name : String} (h : table.find? name = none) :
    ¬ table.contains name = true := by
  rw [contains, h]
  exact Bool.false_ne_true

/-- The shipped catalog has no procedure of a host. -/
theorem host_not_mem_of_subset {table : Table} (htable : table ⊆ shipped) {name : String}
    {signature : Signature} {steps : List Value → Procedure} :
    Primitive.host name signature steps ∉ table := by
  intro hmem
  have hcatalog := htable hmem
  simp [shipped, Primitive.catalog] at hcatalog

end Table

/-- What a call holds besides its caller does not depend on the caller. -/
theorem Context.exists_forCall_eq_append (table : Table) (func : Value) (args : List Value) :
    ∃ kept, ∀ held, (Context.mk table held).forCall func args = ⟨table, kept ++ held⟩ := by
  cases func with
  | primFn name =>
    cases hfind : table.find? name with
    | none =>
      refine ⟨[.primFn name], fun held => ?_⟩
      simp only [forCall, hfind]
      rfl
    | some p =>
      cases p with
      | apply =>
        refine ⟨.primFn name :: args, fun held => ?_⟩
        simp only [forCall, hfind]
        rfl
      | _ =>
        refine ⟨[.primFn name], fun held => ?_⟩
        simp only [forCall, hfind]
        rfl
  | _ => exact ⟨[_], fun _ => rfl⟩

/-- A call holds more than its caller and runs under the same table. -/
theorem Context.exists_forCall_eq (table : Table) (held : List Value) (func : Value)
    (args : List Value) : ∃ held', (Context.mk table held).forCall func args = ⟨table, held'⟩ := by
  obtain ⟨kept, hkept⟩ := exists_forCall_eq_append table func args
  exact ⟨kept ++ held, hkept held⟩

/-- Tells whether a value is a function. -/
def Value.isFunction : Value → Bool
  | .lambda _ => true
  | .lambdaRec _ _ => true
  | .primFn _ => true
  | _ => false

namespace Call

/-- The outcomes of applying a function to arguments under a table. -/
inductive Resolves (table : Table) : Value → List Value → Except Error Call → Prop
  | lambda (fn : Closure Value) (args : List Value) :
    Resolves table (.lambda fn) args (enter fn.scope fn args)
  | lambdaRec (name : String) (fn : Closure Value) (args : List Value) :
    Resolves table (.lambdaRec name fn) args
      (enter ((name, .lambdaRec name fn) :: fn.scope) fn args)
  | unknown {name : String} (args : List Value) (hfind : table.find? name = none) :
    Resolves table (.primFn name) args (.error (.impossible (.unknownPrimitive name)))
  | refused {name : String} {p : Primitive} {args : List Value} {e : Error}
    (hfind : table.find? name = some p) (hcheck : p.check args = .error e) :
    Resolves table (.primFn name) args (.error e)
  | nested {name : String} (hfind : table.find? name = some .baseEval) (expr : Value)
    (s : State Value) : Resolves table (.primFn name) [expr, .state s] (.ok (.nested expr s))
  | operation {name : String} {op : Operation} {args : List Value}
    (hfind : table.find? name = some (.operation op))
    (hcheck : (Primitive.operation op).check args = .ok ()) (hfits : op.Fits args) :
    Resolves table (.primFn name) args (.ok (.operation op args))
  | procedure {name host : String} {signature : Signature} {steps : List Value → Procedure}
    {args : List Value} (hfind : table.find? name = some (.host host signature steps))
    (hcheck : (Primitive.host host signature steps).check args = .ok ()) :
    Resolves table (.primFn name) args (.ok (.procedure (steps args) args))
  | apply_list {name : String} {func : Value} {args : List Value} {outcome : Except Error Call}
    (hfind : table.find? name = some .apply) (h : Resolves table func args outcome) :
    Resolves table (.primFn name) [func, .list args] outcome
  | apply_vector {name : String} {func : Value} {args : List Value} {outcome : Except Error Call}
    (hfind : table.find? name = some .apply) (h : Resolves table func args outcome) :
    Resolves table (.primFn name) [func, .vector args] outcome
  | notAFunction {func : Value} (args : List Value) (h : func.isFunction = false) :
    Resolves table func args (.error (.notAFunction func))

/-- The name of a primitive resolves as its entry in the table says. -/
theorem resolve_primFn {table : Table} {name : String} {p : Primitive}
    (hfind : table.find? name = some p) (args : List Value) :
    resolve table args (.primFn name) = ofPrimitive table p args := by
  rw [resolve, hfind]
  rfl

/-- **Every application resolves in one of these ways.** -/
theorem resolves (table : Table) (args : List Value) (func : Value) :
    Resolves table func args (resolve table args func) := by
  -- The arguments of `apply` hold the next argument list, which is smaller.
  induction hsize : Value.sizeAll args using Nat.strongRecOn
    generalizing args func with
  | _ size ih =>
  subst hsize
  cases func with
  | lambda fn => cases args <;> exact .lambda fn _
  | lambdaRec name fn => cases args <;> exact .lambdaRec name fn _
  | primFn name =>
    rw [resolve]
    cases hfind : table.find? name with
    | none => exact .unknown args hfind
    | some p =>
      cases hcheck : p.check args with
      | error e =>
        simp only [hcheck]
        exact .refused hfind hcheck
      | ok _ =>
        cases Primitive.fits_of_check hcheck with
        | baseEval expr s => exact .nested hfind expr s
        | apply_list func args =>
          have hlt : Value.sizeAll args < Value.sizeAll [func, .list args] := by
            simp only [Value.sizeAll, Value.size]
            omega
          exact .apply_list hfind (ih _ hlt args func rfl)
        | apply_vector func args =>
          have hlt : Value.sizeAll args < Value.sizeAll [func, .vector args] := by
            simp only [Value.sizeAll, Value.size]
            omega
          exact .apply_vector hfind (ih _ hlt args func rfl)
        | operation h =>
          simp only [hcheck]
          exact .operation hfind hcheck h
        | host _ _ _ args =>
          simp only [hcheck]
          exact .procedure hfind hcheck
  | _ => cases args <;> exact .notAFunction _ rfl

/-- An application resolves in one way only. -/
theorem Resolves.resolve_eq {table : Table} {func : Value} {args : List Value}
    {outcome : Except Error Call} (h : Resolves table func args outcome) :
    resolve table args func = outcome := by
  induction h with
  | lambda fn args => cases args <;> rfl
  | lambdaRec name fn args => cases args <;> rfl
  | unknown args hfind => rw [resolve, hfind]
  | refused hfind hcheck =>
    rw [resolve, hfind]
    simp only [hcheck]
  | nested hfind expr s =>
    rw [resolve, hfind]
    rfl
  | operation hfind hcheck _ =>
    rw [resolve, hfind]
    simp only [hcheck]
  | procedure hfind hcheck =>
    rw [resolve, hfind]
    simp only [hcheck]
  | apply_list hfind _ ih =>
    rw [resolve, hfind]
    exact ih
  | apply_vector hfind _ ih =>
    rw [resolve, hfind]
    exact ih
  | @notAFunction func args h =>
    cases func with
    | lambda | lambdaRec | primFn => cases h
    | _ => cases args <;> rfl

/-- **A nested evaluation is a run of its own** from the state of its argument.
Its caller gets the value and the state it ends in, or the error, and keeps
the environment and the store. -/
theorem run_nested (eval : Evaluator) (ctx : Context) (expr : Value) (s : State Value)
    (b : Bindings) :
    (Call.run eval ctx (.nested expr s)).run b =
      let r := (eval (ctx.holdAll [expr, .state b.intoState]) expr).run (.ofState s b.fresh)
      (r.1.map fun v => .vector [v, .state r.2.intoState], { b with fresh := r.2.fresh }) := by
  simp only [run, runWith, Action.run_bind]
  simp only [Action.run, Action.get, Action.onState]
  rcases eval (ctx.holdAll [expr, .state b.intoState]) expr (.ofState s b.fresh) with
    ⟨_ | value, b'⟩ <;> rfl

end Call
end CapLisp
