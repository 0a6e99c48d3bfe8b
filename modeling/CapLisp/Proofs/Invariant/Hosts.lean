/-
# Procedures that hand on what they are given

A host's procedure may end with any value, define any value and evaluate any
expression.  So what a limit asks of it has to be said.  For a limit on certain
values only, such as closures or an atom, it is enough that the procedure makes
none of these itself: each one that it uses is inside its arguments, inside a
value that it looked up or inside an outcome of an earlier step (`HandsOn`).

A host that builds a closure gives it an identity of its own.  Procedures here
cannot draw serial numbers, so a procedure that hands closures on is what stands
for a host that uses the closures it is given.

The limit that allows everything (`free`) asks nothing of a procedure.
-/

import CapLisp.Proofs.Invariant.Evaluator

namespace CapLisp

/-- The values in an outcome: the value, or those that the error carries. -/
def outcomeValues : Except Error Value → List Value
  | .ok v => [v]
  | .error e => e.values

/-- Tells that the marked values inside a value are inside one of those given. -/
def Value.TakenFrom (mark : Value → Prop) (given : List Value) (v : Value) : Prop :=
  ∀ w, Inside w v → mark w → ∃ g ∈ given, Inside w g

/-- A procedure that makes no marked values: those that it uses are inside the
values given to it, at the start and by its steps. -/
inductive Procedure.HandsOn (mark : Value → Prop) : List Value → Procedure → Prop
  | done {given : List Value} {outcome : Except Error Value}
    (h : ∀ v ∈ outcomeValues outcome, v.TakenFrom mark given) : HandsOn mark given (.done outcome)
  | lookup {given : List Value} {name : String} {next : Option Value → Procedure}
    (h : ∀ found, HandsOn mark (found.toList ++ given) (next found)) :
    HandsOn mark given (.lookup name next)
  | define {given : List Value} {name : String} {v : Value} {next : Procedure}
    (hv : v.TakenFrom mark given) (h : HandsOn mark given next) :
    HandsOn mark given (.define name v next)
  | eval {given : List Value} {expr : Value} {kept : List Value}
    {next : Except Error Value → Procedure} (hexpr : expr.TakenFrom mark given)
    (h : ∀ outcome, HandsOn mark (outcomeValues outcome ++ given) (next outcome)) :
    HandsOn mark given (.eval expr kept next)
  | apply {given : List Value} {frames : Nat} {func : Value} {args kept : List Value}
    {next : Except Error Value → Procedure} (hfunc : func.TakenFrom mark given)
    (hargs : ∀ v ∈ args, v.TakenFrom mark given)
    (h : ∀ outcome, HandsOn mark (outcomeValues outcome ++ given) (next outcome)) :
    HandsOn mark given (.apply frames func args kept next)

/-- A table whose procedures of the host make no marked values. -/
def Table.HandsOn (mark : Value → Prop) (table : Table) : Prop :=
  ∀ name signature steps, Primitive.host name signature steps ∈ table →
    ∀ args, (steps args).HandsOn mark args

/-- A part of the shipped catalog has no host procedures, so they hand on what they are given. -/
theorem Table.handsOn_of_subset {table : Table} (htable : table ⊆ Table.shipped)
    (mark : Value → Prop) : table.HandsOn mark :=
  fun _ _ _ hmem => absurd hmem (Table.host_not_mem_of_subset htable)

namespace Invariant

variable {table : Table} {I : Invariant table} {n : Stage} {mark : Value → Prop}

/-- A limit on marked values only, that allows every broken invariant. -/
structure LimitsOnly (I : Invariant table) (mark : Value → Prop) : Prop where
  value : ∀ {n v}, ¬ mark v → I.value n v
  breach : ∀ breach, I.breach breach

/-- An error with good values is good if every breach is allowed. -/
theorem GoodError.of_values (hbreach : ∀ breach, I.breach breach) {e : Error}
    (h : ∀ v ∈ e.values, I.Good n v) : I.GoodError n e := by
  cases e with
  | notAFunction v => exact h v (List.mem_singleton_self v)
  | invalidDeclaration fault v => exact h v (List.mem_singleton_self v)
  | thrown label payload => exact h payload (List.mem_singleton_self payload)
  | failed failure =>
    cases failure with
    | missingKey key => exact h key (List.mem_singleton_self key)
    | _ => trivial
  | impossible breach => exact hbreach breach
  | _ => trivial

/-- The values of a good outcome are good. -/
theorem GoodOutcome.values {outcome : Except Error Value} (h : I.GoodOutcome I.Good n outcome) :
    ∀ v ∈ outcomeValues outcome, I.Good n v := by
  cases outcome with
  | ok v => exact List.forall_mem_singleton.2 h
  | error e => exact GoodError.values h

/-- An outcome with good values is good if every breach is allowed. -/
theorem GoodOutcome.of_values (hbreach : ∀ breach, I.breach breach)
    {outcome : Except Error Value} (h : ∀ v ∈ outcomeValues outcome, I.Good n v) :
    I.GoodOutcome I.Good n outcome := by
  cases outcome with
  | ok v => exact h v (List.mem_singleton_self v)
  | error e => exact GoodError.of_values hbreach h

namespace LimitsOnly

/-- What is taken from good values is good if only marked values are limited. -/
theorem good_of_takenFrom (h : I.LimitsOnly mark) {given : List Value}
    (hgiven : ∀ v ∈ given, I.Good n v) {v : Value} (hv : v.TakenFrom mark given) :
    I.Good n v := by
  refine Value.everywhere_iff_inside.2 fun w hw => ?_
  by_cases hmark : mark w
  · obtain ⟨g, hg, hwg⟩ := hv w hw hmark
    exact Value.everywhere_iff_inside.1 (hgiven g hg) w hwg
  · exact h.value hmark

/-- A procedure that hands marked values on is good where those given to it are. -/
theorem goodProcedure (h : I.LimitsOnly mark) {given : List Value} {p : Procedure}
    (hp : p.HandsOn mark given) (hgiven : ∀ v ∈ given, I.Good n v) : I.GoodProcedure n p := by
  have hmore : ∀ {m k : Stage} {vs ws : List Value}, m ≤ k → (∀ v ∈ vs, I.Good k v) →
      (∀ v ∈ ws, I.Good m v) → ∀ v ∈ vs ++ ws, I.Good k v := fun hmk hvs hws v hv =>
    (List.mem_append.1 hv).elim (hvs v) fun hw => (hws v hw).mono hmk
  induction hp generalizing n with
  | done hv =>
    exact .done (.of_values h.breach fun v hmem => h.good_of_takenFrom hgiven (hv v hmem))
  | lookup _ ih =>
    refine .lookup fun m found hnm hfound => ih found (hmore hnm ?_ hgiven)
    exact fun v hv => hfound v (Option.mem_toList.1 hv)
  | define hv _ ih => exact .define (h.good_of_takenFrom hgiven hv) (ih hgiven)
  | eval hexpr _ ih =>
    refine .eval (h.good_of_takenFrom hgiven hexpr) fun m outcome hnm ho => ?_
    exact ih outcome (hmore hnm ho.values hgiven)
  | apply hfunc hargs _ ih =>
    refine .apply (h.good_of_takenFrom hgiven hfunc)
      (fun v hv => h.good_of_takenFrom hgiven (hargs v hv)) fun m outcome hnm ho => ?_
    exact ih outcome (hmore hnm ho.values hgiven)

/-- **Procedures that hand marked values on are good** for a limit on these only. -/
theorem goodHosts (h : I.LimitsOnly mark) (htable : table.HandsOn mark) : I.GoodHosts :=
  fun name signature steps hmem _ args hargs =>
    h.goodProcedure (htable name signature steps hmem args) hargs

end LimitsOnly

/-! ### No limit -/

/-- The limit that allows everything. -/
def free (table : Table) : Invariant table where
  value _ _ := True
  env _ := True
  breach _ := True
  mono _ h := h
  detached _ _ _ _ _ h := h
  data _ := trivial
  lambda _ _ _ := trivial
  lambdaRec h := h
  quote := trivial
  primFn _ := trivial
  ref _ := trivial
  dict_nil := trivial
  dict_insert h := h
  env_value _ := trivial
  state_env _ := trivial
  frozen := trivial
  continued _ h := h
  persistent := trivial
  define h := h
  thaw _ := trivial
  unknownPrimitive _ _ := trivial
  danglingReference _ _ := trivial

/-- Nothing is asked of a value. -/
theorem good_free (n : Stage) (v : Value) : (free table).Good n v :=
  Value.everywhere_iff_inside.2 fun _ _ => trivial

/-- Nothing is asked of bindings. -/
theorem sound_free (b : Bindings) : (free table).Sound b :=
  ⟨⟨trivial, fun v _ => good_free _ v⟩, fun v _ => good_free _ v, Nat.zero_le _⟩

/-- Every procedure is within the limit that allows everything. -/
theorem goodHosts_free : (free table).GoodHosts := by
  have hprocedure : ∀ (p : Procedure) (n : Stage), (free table).GoodProcedure n p := by
    intro p
    induction p with
    | done outcome =>
      intro n
      refine .done (.of_values (fun _ => trivial) fun v _ => good_free n v)
    | lookup name next ih => exact fun n => .lookup fun m found _ _ => ih found m
    | define name v next ih => exact fun n => .define (good_free n v) (ih n)
    | eval expr kept next ih => exact fun n => .eval (good_free n expr) fun m o _ _ => ih o m
    | apply frames func args kept next ih =>
      exact fun n => .apply (good_free n func) (fun v _ => good_free n v) fun m o _ _ => ih o m
  exact fun _ _ steps _ n args _ => hprocedure (steps args) n

end Invariant
end CapLisp
