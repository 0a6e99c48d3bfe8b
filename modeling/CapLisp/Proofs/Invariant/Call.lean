/-
# Calls stay within the limit

Resolving a call finds its parts in the function and in the arguments, so they
are good (`goodCall_resolve`).  Running it evaluates expressions, and an
evaluator that stays within the limit makes every call stay within it
(`keeps_call`, `keeps_applyFunction`).

A nested evaluation starts from the state of its argument and with a store of
its own.  It is the one place where the number of slots may shrink, so this is
where the limit must not depend on it.

A procedure of the host is judged by its steps: it may bring in good values
only, whatever good values and errors its steps end with (`GoodProcedure`).
-/

import CapLisp.Proofs.Applications
import CapLisp.Proofs.Invariant.Operation

namespace CapLisp

namespace Invariant

variable {table : Table} (I : Invariant table)

/-- Two lists of held values that no `def-rec` within the limit tells apart. -/
def HeldAlike (held held' : List Value) : Prop :=
  ∀ n fn, I.value n (.atom SpecialForm.defineRec.name) → I.Good n (.lambda fn) →
    held.any (Value.holds fn.serial) = held'.any (Value.holds fn.serial)

/-- An evaluator that stays within the limit on every good expression. -/
def KeepsEval (eval : Evaluator) : Prop :=
  ∀ (n : Stage) (held : List Value) (expr : Value), I.Good n expr →
    I.Keeps n I.Good (eval ⟨table, held⟩ expr)

/-- An evaluator that stays within the limit on every good expression, and that
does not go by which of two alike lists of values are held. -/
def CoincideEval (eval : Evaluator) : Prop :=
  ∀ (n : Stage) (held held' : List Value) (expr : Value), I.HeldAlike held held' →
    I.Good n expr → I.Coincide n I.Good (eval ⟨table, held⟩ expr) (eval ⟨table, held'⟩ expr)

/-- A procedure that brings in good values only, given good values and errors
from its steps. -/
inductive GoodProcedure : Stage → Procedure → Prop
  | done {n : Stage} {outcome : Except Error Value} (h : I.GoodOutcome I.Good n outcome) :
    GoodProcedure n (.done outcome)
  | lookup {n : Stage} {name : String} {next : Option Value → Procedure}
    (h : ∀ m found, n ≤ m → (∀ v, found = some v → I.Good m v) → GoodProcedure m (next found)) :
    GoodProcedure n (.lookup name next)
  | define {n : Stage} {name : String} {v : Value} {next : Procedure} (hv : I.Good n v)
    (h : GoodProcedure n next) : GoodProcedure n (.define name v next)
  | eval {n : Stage} {expr : Value} {kept : List Value} {next : Except Error Value → Procedure}
    (hexpr : I.Good n expr)
    (h : ∀ m outcome, n ≤ m → I.GoodOutcome I.Good m outcome → GoodProcedure m (next outcome)) :
    GoodProcedure n (.eval expr kept next)
  | apply {n : Stage} {frames : Nat} {func : Value} {args kept : List Value}
    {next : Except Error Value → Procedure}
    (hfunc : I.Good n func) (hargs : ∀ v ∈ args, I.Good n v)
    (h : ∀ m outcome, n ≤ m → I.GoodOutcome I.Good m outcome → GoodProcedure m (next outcome)) :
    GoodProcedure n (.apply frames func args kept next)

/-- Every primitive of the host in the table is a good procedure on good arguments. -/
def GoodHosts : Prop :=
  ∀ name signature steps, Primitive.host name signature steps ∈ table →
    ∀ n args, (∀ v ∈ args, I.Good n v) → I.GoodProcedure n (steps args)

/-- A way of applying functions that stays within the limit on good functions and
arguments, and does not go by which of two alike lists of values are held. -/
def CoincideApplier (applier : Applier) : Prop :=
  ∀ (n : Stage) (held held' : List Value) (func : Value) (args : List Value),
    I.HeldAlike held held' → I.Good n func → (∀ v ∈ args, I.Good n v) →
    I.Coincide n I.Good (applier ⟨table, held⟩ func args) (applier ⟨table, held'⟩ func args)

/-- A way of running procedures that stays within the limit on good ones, and does
not go by which of two alike lists of values are held. -/
def CoincideRunner (host : Runner) : Prop :=
  ∀ (n : Stage) (held held' : List Value) (p : Procedure), I.HeldAlike held held' →
    I.GoodProcedure n p → I.Coincide n I.Good (host ⟨table, held⟩ p) (host ⟨table, held'⟩ p)

/-- A resolved call whose parts are within the limit. -/
inductive GoodCall (n : Stage) : Call → Prop
  | body {scope : Chain Value} {bodies : List Value}
    (hscope : ∀ v ∈ scope.map Prod.snd, I.Good n v) (hbodies : ∀ v ∈ bodies, I.Good n v) :
    GoodCall n (.body scope bodies)
  | nested {expr : Value} {s : State Value} (hgrant : Primitive.baseEval ∈ table)
    (hexpr : I.Good n expr) (hs : I.Good n (.state s)) : GoodCall n (.nested expr s)
  | operation {op : Operation} {args : List Value} (hfits : op.Fits args)
    (hargs : ∀ v ∈ args, I.Good n v) : GoodCall n (.operation op args)
  | procedure {p : Procedure} {args : List Value} (hp : I.GoodProcedure n p) :
    GoodCall n (.procedure p args)

variable {I} {n : Stage} {eval : Evaluator} {host : Runner} {held held' : List Value}

/-- The same held values are held alike. -/
theorem HeldAlike.refl (held : List Value) : I.HeldAlike held held := fun _ _ _ _ => rfl

/-- What is held besides changes nothing. -/
theorem HeldAlike.append (h : I.HeldAlike held held') (kept : List Value) :
    I.HeldAlike (kept ++ held) (kept ++ held') := by
  intro n fn hname hfn
  rw [List.any_append, List.any_append, h n fn hname hfn]

/-- An evaluator that coincides whatever is held keeps the invariant. -/
theorem CoincideEval.keepsEval (h : I.CoincideEval eval) : I.KeepsEval eval :=
  fun n held expr hexpr => (h n held held expr (.refl held) hexpr).keeps

/-! ### Resolving -/

/-- The scope of a call has the arguments and what the closure captured. -/
theorem mem_scope_extend {scope : Chain Value} {names : List String} {args : List Value}
    {v : Value} (h : v ∈ (Chain.extend scope (names.zip args)).map Prod.snd) :
    v ∈ args ∨ v ∈ scope.map Prod.snd := by
  rw [Chain.extend, List.map_append, List.mem_append, List.map_reverse, List.mem_reverse] at h
  refine h.imp_left fun hmem => ?_
  obtain ⟨frame, hframe, rfl⟩ := List.mem_map.1 hmem
  exact (List.of_mem_zip hframe).2

/-- Entering a good closure on good arguments gives a good call. -/
theorem goodOutcome_enter {scope : Chain Value} {fn : Closure Value} {args : List Value}
    (hscope : ∀ v ∈ scope.map Prod.snd, I.Good n v) (hbodies : ∀ v ∈ fn.bodies, I.Good n v)
    (hargs : ∀ v ∈ args, I.Good n v) :
    I.GoodOutcome I.GoodCall n (Call.enter scope fn args) := by
  unfold Call.enter
  split
  · exact .body (fun v hv => (mem_scope_extend hv).elim (hargs v) (hscope v)) hbodies
  · trivial

/-- A refusal of the arguments is a good error. -/
theorem goodError_check {p : Primitive} {args : List Value} {e : Error}
    (h : p.check args = .error e) : I.GoodError n e := by
  rcases Signature.check_eq_error h with ⟨_, _, rfl⟩ | ⟨_, _, rfl⟩ <;> trivial

/-- **A call that a good function and good arguments resolve to is good.** -/
theorem goodCall_resolve (hhosts : I.GoodHosts) {func : Value} {args : List Value}
    (hfunc : I.Good n func) (hargs : ∀ v ∈ args, I.Good n v) :
    I.GoodOutcome I.GoodCall n (Call.resolve table args func) := by
  have hresolves := Call.resolves table args func
  generalize Call.resolve table args func = outcome at hresolves ⊢
  induction hresolves with
  | lambda fn args =>
    obtain ⟨_, hbodies, hscope⟩ := Value.everywhere_lambda.1 hfunc
    exact goodOutcome_enter hscope hbodies hargs
  | lambdaRec name fn args =>
    obtain ⟨_, hbodies, hscope⟩ := Value.everywhere_lambdaRec.1 hfunc
    exact goodOutcome_enter (List.forall_mem_cons.2 ⟨hfunc, hscope⟩) hbodies hargs
  | unknown args hfind => exact I.unknownPrimitive hfind hfunc.here
  | refused hfind hcheck => exact goodError_check hcheck
  | nested hfind expr s =>
    exact .nested (Table.mem_of_find? hfind) (hargs expr (by simp)) (hargs (.state s) (by simp))
  | operation hfind _ hfits => exact .operation hfits hargs
  | procedure hfind _ => exact .procedure (hhosts _ _ _ (Table.mem_of_find? hfind) n _ hargs)
  | @apply_list name func args outcome hfind _ ih =>
    exact ih (hargs func (by simp)) (hargs (.list args) (by simp)).items_list
  | @apply_vector name func args outcome hfind _ ih =>
    exact ih (hargs func (by simp)) (hargs (.vector args) (by simp)).items_vector
  | notAFunction args _ => exact hfunc

/-! ### Running -/

/-- Expressions evaluated in turn give good values. -/
theorem coincide_evalAll (heval : I.CoincideEval eval) (hheld : I.HeldAlike held held')
    {exprs : List Value} (h : ∀ v ∈ exprs, I.Good n v) :
    I.Coincide n (fun m values => ∀ v ∈ values, I.Good m v) (evalAll eval ⟨table, held⟩ exprs)
      (evalAll eval ⟨table, held'⟩ exprs) := by
  induction exprs generalizing n held held' with
  | nil => exact .pure fun m _ => List.forall_mem_nil _
  | cons expr rest ih =>
    obtain ⟨hexpr, hrest⟩ := List.forall_mem_cons.1 h
    refine .bind (heval n held held' expr hheld hexpr) fun m value hnm hvalue => ?_
    refine .bind (ih (hheld.append [value]) fun v hv => (hrest v hv).mono hnm)
      fun k values hmk hvalues => ?_
    exact .pure fun i hki => List.forall_mem_cons.2
      ⟨hvalue.mono (hmk.trans hki), fun v hv => (hvalues v hv).mono hki⟩

/-- The forms of a body evaluated in turn give a good value. -/
theorem coincide_evalBody (heval : I.CoincideEval eval) (hheld : I.HeldAlike held held')
    {last : Value} (hlast : I.Good n last) {forms : List Value}
    (h : ∀ v ∈ forms, I.Good n v) :
    I.Coincide n I.Good (evalBody eval ⟨table, held⟩ last forms)
      (evalBody eval ⟨table, held'⟩ last forms) := by
  induction forms generalizing n last with
  | nil => exact .pure fun m hnm => hlast.mono hnm
  | cons form rest ih =>
    obtain ⟨hform, hrest⟩ := List.forall_mem_cons.1 h
    refine .bind (heval n _ _ form (hheld.append [last]) hform) fun m value hnm hvalue => ?_
    exact ih hvalue fun v hv => (hrest v hv).mono hnm

/-- What the caller of a nested evaluation is left with is good if the evaluation
stayed within the limit on its own store. -/
theorem Kept.nested (hgrant : Primitive.baseEval ∈ table) {b : Bindings} (hsound : I.Sound b)
    {s : State Value} (hs : I.Good b.stage (.state s)) {r : Except Error Value × Bindings}
    (hr : I.Kept I.Good (.ofState s b.fresh) r) :
    I.Kept I.Good b
      (r.1.map fun v => .vector [v, .state r.2.intoState], { b with fresh := r.2.fresh }) := by
  obtain ⟨grows, serials, sound, outcome⟩ := hr
  have hlater : b.stage ≤ ({ b with fresh := r.2.fresh } : Bindings).stage := ⟨le_rfl, serials⟩
  have hcaller : I.Sound { b with fresh := r.2.fresh } :=
    ⟨hsound.env.mono hlater, fun v hv => (hsound.refs v hv).mono hlater, sound.first⟩
  refine ⟨⟨⟨[], rfl⟩, le_rfl⟩, serials, hcaller, ?_⟩
  have hback : ∀ {v}, I.Good r.2.stage v → I.Good ⟨b.refs.length, r.2.fresh⟩ v :=
    fun {v} hv => Good.detached hgrant (le_refl r.2.fresh) hv
  obtain ⟨_ | value, b'⟩ := r
  · exact GoodError.imp hback outcome
  · have hstate : I.Good ⟨b.refs.length, b'.fresh⟩ (.state b'.intoState) := by
      refine Value.everywhere_state.2 ⟨?_, ?_, ?_⟩
      · -- What the run did to the environment of the state is definitions.
        obtain ⟨definitions, henv⟩ := grows.env
        rw [Bindings.intoState, show b'.env = _ from henv]
        exact I.detached hgrant serials (I.continued definitions hs.here)
      · intro v hv
        exact hback (sound.env.2 v hv)
      · intro v hv
        exact hback (sound.refs v hv)
    exact good_vector (List.forall_mem_cons.2
      ⟨hback outcome, List.forall_mem_singleton.2 hstate⟩)

/-- **A nested evaluation stays within the limit**, and leaves the environment
and the store of its caller alone. -/
theorem coincide_nested (heval : I.CoincideEval eval) (hheld : I.HeldAlike held held')
    (hgrant : Primitive.baseEval ∈ table) {expr : Value} {s : State Value}
    (hexpr : I.Good n expr) (hs : I.Good n (.state s)) :
    I.Coincide n I.Good (Call.run eval ⟨table, held⟩ (.nested expr s))
      (Call.run eval ⟨table, held'⟩ (.nested expr s)) := by
  intro b hb hsound
  have hinner : I.Sound (.ofState s b.fresh) := hs.sound_ofState hgrant hb.2 hsound.first
  have hexpr' : I.Good (Bindings.ofState s b.fresh).stage expr :=
    Good.detached hgrant (show n.serials ≤ b.fresh from hb.2) hexpr
  obtain ⟨hkept, hrun⟩ := heval _ _ _ expr (hheld.append [expr, .state b.intoState]) hexpr'
    (.ofState s b.fresh) le_rfl hinner
  rw [Call.run_nested, Call.run_nested]
  simp only [Context.holdAll, hrun]
  exact ⟨hkept.nested hgrant hsound (hs.mono hb), trivial⟩

/-- **Running a good call stays within the limit.** -/
theorem coincide_call (hhost : I.CoincideRunner host) (heval : I.CoincideEval eval)
    (hheld : I.HeldAlike held held') {call : Call} (hcall : I.GoodCall n call) :
    I.Coincide n I.Good (call.runWith eval host ⟨table, held⟩)
      (call.runWith eval host ⟨table, held'⟩) := by
  cases hcall with
  | body hscope hbodies =>
    refine .get_bind fun b hb hs => ?_
    refine .within ⟨I.persistent, fun v hv => (hscope v hv).mono hb⟩ ?_
    have hnull : I.Good b.stage .null := good_of_isData rfl rfl
    exact coincide_evalBody heval (hheld.append [.env b.env]) hnull
      fun v hv => (hbodies v hv).mono hb
  | nested hgrant hexpr hs => exact coincide_nested heval hheld hgrant hexpr hs
  | operation hfits hargs =>
    exact coincide_operation hfits hargs eval ⟨table, held⟩ ⟨table, held'⟩
  | @procedure p args hp => exact hhost n _ _ p (hheld.append args) hp

/-- Applying a good function to good arguments stays within the limit, if the
procedures of the host do. -/
theorem coincideApplier_applyWith (hhosts : I.GoodHosts) (hhost : I.CoincideRunner host)
    (heval : I.CoincideEval eval) : I.CoincideApplier (applyWith eval host) := by
  intro n held held' func args hheld hfunc hargs
  obtain ⟨kept, hrun⟩ := exists_applyWith_eq table func args
  have hresolve := goodCall_resolve hhosts hfunc hargs
  rw [hrun, hrun]
  cases hr : Call.resolve table args func with
  | error e =>
    rw [hr] at hresolve
    exact .fail hresolve
  | ok call =>
    rw [hr] at hresolve
    exact coincide_call hhost heval (hheld.append kept) hresolve

/-! ### Procedures of the host -/

/-- A procedure whose steps are good stays within the limit. -/
theorem coincide_procedure {applier : Nat → Applier} (heval : I.CoincideEval eval)
    (happly : ∀ frames, I.CoincideApplier (applier frames)) (hheld : I.HeldAlike held held')
    {p : Procedure} (hp : I.GoodProcedure n p) :
    I.Coincide n I.Good (p.run eval applier ⟨table, held⟩) (p.run eval applier ⟨table, held'⟩) := by
  induction hp with
  | done h => exact (Keeps.ofExcept fun m hnm => h.mono Good.mono hnm).coincide
  | lookup _ ih =>
    refine .get_bind fun b hb hs => ih _ _ hb fun v hv => ?_
    exact hs.env.2 v (Env.mem_values_of_lookup hv)
  | define hv _ ih => exact .bind (.define hv) fun m _ hnm _ => .mono hnm ih
  | @eval n expr kept next hexpr _ ih =>
    exact .bind (.outcome (heval _ _ _ _ (hheld.append kept) hexpr))
      fun m outcome hnm ho => ih m outcome hnm ho
  | @apply n frames func args kept next hfunc hargs _ ih =>
    exact .bind (.outcome (happly frames _ _ _ func args (hheld.append kept) hfunc hargs))
      fun m outcome hnm ho => ih m outcome hnm ho

/-- Procedures that other procedures apply stay within the limit, however many may
be open. -/
theorem coincideRunner_runWithin (hhosts : I.GoodHosts) (heval : I.CoincideEval eval)
    (frames : Nat) : I.CoincideRunner (Procedure.runWithin eval frames) := by
  induction frames with
  | zero => exact fun n _ _ p _ _ => .fail trivial
  | succ frames ih =>
    exact fun n _ _ p hheld hp =>
      coincide_procedure heval (fun _ => coincideApplier_applyWith hhosts ih heval) hheld hp

/-- **Good procedures of the host stay within the limit.** -/
theorem coincideRunner_runHost (hhosts : I.GoodHosts) (heval : I.CoincideEval eval) :
    I.CoincideRunner (Procedure.runHost eval) :=
  fun _ _ _ _ hheld hp => coincide_procedure heval
    (fun frames => coincideApplier_applyWith hhosts (coincideRunner_runWithin hhosts heval frames)
      heval) hheld hp

/-- **Applying a good function to good arguments stays within the limit.** -/
theorem coincide_applyFunction (hhosts : I.GoodHosts) (heval : I.CoincideEval eval)
    (hheld : I.HeldAlike held held') {func : Value} {args : List Value} (hfunc : I.Good n func)
    (hargs : ∀ v ∈ args, I.Good n v) :
    I.Coincide n I.Good (applyFunction eval ⟨table, held⟩ func args)
      (applyFunction eval ⟨table, held'⟩ func args) :=
  coincideApplier_applyWith hhosts (coincideRunner_runHost hhosts heval) heval n held held' func
    args hheld hfunc hargs

/-- The same for one run. -/
theorem keeps_applyFunction (hhosts : I.GoodHosts) (heval : I.CoincideEval eval) {func : Value}
    {args : List Value} (hfunc : I.Good n func) (hargs : ∀ v ∈ args, I.Good n v) :
    I.Keeps n I.Good (applyFunction eval ⟨table, held⟩ func args) :=
  (coincide_applyFunction hhosts heval (.refl held) hfunc hargs).keeps

end Invariant
end CapLisp
