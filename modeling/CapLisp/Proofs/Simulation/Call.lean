/-
# Calls agree

Applying related functions to related arguments resolves to related calls or to
related errors (`outcome_resolve`): a signature looks at the kinds of the
arguments only.  Running related calls agrees if the evaluations inside do and
the procedures of the host do (`agree_call`).  A nested evaluation runs from
related states, whatever the bindings of its callers (`outcome_nested`).
-/

import CapLisp.Proofs.Applications
import CapLisp.Proofs.Simulation.Operation

namespace CapLisp
namespace Simulation

/-- Two resolved calls with related parts. -/
inductive AlikeCall (S : Simulation) (table : Table) : Call → Call → Prop
  | body {scope scope' : Chain Value} {bodies bodies' : List Value}
    (hscope : S.chain scope scope') (hbodies : List.Forall₂ S.value bodies bodies') :
    AlikeCall S table (.body scope bodies) (.body scope' bodies')
  | nested {expr expr' : Value} {s s' : State Value} (hexpr : S.value expr expr')
    (hs : S.state s s') : AlikeCall S table (.nested expr s) (.nested expr' s')
  | operation {op : Operation} {args args' : List Value} (hfits : op.Fits args)
    (hargs : List.Forall₂ S.value args args') :
    AlikeCall S table (.operation op args) (.operation op args')
  | procedure {name : String} {signature : Signature} {steps : List Value → Procedure}
    {args args' : List Value} (hmem : Primitive.host name signature steps ∈ table)
    (hargs : List.Forall₂ S.value args args') :
    AlikeCall S table (.procedure (steps args) args) (.procedure (steps args') args')

variable {S : Simulation} {table : Table} {eval : Evaluator} {host : Runner}
  {held held' : List Value}

/-! ### Resolving -/

/-- A signature does not tell related arguments apart. -/
theorem alike_check (op : String) (signature : Signature) {vs ws : List Value}
    (h : List.Forall₂ S.value vs ws) : signature.check op vs = signature.check op ws :=
  signature.check_congr op (h.imp fun _ _ => kind_eq)

/-- Related chains stay related when the same names are bound to related values. -/
theorem chain_extend {frames others : Chain Value} (h : S.chain frames others)
    (names : List String) {vs ws : List Value} (hvs : List.Forall₂ S.value vs ws) :
    S.chain (Chain.extend frames (names.zip vs)) (Chain.extend others (names.zip ws)) := by
  induction hvs generalizing frames others names with
  | nil => simpa [Chain.extend] using h
  | @cons v w vs ws hv _ ih =>
    cases names with
    | nil => exact h
    | cons name names =>
      have hfront := ih (S.chain_cons name h hv) names
      simpa [Chain.extend] using hfront

/-- Alike closures are entered alike on alike arguments. -/
theorem outcome_enter {scope scope' : Chain Value} (hscope : S.chain scope scope')
    {f g : Closure Value} (hfn : AlikeClosure S.value S.chain f g) {vs ws : List Value}
    (h : List.Forall₂ S.value vs ws) :
    S.Outcome (S.AlikeCall table) (Call.enter scope f vs) (Call.enter scope' g ws) := by
  unfold Call.enter
  rw [hfn.params, h.length_eq]
  split
  · exact .ok (.body (chain_extend hscope g.params h) hfn.bodies)
  · exact .of_values_eq_nil rfl

/-- **Related applications resolve to related calls.** -/
theorem outcome_resolve (table : Table) {func func' : Value} {vs ws : List Value}
    (hfunc : S.value func func') (h : List.Forall₂ S.value vs ws) :
    S.Outcome (S.AlikeCall table) (Call.resolve table vs func)
      (Call.resolve table ws func') := by
  have hresolves := Call.resolves table vs func
  generalize Call.resolve table vs func = outcome at hresolves ⊢
  -- The second application is resolved the same way, by the same constructor.
  induction hresolves generalizing func' ws with
  | lambda fn args =>
    cases S.alike hfunc with
    | lambda hfn =>
      rw [(Call.Resolves.lambda _ ws).resolve_eq]
      exact outcome_enter hfn.scope hfn h
  | lambdaRec name fn args =>
    cases S.alike hfunc with
    | lambdaRec hfn =>
      rw [(Call.Resolves.lambdaRec name _ ws).resolve_eq]
      exact outcome_enter (S.chain_cons name hfn.scope hfunc) hfn h
  | unknown args hfind =>
    cases S.alike hfunc
    rw [(Call.Resolves.unknown ws hfind).resolve_eq]
    exact .of_values_eq_nil rfl
  | refused hfind hcheck =>
    cases S.alike hfunc
    have hcheck' := hcheck
    rw [Primitive.check, alike_check _ _ h] at hcheck'
    rw [(Call.Resolves.refused hfind hcheck').resolve_eq]
    rcases Signature.check_eq_error hcheck with ⟨_, _, rfl⟩ | ⟨_, _, rfl⟩ <;>
      exact .of_values_eq_nil rfl
  | nested hfind expr s =>
    cases S.alike hfunc
    obtain ⟨expr', w, rfl, hexpr, hw⟩ := forall₂_two h
    cases S.alike hw with
    | state hs =>
      rw [(Call.Resolves.nested hfind expr' _).resolve_eq]
      exact .ok (.nested hexpr hs)
  | operation hfind hcheck hfits =>
    cases S.alike hfunc
    rw [Primitive.check, alike_check _ _ h] at hcheck
    rw [(Call.Resolves.operation hfind hcheck (Operation.fits_of_check hcheck)).resolve_eq]
    exact .ok (.operation hfits h)
  | procedure hfind hcheck =>
    cases S.alike hfunc
    rw [Primitive.check, alike_check _ _ h] at hcheck
    rw [(Call.Resolves.procedure hfind hcheck).resolve_eq]
    exact .ok (.procedure (Table.mem_of_find? hfind) h)
  | apply_list hfind _ ih =>
    cases S.alike hfunc
    obtain ⟨func', w, rfl, hfunc', hw⟩ := forall₂_two h
    cases S.alike hw with
    | list hargs =>
      rw [(Call.Resolves.apply_list hfind (Call.resolves table _ func')).resolve_eq]
      exact ih hfunc' hargs
  | apply_vector hfind _ ih =>
    cases S.alike hfunc
    obtain ⟨func', w, rfl, hfunc', hw⟩ := forall₂_two h
    cases S.alike hw with
    | vector hargs =>
      rw [(Call.Resolves.apply_vector hfind (Call.resolves table _ func')).resolve_eq]
      exact ih hfunc' hargs
  | notAFunction args hno =>
    have hno' : func'.isFunction = false := by
      cases S.alike hfunc <;> first | rfl | cases hno
    rw [(Call.Resolves.notAFunction ws hno').resolve_eq]
    exact .error (S.notAFunction hfunc)

/-! ### Running -/

/-- Null is like itself. -/
theorem alike_null : S.value .null .null := S.of_alike .null

/-- Alike operands evaluate alike if expressions do. -/
theorem agree_evalAll (heval : S.AgreeEval table eval) {exprs exprs' : List Value}
    (h : List.Forall₂ S.value exprs exprs') :
    S.Agree (List.Forall₂ S.value) (evalAll eval ⟨table, held⟩ exprs)
      (evalAll eval ⟨table, held'⟩ exprs') := by
  induction h generalizing held held' with
  | nil => exact .pure .nil
  | cons hexpr _ ih =>
    refine .bind (heval _ _ _ _ hexpr) fun value value' hvalue => ?_
    refine .bind (ih) fun values values' hvalues => ?_
    exact .pure (.cons hvalue hvalues)

/-- Alike forms in a row evaluate alike if expressions do. -/
theorem agree_evalBody (heval : S.AgreeEval table eval) {last last' : Value}
    (hlast : S.value last last') {forms forms' : List Value}
    (h : List.Forall₂ S.value forms forms') :
    S.Agree S.value (evalBody eval ⟨table, held⟩ last forms)
      (evalBody eval ⟨table, held'⟩ last' forms') := by
  induction h generalizing last last' with
  | nil => exact .pure hlast
  | cons hform _ ih =>
    refine .bind (heval _ _ _ _ hform) fun value value' hvalue => ?_
    exact ih hvalue

/-- **Nested evaluations of related expressions on related states end alike**,
whatever the bindings of their callers. -/
theorem outcome_nested (heval : S.AgreeEval table eval) {expr expr' : Value}
    (hexpr : S.value expr expr') {s s' : State Value} (hs : S.state s s')
    (b b' : CapLisp.Bindings) :
    S.Outcome S.value ((Call.run eval ⟨table, held⟩ (.nested expr s)).run b).1
      ((Call.run eval ⟨table, held'⟩ (.nested expr' s')).run b').1 := by
  have hstart : S.Bindings (.ofState s b.fresh) (.ofState s' b'.fresh) :=
    ⟨S.state_variant hs, S.state_env hs, S.state_refs hs⟩
  obtain ⟨variant, bindings, outcome⟩ :=
    heval ([expr, .state b.intoState] ++ held) ([expr', .state b'.intoState] ++ held')
      expr expr' hexpr _ _ hstart
  rw [Call.run_nested, Call.run_nested]
  refine outcome.map fun v v' hv => S.of_alike (.vector (.cons hv (.cons ?_ .nil)))
  exact S.of_alike (.state (S.continued hs variant bindings.variant bindings.env bindings.refs))

/-- Nested evaluations leave their callers alone, so the callers stay related. -/
theorem agree_nested (heval : S.AgreeEval table eval) {expr expr' : Value}
    (hexpr : S.value expr expr') {s s' : State Value} (hs : S.state s s') :
    S.Agree S.value (Call.run eval ⟨table, held⟩ (.nested expr s))
      (Call.run eval ⟨table, held'⟩ (.nested expr' s')) := by
  intro b b' hb
  refine ⟨?_, ?_, outcome_nested heval hexpr hs b b'⟩
  · rw [Call.run_nested]
  · rw [Call.run_nested, Call.run_nested]
    exact ⟨hb.variant, hb.env, hb.refs⟩

/-- Related calls agree if the procedures of the host do. -/
theorem agree_call (hhosts : S.AgreeHosts table host) (heval : S.AgreeEval table eval)
    {call call' : Call} (h : S.AlikeCall table call call') :
    S.Agree S.value (call.runWith eval host ⟨table, held⟩)
      (call'.runWith eval host ⟨table, held'⟩) := by
  cases h with
  | body hscope hbodies =>
    refine .get_bind fun b b' _ => .within (S.env_chain hscope) rfl ?_
    exact agree_evalBody heval alike_null hbodies
  | nested hexpr hs => exact agree_nested heval hexpr hs
  | operation hfits hargs =>
    exact agree_operation hfits hargs eval ⟨table, held⟩ ⟨table, held'⟩
  | procedure hmem hargs => exact hhosts _ _ _ hmem _ _ hargs

/-- Applying related functions to related arguments agrees if the procedures of the
host do. -/
theorem agreeApplier_applyWith (hhosts : S.AgreeHosts table host)
    (heval : S.AgreeEval table eval) : S.AgreeApplier table (applyWith eval host) := by
  intro held held' func func' args args' hfunc h
  obtain ⟨kept, hrun⟩ := exists_applyWith_eq table func args
  obtain ⟨kept', hrun'⟩ := exists_applyWith_eq table func' args'
  have hresolve := outcome_resolve table hfunc h
  rw [hrun, hrun']
  generalize Call.resolve table args func = outcome at hresolve ⊢
  generalize Call.resolve table args' func' = outcome' at hresolve ⊢
  cases hresolve with
  | ok hcall => exact agree_call hhosts heval hcall
  | error he => exact .fail he

/-- **Applying related functions to related arguments agrees.** -/
theorem agree_applyFunction (hhosts : S.AgreeHosts table (Procedure.runHost eval))
    (heval : S.AgreeEval table eval) {func func' : Value} (hfunc : S.value func func')
    {args args' : List Value} (h : List.Forall₂ S.value args args') :
    S.Agree S.value (applyFunction eval ⟨table, held⟩ func args)
      (applyFunction eval ⟨table, held'⟩ func' args') :=
  agreeApplier_applyWith hhosts heval held held' func func' args args' hfunc h

end Simulation
end CapLisp
