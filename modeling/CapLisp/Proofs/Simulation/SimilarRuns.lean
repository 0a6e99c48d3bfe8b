/-
# Similar runs

Similarity is a simulation (`Simulation.similar`), so evaluations of similar
expressions in similar bindings end alike, with similar values or with similar
errors, and a nested evaluation does whatever the bindings of its callers.

A procedure of the host is a parameter.  It is blind if from similar arguments
it takes similar steps, whatever similar outcomes these have.
-/

import CapLisp.Proofs.Simulation.Evaluator
import CapLisp.Proofs.Simulation.Similar
import CapLisp.Proofs.View.Text

namespace CapLisp

/-- The view of an error. -/
def Error.view (d : Detail) : Error → Error
  | .notAFunction v => .notAFunction (v.view d)
  | .invalidDeclaration fault metadata => .invalidDeclaration fault (metadata.view d)
  | .failed (.missingKey key) => .failed (.missingKey (key.view d))
  | .thrown label payload => .thrown label (payload.view d)
  | e => e

namespace Error

variable {d : Detail} {e : Error}

/-- Looking at less of the values in an error keeps its kind. -/
theorem kind_view (e : Error) : (e.view d).kind = e.kind := by
  cases e with
  | failed failure => cases failure <;> rfl
  | _ => rfl

/-- Looking at less of the values in an error keeps its label. -/
theorem label_view (e : Error) : (e.view d).label = e.label := by
  cases e with
  | failed failure => cases failure <;> rfl
  | _ => rfl

/-- An error and its view have the same message. -/
theorem message_view (h : ∀ v ∈ e.values, v.Regular d) : (e.view d).message = e.message := by
  cases e with
  | notAFunction v =>
    have htext := Value.text_view (h v (List.mem_singleton.2 rfl))
    exact congrArg (fun text => "NonFunctionCalled: " ++ text) htext
  | invalidDeclaration fault v =>
    have htext := Value.text_view (h v (List.mem_singleton.2 rfl))
    exact congrArg (fun text => "InvalidDeclaration: " ++ fault.message ++ " in " ++ text) htext
  | thrown label v =>
    have htext := Value.text_view (h v (List.mem_singleton.2 rfl))
    exact congrArg (fun text => "Thrown(" ++ label ++ "): " ++ text) htext
  | failed failure =>
    cases failure with
    | missingKey key =>
      have htext := Value.text_view (h key (List.mem_singleton.2 rfl))
      exact congrArg (fun text => "Other(" ++ "lookup" ++ "): " ++ ("key " ++ text ++ " not found"))
        htext
    | _ => rfl
  | _ => rfl

end Error

/-- Two errors with the same view that carry plain values. -/
structure SimilarError (d : Detail) (e e' : Error) : Prop where
  view : e.view d = e'.view d
  left : ∀ v ∈ e.values, v.Plain d
  right : ∀ v ∈ e'.values, v.Plain d

/-- Two outcomes that end alike, with values that `R` relates. -/
inductive SimilarOutcome {α : Type} (d : Detail) (R : α → α → Prop) :
    Except Error α → Except Error α → Prop
  | ok {a a' : α} (h : R a a') : SimilarOutcome d R (.ok a) (.ok a')
  | error {e e' : Error} (h : SimilarError d e e') : SimilarOutcome d R (.error e) (.error e')

/-- Bindings with similar environments of one variant and similar slots. -/
structure SimilarBindings (d : Detail) (b b' : Bindings) : Prop where
  variant : b.env.isImmutable = b'.env.isImmutable
  env : SimilarEnv d b.env b'.env
  refs : List.Forall₂ (Similar d) b.refs b'.refs

/-- Two runs that end alike, in similar bindings whose variant is that of `b`. -/
structure SimilarEnd {α : Type} (d : Detail) (R : α → α → Prop) (b : Bindings)
    (r r' : Except Error α × Bindings) : Prop where
  variant : r.2.env.isImmutable = b.env.isImmutable
  bindings : SimilarBindings d r.2 r'.2
  outcome : SimilarOutcome d R r.1 r'.1

/-- Two procedures that take similar steps, given similar outcomes of each. -/
inductive SimilarProcedure (d : Detail) : Procedure → Procedure → Prop
  | done {outcome outcome' : Except Error Value}
    (h : SimilarOutcome d (Similar d) outcome outcome') :
    SimilarProcedure d (.done outcome) (.done outcome')
  | lookup {name : String} {next next' : Option Value → Procedure}
    (h : ∀ found found', Option.Rel (Similar d) found found' →
      SimilarProcedure d (next found) (next' found')) :
    SimilarProcedure d (.lookup name next) (.lookup name next')
  | define {name : String} {v w : Value} {next next' : Procedure} (hv : Similar d v w)
    (h : SimilarProcedure d next next') :
    SimilarProcedure d (.define name v next) (.define name w next')
  | eval {expr expr' : Value} {kept kept' : List Value}
    {next next' : Except Error Value → Procedure} (hexpr : Similar d expr expr')
    (h : ∀ outcome outcome', SimilarOutcome d (Similar d) outcome outcome' →
      SimilarProcedure d (next outcome) (next' outcome')) :
    SimilarProcedure d (.eval expr kept next) (.eval expr' kept' next')
  | apply {frames : Nat} {func func' : Value} {args args' kept kept' : List Value}
    {next next' : Except Error Value → Procedure} (hfunc : Similar d func func')
    (hargs : List.Forall₂ (Similar d) args args')
    (h : ∀ outcome outcome', SimilarOutcome d (Similar d) outcome outcome' →
      SimilarProcedure d (next outcome) (next' outcome')) :
    SimilarProcedure d (.apply frames func args kept next) (.apply frames func' args' kept' next')

/-- Every primitive of the host in the table takes similar steps on similar arguments. -/
def BlindHosts (d : Detail) (table : Table) : Prop :=
  ∀ name signature steps, Primitive.host name signature steps ∈ table →
    ∀ args args', List.Forall₂ (Similar d) args args' →
      SimilarProcedure d (steps args) (steps args')

variable {d : Detail} {table : Table} {eval : Evaluator} {held held' : List Value}

namespace SimilarError

/-- An error that carries no value is similar to itself. -/
theorem of_values_eq_nil {e : Error} (h : e.values = []) : SimilarError d e e :=
  ⟨rfl, by simp [h], by simp [h]⟩

/-- Errors that carry one value each, and differ in it only, are similar if the
values are. -/
theorem of_value (e : Value → Error) (hview : ∀ v, (e v).view d = e (v.view d))
    (hvalues : ∀ v, (e v).values = [v]) {v w : Value} (h : Similar d v w) :
    SimilarError d (e v) (e w) := by
  refine ⟨?_, ?_, ?_⟩
  · rw [hview, hview, h.view]
  · rw [hvalues]
    exact List.forall_mem_singleton.2 h.left
  · rw [hvalues]
    exact List.forall_mem_singleton.2 h.right

/-- Similar values that are no functions give similar errors. -/
theorem notAFunction {v w : Value} (h : Similar d v w) :
    SimilarError d (.notAFunction v) (.notAFunction w) :=
  of_value .notAFunction (fun _ => rfl) (fun _ => rfl) h

/-- Similar metadata with one fault gives similar errors. -/
theorem invalidDeclaration (fault : MetadataFault) {v w : Value} (h : Similar d v w) :
    SimilarError d (.invalidDeclaration fault v) (.invalidDeclaration fault w) :=
  of_value (.invalidDeclaration fault) (fun _ => rfl) (fun _ => rfl) h

/-- Similar values thrown under one label give similar errors. -/
theorem thrown (label : String) {v w : Value} (h : Similar d v w) :
    SimilarError d (.thrown label v) (.thrown label w) :=
  of_value (.thrown label) (fun _ => rfl) (fun _ => rfl) h

/-- Similar keys that are missing give similar errors. -/
theorem missingKey {v w : Value} (h : Similar d v w) :
    SimilarError d (.failed (.missingKey v)) (.failed (.missingKey w)) :=
  of_value (.failed ∘ .missingKey) (fun _ => rfl) (fun _ => rfl) h

end SimilarError

/-! ### Similarity is a simulation -/

/-- Plain data without parts is similar to itself. -/
theorem similar_of_isData {v : Value} (hd : v.isData = true) (hp : v.parts = []) :
    Similar d v v :=
  .refl (Invariant.good_of_isData (I := Invariant.plainness d []) (n := ⟨0, 0⟩) hd hp)

/-- Null is similar to itself. -/
theorem similar_null : Similar d .null .null := similar_of_isData rfl rfl

/-- Similar values have similar parts. -/
theorem Similar.alike {v w : Value} (h : Similar d v w) :
    Alike (Similar d) (SimilarChain d) (SimilarEnv d)
      (fun s s' => Similar d (.state s) (.state s')) v w := by
  cases h.matched with
  | atom hname => exact .atom hname
  | list hitems => exact .list hitems
  | vector hitems => exact .vector hitems
  | dict hentries => exact .dict (hentries.imp fun _ _ he => ⟨he.key, he.value⟩)
  | lambda hfn => exact .lambda ⟨hfn.params, hfn.bodies, hfn.scope⟩
  | lambdaRec hfn => exact .lambdaRec ⟨hfn.params, hfn.bodies, hfn.scope⟩
  | env he => exact .env he
  | state => exact .state h
  | _ => constructor

/-- Values with similar parts are similar. -/
theorem Similar.of_alike {v w : Value}
    (h : Alike (Similar d) (SimilarChain d) (SimilarEnv d)
      (fun s s' => Similar d (.state s) (.state s')) v w) : Similar d v w := by
  cases h with
  | atom hname => exact .refl (Value.everywhere_atom.2 hname)
  | list hitems => exact .list hitems
  | vector hitems => exact .vector hitems
  | dict hentries => exact .dict (hentries.imp fun _ _ he => ⟨he.key, he.value⟩)
  | lambda hfn => exact .lambda ⟨hfn.params, hfn.bodies, hfn.scope⟩
  | lambdaRec hfn => exact .lambdaRec ⟨hfn.params, hfn.bodies, hfn.scope⟩
  | primFn name => exact .refl (Value.everywhere_primFn.2 trivial)
  | ref index => exact .refl (Value.everywhere_ref.2 trivial)
  | env he => exact .env he
  | state hs => exact hs
  | _ => exact similar_of_isData rfl rfl

namespace Simulation

/-- Similarity as a simulation.  Bindings are similar in one variant only, since a
persistent environment orders names otherwise than a mutable one. -/
def similar (d : Detail) : Simulation where
  value := Similar d
  chain := SimilarChain d
  env := SimilarEnv d
  variant := Eq
  state s s' := Similar d (.state s) (.state s')
  error := SimilarError d
  alike := Similar.alike
  of_alike := Similar.of_alike
  beq_eq := Similar.beq_eq
  chain_nil := ⟨rfl, List.forall_mem_nil _, List.forall_mem_nil _⟩
  chain_cons name _ _ h hv := h.cons name hv
  env_chain := SimilarChain.env
  variant_refl _ := rfl
  lookup := SimilarEnv.lookup
  define name _ _ h hvariant hv := h.define hvariant name hv
  freeze := SimilarEnv.freeze
  thaw := SimilarEnv.thaw
  state_env h := by cases h.matched with | state henv => exact henv
  state_variant h := by cases h.matched with | state _ _ hvariant => exact hvariant
  state_refs h := by cases h.matched with | state _ hrefs => exact hrefs
  snapshot h hrefs := .state h.env hrefs rfl fun _ => rfl
  continued h hkept hvariant he hrefs := by
    cases h.matched with
    | state _ _ _ hplain => exact .state he hrefs hvariant fun hd => hkept.trans (hplain hd)
  plain := .of_values_eq_nil
  notAFunction := .notAFunction
  invalidDeclaration := .invalidDeclaration
  missingKey := .missingKey
  thrown := .thrown

/-- Outcomes are alike under the simulation exactly if they are similar. -/
theorem outcome_similar_iff {α : Type} {R : α → α → Prop} {outcome outcome' : Except Error α} :
    (similar d).Outcome R outcome outcome' ↔ SimilarOutcome d R outcome outcome' := by
  constructor <;> rintro (h | h)
  · exact .ok h
  · exact .error h
  · exact .ok h
  · exact .error h

/-- Bindings are alike under the simulation exactly if they are similar. -/
theorem bindings_similar_iff {b b' : CapLisp.Bindings} :
    (similar d).Bindings b b' ↔ SimilarBindings d b b' :=
  ⟨fun ⟨variant, env, refs⟩ => ⟨variant, env, refs⟩,
    fun ⟨variant, env, refs⟩ => ⟨variant, env, refs⟩⟩

/-- Ends are alike under the simulation exactly if they are similar. -/
theorem end_similar_iff {α : Type} {R : α → α → Prop} {b : CapLisp.Bindings}
    {r r' : Except Error α × CapLisp.Bindings} :
    (similar d).End R b r r' ↔ SimilarEnd d R b r r' := by
  constructor <;> rintro ⟨variant, bindings, outcome⟩
  · exact ⟨variant, bindings_similar_iff.1 bindings, outcome_similar_iff.1 outcome⟩
  · exact ⟨variant, bindings_similar_iff.2 bindings, outcome_similar_iff.2 outcome⟩

end Simulation

/-! ### Evaluations -/

namespace Simulation

/-- Two procedures that take similar steps agree, if evaluations and applications do. -/
theorem agree_procedure {applier : Nat → Applier} (heval : (similar d).AgreeEval table eval)
    (happly : ∀ frames, (similar d).AgreeApplier table (applier frames)) {p p' : Procedure}
    (h : SimilarProcedure d p p') :
    (similar d).Agree (Similar d) (p.run eval applier ⟨table, held⟩)
      (p'.run eval applier ⟨table, held'⟩) := by
  induction h with
  | done h => exact .ofExcept (outcome_similar_iff.2 h)
  | lookup _ ih => exact .get_bind fun b b' hb => ih _ _ ((similar d).lookup hb.env _)
  | define hv _ ih => exact .bind (.define _ hv) fun _ _ _ => ih
  | eval hexpr _ ih =>
    exact .bind (.outcome (heval _ _ _ _ hexpr)) fun o o' ho => ih o o' (outcome_similar_iff.1 ho)
  | apply hfunc hargs _ ih =>
    exact .bind (.outcome (happly _ _ _ _ _ _ _ hfunc hargs))
      fun o o' ho => ih o o' (outcome_similar_iff.1 ho)

/-- Blind procedures that other procedures apply agree, however many may be open. -/
theorem agreeHosts_runWithin (hhosts : BlindHosts d table)
    (heval : (similar d).AgreeEval table eval) (frames : Nat) :
    (similar d).AgreeHosts table (Procedure.runWithin eval frames) := by
  induction frames with
  | zero => exact fun _ _ _ _ _ _ _ _ _ => .fail_of_values_eq_nil rfl
  | succ frames ih =>
    intro name signature steps hmem held held' args args' hargs
    exact agree_procedure heval (fun _ => agreeApplier_applyWith ih heval)
      (hhosts name signature steps hmem args args' hargs)

/-- **Blind procedures of the host agree.** -/
theorem agreeHosts_runHost (hhosts : BlindHosts d table)
    (heval : (similar d).AgreeEval table eval) :
    (similar d).AgreeHosts table (Procedure.runHost eval) := by
  intro name signature steps hmem held held' args args' hargs
  exact agree_procedure heval
    (fun frames => agreeApplier_applyWith (agreeHosts_runWithin hhosts heval frames) heval)
    (hhosts name signature steps hmem args args' hargs)

end Simulation

/-- An evaluator that ends alike on similar expressions in similar bindings,
whatever is held. -/
def AgreeEval (d : Detail) (table : Table) (eval : Evaluator) : Prop :=
  ∀ (held held' : List Value) (expr expr' : Value), Similar d expr expr' →
    ∀ b b', SimilarBindings d b b' →
      SimilarEnd d (Similar d) b ((eval ⟨table, held⟩ expr).run b)
        ((eval ⟨table, held'⟩ expr').run b')

/-- An evaluator agrees under the simulation exactly if it ends similarly on similar runs. -/
theorem agreeEval_similar_iff :
    (Simulation.similar d).AgreeEval table eval ↔ AgreeEval d table eval := by
  constructor
  · intro h held held' expr expr' hexpr b b' hb
    exact Simulation.end_similar_iff.1
      (h held held' expr expr' hexpr b b' (Simulation.bindings_similar_iff.2 hb))
  · intro h held held' expr expr' hexpr b b' hb
    exact Simulation.end_similar_iff.2
      (h held held' expr expr' hexpr b b' (Simulation.bindings_similar_iff.1 hb))

/-- **Evaluations of similar expressions end alike**, whatever the room. -/
theorem agreeEval_eval (hhosts : BlindHosts d table) (room : Nat) :
    AgreeEval d table (Eval.eval room) :=
  agreeEval_similar_iff.1
    (Simulation.agreeEval_eval (fun _ heval => Simulation.agreeHosts_runHost hhosts heval) room)

/-- **Nested evaluations of similar expressions on similar states end alike**,
whatever the bindings of their callers. -/
theorem similarOutcome_nested (heval : AgreeEval d table eval) {expr expr' : Value}
    (hexpr : Similar d expr expr') {s s' : State Value} (hs : Similar d (.state s) (.state s'))
    (b b' : Bindings) :
    SimilarOutcome d (Similar d) ((Call.run eval ⟨table, held⟩ (.nested expr s)).run b).1
      ((Call.run eval ⟨table, held'⟩ (.nested expr' s')).run b').1 :=
  Simulation.outcome_similar_iff.1
    (Simulation.outcome_nested (agreeEval_similar_iff.2 heval) hexpr hs b b')

/-- The shipped catalog has no host procedures. -/
theorem blindHosts_of_subset (htable : table ⊆ Table.shipped) : BlindHosts d table :=
  fun _ _ _ hmem => absurd hmem (Table.host_not_mem_of_subset htable)

end CapLisp
