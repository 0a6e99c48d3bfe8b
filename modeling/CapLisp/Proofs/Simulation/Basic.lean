/-
# Simulations

Two runs are compared step by step: from related bindings and on related
expressions they end alike.  What counts as related is left open.  `Simulation`
lists the relations and what a step needs of them, and the modules after this
one prove once that evaluation needs no more.

| relation | of |
| --- | --- |
| `value` | values; it goes by their kind and their parts (`Alike`) |
| `chain` | the scopes of closures |
| `env` | environments, as a run works in and as a value holds them |
| `variant` | the variants of environments that a run works in |
| `state` | states |
| `error` | errors |

Two actions agree if from related bindings they end in related bindings, both
with related values or both with related errors.  There is one rule for each
way of putting actions together.
-/

import CapLisp.Proofs.Invariant.Basic
import Mathlib.Data.List.Forall2
import Mathlib.Data.Option.Defs

namespace CapLisp

/-- Two entries with related keys and values. -/
structure AlikeEntry (value : Value → Value → Prop) (entry other : Value × Value) : Prop where
  key : value entry.1 other.1
  value : value entry.2 other.2

/-- Two closures with the same parameters, related bodies and related scopes. -/
structure AlikeClosure (value : Value → Value → Prop) (chain : Chain Value → Chain Value → Prop)
    (f g : Closure Value) : Prop where
  params : f.params = g.params
  bodies : List.Forall₂ value f.bodies g.bodies
  scope : chain f.scope g.scope

/-- Two values of one kind with related parts.  The atom `def-rec` is left out:
whether that form takes a closure is a question of who else holds it. -/
inductive Alike (value : Value → Value → Prop) (chain : Chain Value → Chain Value → Prop)
    (env : Env Value → Env Value → Prop) (state : State Value → State Value → Prop) :
    Value → Value → Prop
  | atom {name : String} (h : name ≠ SpecialForm.defineRec.name) :
    Alike value chain env state (.atom name) (.atom name)
  | keyword (name : String) : Alike value chain env state (.keyword name) (.keyword name)
  | string (text : String) : Alike value chain env state (.string text) (.string text)
  | number (n : Int64) : Alike value chain env state (.number n) (.number n)
  | bool (b : Bool) : Alike value chain env state (.bool b) (.bool b)
  | null : Alike value chain env state .null .null
  | list {vs ws : List Value} (h : List.Forall₂ value vs ws) :
    Alike value chain env state (.list vs) (.list ws)
  | vector {vs ws : List Value} (h : List.Forall₂ value vs ws) :
    Alike value chain env state (.vector vs) (.vector ws)
  | dict {entries others : Dict} (h : List.Forall₂ (AlikeEntry value) entries others) :
    Alike value chain env state (.dict entries) (.dict others)
  | lambda {f g : Closure Value} (h : AlikeClosure value chain f g) :
    Alike value chain env state (.lambda f) (.lambda g)
  | lambdaRec {name : String} {f g : Closure Value} (h : AlikeClosure value chain f g) :
    Alike value chain env state (.lambdaRec name f) (.lambdaRec name g)
  | primFn (name : String) : Alike value chain env state (.primFn name) (.primFn name)
  | ref (index : UInt64) : Alike value chain env state (.ref index) (.ref index)
  | env {e e' : Env Value} (h : env e e') : Alike value chain env state (.env e) (.env e')
  | state {s s' : State Value} (h : state s s') :
    Alike value chain env state (.state s) (.state s')

/-- Relations between two runs that no step of evaluation breaks.

The variant of an environment is related apart from what it binds: a run keeps
its variant, and how an environment takes a definition depends on it. -/
structure Simulation where
  value : Value → Value → Prop
  chain : Chain Value → Chain Value → Prop
  env : Env Value → Env Value → Prop
  variant : (isImmutable isImmutable' : Bool) → Prop
  state : State Value → State Value → Prop
  error : Error → Error → Prop
  -- Values are told apart by kind, by part and by equality, and no further.
  alike : ∀ {v w}, value v w → Alike value chain env state v w
  of_alike : ∀ {v w}, Alike value chain env state v w → value v w
  beq_eq : ∀ {v v' w w'}, value v v' → value w w' → (v == w) = (v' == w')
  -- Scopes are put together frame by frame and are environments.
  chain_nil : chain [] []
  chain_cons : ∀ {frames others} name {v w}, chain frames others → value v w →
    chain ((name, v) :: frames) ((name, w) :: others)
  env_chain : ∀ {frames others}, chain frames others →
    env (.persistent frames) (.persistent others)
  -- All that a run does with an environment.
  variant_refl : ∀ isImmutable, variant isImmutable isImmutable
  lookup : ∀ {e e'}, env e e' → ∀ name, Option.Rel value (e.lookup name) (e'.lookup name)
  define : ∀ {e e'} name {v w}, env e e' → variant e.isImmutable e'.isImmutable → value v w →
    env (e.define name v) (e'.define name w)
  freeze : ∀ {e e'}, env e e' → chain e.freeze e'.freeze
  thaw : ∀ {e e'}, env e e' → env (.mutable e.thaw) (.mutable e'.thaw)
  -- A state is taken apart for a nested run and put together after it.
  state_env : ∀ {s s'}, state s s' → env s.env s'.env
  state_variant : ∀ {s s'}, state s s' → variant s.env.isImmutable s'.env.isImmutable
  state_refs : ∀ {s s'}, state s s' → List.Forall₂ value s.refs s'.refs
  snapshot : ∀ {frames others refs refs'}, chain frames others → List.Forall₂ value refs refs' →
    state ⟨.persistent frames, refs⟩ ⟨.persistent others, refs'⟩
  continued : ∀ {s s' e e' refs refs'}, state s s' → e.isImmutable = s.env.isImmutable →
    variant e.isImmutable e'.isImmutable → env e e' → List.Forall₂ value refs refs' →
    state ⟨e, refs⟩ ⟨e', refs'⟩
  -- Errors, by the values they carry.
  plain : ∀ {e}, Error.values e = [] → error e e
  notAFunction : ∀ {v w}, value v w → error (.notAFunction v) (.notAFunction w)
  invalidDeclaration : ∀ fault {v w}, value v w →
    error (.invalidDeclaration fault v) (.invalidDeclaration fault w)
  missingKey : ∀ {v w}, value v w → error (.failed (.missingKey v)) (.failed (.missingKey w))
  thrown : ∀ label {v w}, value v w → error (.thrown label v) (.thrown label w)

namespace Simulation

/-- Two outcomes that end alike, with values that `R` relates. -/
inductive Outcome {α : Type} (S : Simulation) (R : α → α → Prop) :
    Except Error α → Except Error α → Prop
  | ok {a a' : α} (h : R a a') : Outcome S R (.ok a) (.ok a')
  | error {e e' : Error} (h : S.error e e') : Outcome S R (.error e) (.error e')

/-- Bindings with related environments and related slots. -/
structure Bindings (S : Simulation) (b b' : CapLisp.Bindings) : Prop where
  variant : S.variant b.env.isImmutable b'.env.isImmutable
  env : S.env b.env b'.env
  refs : List.Forall₂ S.value b.refs b'.refs

/-- Two runs that end alike, in related bindings.  The first one began in `b`. -/
structure End {α : Type} (S : Simulation) (R : α → α → Prop) (b : CapLisp.Bindings)
    (r r' : Except Error α × CapLisp.Bindings) : Prop where
  variant : r.2.env.isImmutable = b.env.isImmutable
  bindings : S.Bindings r.2 r'.2
  outcome : S.Outcome R r.1 r'.1

/-- Two actions that end alike from related bindings. -/
def Agree {α : Type} (S : Simulation) (R : α → α → Prop) (x x' : Action α) : Prop :=
  ∀ b b', S.Bindings b b' → S.End R b (x.run b) (x'.run b')

/-- An evaluator that agrees with itself on related expressions, whatever is held. -/
def AgreeEval (S : Simulation) (table : Table) (eval : Evaluator) : Prop :=
  ∀ (held held' : List Value) (expr expr' : Value), S.value expr expr' →
    S.Agree S.value (eval ⟨table, held⟩ expr) (eval ⟨table, held'⟩ expr')

/-- A way of applying functions that agrees with itself on related functions and
arguments, whatever is held. -/
def AgreeApplier (S : Simulation) (table : Table) (applier : Applier) : Prop :=
  ∀ (held held' : List Value) (func func' : Value) (args args' : List Value),
    S.value func func' → List.Forall₂ S.value args args' →
    S.Agree S.value (applier ⟨table, held⟩ func args) (applier ⟨table, held'⟩ func' args')

/-- The procedures of the host, run on related arguments, agree with themselves. -/
def AgreeHosts (S : Simulation) (table : Table) (host : Runner) : Prop :=
  ∀ name signature steps, Primitive.host name signature steps ∈ table →
    ∀ (held held' : List Value) {args args' : List Value}, List.Forall₂ S.value args args' →
      S.Agree S.value (host ⟨table, held⟩ (steps args)) (host ⟨table, held'⟩ (steps args'))

variable {S : Simulation} {α β : Type} {R : α → α → Prop} {Q : β → β → Prop}

/-- Values that are alike have the same kind. -/
theorem kind_eq {v w : Value} (h : S.value v w) : v.kind = w.kind := by
  cases S.alike h <;> rfl

/-- Outcomes stay related when related functions are applied to their values. -/
theorem Outcome.map {outcome outcome' : Except Error α} (h : S.Outcome R outcome outcome')
    {f g : α → β} (hfg : ∀ a a', R a a' → Q (f a) (g a')) :
    S.Outcome Q (outcome.map f) (outcome'.map g) := by
  cases h with
  | ok ha => exact .ok (hfg _ _ ha)
  | error he => exact .error he

/-- An error without values is like itself. -/
theorem Outcome.of_values_eq_nil {e : Error} (h : e.values = []) :
    S.Outcome R (.error e) (.error e) :=
  .error (S.plain h)

/-- Exchanging the stores for alike ones keeps bindings alike. -/
theorem Bindings.withRefs {b b' : CapLisp.Bindings} (h : S.Bindings b b')
    {refs refs' : Store Value} (hrefs : List.Forall₂ S.value refs refs') :
    S.Bindings { b with refs := refs } { b' with refs := refs' } :=
  ⟨h.variant, h.env, hrefs⟩

namespace Agree

/-- Finished actions agree if their results are alike. -/
theorem pure {a a' : α} (h : R a a') : S.Agree R (pure a : Action α) (pure a' : Action α) :=
  fun _ _ hb => ⟨rfl, hb, .ok h⟩

/-- Failing actions agree if their errors are alike. -/
theorem fail {e e' : Error} (h : S.error e e') :
    S.Agree R (Action.fail e : Action α) (Action.fail e') :=
  fun _ _ hb => ⟨rfl, hb, .error h⟩

/-- An error that carries no value ends both runs alike. -/
theorem fail_of_values_eq_nil {e : Error} (h : e.values = []) :
    S.Agree R (Action.fail e : Action α) (Action.fail e) :=
  fail (S.plain h)

/-- Fixed outcomes agree if they are alike. -/
theorem ofExcept {outcome outcome' : Except Error α} (h : S.Outcome R outcome outcome') :
    S.Agree R (Action.ofExcept outcome) (Action.ofExcept outcome') :=
  fun _ _ hb => ⟨rfl, hb, h⟩

/-- **Actions one after another agree** if each does. -/
theorem bind {x x' : Action α} {next next' : α → Action β} (hx : S.Agree R x x')
    (hnext : ∀ a a', R a a' → S.Agree Q (next a) (next' a')) :
    S.Agree Q (x >>= next) (x' >>= next') := by
  intro b b' hb
  obtain ⟨variant, bindings, outcome⟩ := hx b b' hb
  rw [Action.run_bind, Action.run_bind]
  generalize x.run b = r at variant bindings outcome
  generalize x'.run b' = r' at bindings outcome
  obtain ⟨o, c⟩ := r
  obtain ⟨o', c'⟩ := r'
  cases outcome with
  | ok ha =>
    obtain ⟨hvariant, hbindings, houtcome⟩ := hnext _ _ ha c c' bindings
    exact ⟨hvariant.trans variant, hbindings, houtcome⟩
  | error he => exact ⟨variant, bindings, .error he⟩

/-- Actions that look at the bindings first may use that these are related. -/
theorem get_bind {next next' : CapLisp.Bindings → Action β}
    (hnext : ∀ b b', S.Bindings b b' → S.Agree Q (next b) (next' b')) :
    S.Agree Q (Action.get >>= next) (Action.get >>= next') :=
  fun b b' hb => hnext b b' hb b b' hb

/-- Defining alike values under one name agrees. -/
theorem define (name : String) {v w : Value} (h : S.value v w) :
    S.Agree (fun _ _ => True) (Action.define name v) (Action.define name w) := by
  intro b b' hb
  have hvariant :
      S.variant (b.env.define name v).isImmutable (b'.env.define name w).isImmutable := by
    rw [Env.isImmutable_define, Env.isImmutable_define]
    exact hb.variant
  exact ⟨Env.isImmutable_define name v b.env,
    ⟨hvariant, S.define name hb.env hb.variant h, hb.refs⟩, .ok trivial⟩

/-- Taking serial numbers agrees, whatever they are. -/
theorem nextSerial : S.Agree (fun _ _ => True) Action.nextSerial Action.nextSerial :=
  fun _ _ hb => ⟨rfl, ⟨hb.variant, hb.env, hb.refs⟩, .ok trivial⟩

/-- The outcomes of agreeing actions, taken as values, agree. -/
theorem outcome {x x' : Action α} (hx : S.Agree R x x') :
    S.Agree (S.Outcome R) x.outcome x'.outcome := by
  intro b b' hb
  obtain ⟨variant, bindings, houtcome⟩ := hx b b' hb
  exact ⟨variant, bindings, .ok houtcome⟩

/-- Agreeing actions agree inside alike environments of one variant. -/
theorem within {e e' : Env Value} (he : S.env e e') (hvariant : e.isImmutable = e'.isImmutable)
    {x x' : Action α} (hx : S.Agree R x x') :
    S.Agree R (Action.within e x) (Action.within e' x') := by
  intro b b' hb
  have hvariant' : S.variant e.isImmutable e'.isImmutable := hvariant ▸ S.variant_refl _
  obtain ⟨_, bindings, houtcome⟩ :=
    hx { b with env := e } { b' with env := e' } ⟨hvariant', he, hb.refs⟩
  exact ⟨rfl, ⟨hb.variant, hb.env, bindings.refs⟩, houtcome⟩

end Agree

end Simulation

end CapLisp
