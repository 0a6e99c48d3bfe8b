/-
# Invariants of evaluation

An invariant is a limit on what may occur in bindings, in code and in results:
which primitives, which references, which environments.  `Invariant` lists what
such a limit must allow so that evaluation under a table cannot leave it.  An
evaluation builds new values in few ways only, so the list is short.

| built by evaluation | field |
| --- | --- |
| numbers, strings, lists and the like | `data` |
| a closure, a recursive closure | `lambda`, `lambdaRec` |
| the form that applies a function to values | `quote` |
| a primitive that an atom names | `primFn` |
| a reference to a new slot | `ref` |
| a dict | `dict_nil`, `dict_insert` |
| an environment as a value | `env_value` |
| a snapshot of the bindings | `frozen` |
| the state that a nested evaluation ends in | `continued` |

What may occur can depend on how far a run is (`Stage`): on the number of slots
in the store and on the serial numbers that were given out, which both only
grow.  A nested evaluation has a store of its own, so a table that grants one
asks for a limit that does not depend on the slots (`detached`).

`Keeps n Q x` says that the action `x` stays within the limit: from good
bindings that are as far as `n` it ends in good bindings, its value satisfies
`Q`, and every value in its error is good.  On the way the environment takes
definitions only and no slot is lost (`Bindings.Extends`).

`Coincide n Q x x'` says so of two actions that, from such bindings, run alike.
Evaluation is followed in pairs: what an expression does could depend on the
values that are held meanwhile, and a limit can rule out that it does.
-/

import CapLisp.Eval.Evaluator
import CapLisp.Proofs.Everywhere
import Mathlib.Order.Nat

namespace CapLisp

namespace Env

variable {α : Type}

/-- The environment after some definitions, the first one first. -/
def defineAll (definitions : List (String × α)) (e : Env α) : Env α :=
  definitions.foldl (fun e definition => e.define definition.1 definition.2) e

/-- Two runs of definitions are made one after the other. -/
theorem defineAll_append (earlier later : List (String × α)) (e : Env α) :
    e.defineAll (earlier ++ later) = (e.defineAll earlier).defineAll later :=
  List.foldl_append

/-- Definitions keep what each single one keeps. -/
theorem defineAll_induction {P : Env α → Prop} {e : Env α} (he : P e)
    (hdefine : ∀ e name value, P e → P (e.define name value))
    (definitions : List (String × α)) : P (e.defineAll definitions) := by
  induction definitions generalizing e with
  | nil => exact he
  | cons definition rest ih => exact ih (hdefine e definition.1 definition.2 he)

/-- Definitions keep the variant of an environment. -/
theorem isImmutable_defineAll (definitions : List (String × α)) (e : Env α) :
    (e.defineAll definitions).isImmutable = e.isImmutable :=
  defineAll_induction (P := fun e' => e'.isImmutable = e.isImmutable) rfl
    (fun e' name value h => (isImmutable_define name value e').trans h) definitions

end Env

/-- Tells that `b'` is `b` after some definitions, with at least as many slots. -/
structure Bindings.Extends (b b' : Bindings) : Prop where
  env : ∃ definitions, b'.env = b.env.defineAll definitions
  refs : b.refs.length ≤ b'.refs.length

namespace Bindings.Extends

/-- Bindings extend themselves. -/
theorem refl (b : Bindings) : b.Extends b := ⟨⟨[], rfl⟩, le_rfl⟩

/-- Extending twice is extending. -/
theorem trans {a b c : Bindings} (hab : a.Extends b) (hbc : b.Extends c) : a.Extends c := by
  obtain ⟨earlier, hb⟩ := hab.env
  obtain ⟨later, hc⟩ := hbc.env
  have hall : c.env = a.env.defineAll (earlier ++ later) := by
    rw [hc, hb, Env.defineAll_append]
  exact ⟨⟨earlier ++ later, hall⟩, hab.refs.trans hbc.refs⟩

end Bindings.Extends

/-- How far a run is: the slots of its store, and the serial numbers of closures
that were given out. -/
structure Stage where
  slots : Nat
  serials : Nat

instance : Preorder Stage where
  le m n := m.slots ≤ n.slots ∧ m.serials ≤ n.serials
  le_refl _ := ⟨le_rfl, le_rfl⟩
  le_trans _ _ _ h h' := ⟨h.1.trans h'.1, h.2.trans h'.2⟩

/-- The stage that bindings are at. -/
def Bindings.stage (b : Bindings) : Stage := ⟨b.refs.length, b.fresh⟩

/-- The values that an error carries. -/
def Error.values : Error → List Value
  | .notAFunction v => [v]
  | .invalidDeclaration _ metadata => [metadata]
  | .failed (.missingKey key) => [key]
  | .thrown _ payload => [payload]
  | _ => []

/-- Tells that a value is of a kind that no invariant limits. -/
def Value.isData : Value → Bool
  | .keyword _ | .string _ | .number _ | .bool _ | .null => true
  | .list _ | .vector _ => true
  | .atom _ | .dict _ | .lambda _ | .lambdaRec _ _ | .primFn _ | .ref _ | .env _ | .state _ =>
    false

/-- A limit that evaluation under a table keeps: on each value, given the stage,
on environments as a whole, on the invariants of the evaluator that may turn out
broken, and on the serial number that a run starts from. -/
structure Invariant (table : Table) where
  value : Stage → Value → Prop
  env : Env Value → Prop
  breach : Breach → Prop
  first : Nat := 0
  mono : ∀ {m n v}, m ≤ n → value m v → value n v
  detached : Primitive.baseEval ∈ table → ∀ {m n : Stage} {v}, m.serials ≤ n.serials →
    value m v → value n v
  data : ∀ {n v}, Value.isData v = true → value n v
  lambda : ∀ {n : Stage} {fn : Closure Value}, fn.serial = n.serials → first ≤ n.serials →
    Value.EverywhereInClosure (value n) fn → value ⟨n.slots, n.serials + 1⟩ (.lambda fn)
  lambdaRec : ∀ {n name fn}, value n (.lambda fn) → value n (.lambdaRec name fn)
  quote : ∀ {n}, value n (.atom "quote")
  primFn : ∀ {n name}, table.contains name = true → value n (.primFn name)
  ref : ∀ {n : Stage} {index : UInt64}, index.toNat < n.slots → value n (.ref index)
  dict_nil : ∀ {n}, value n (.dict [])
  dict_insert : ∀ {n key item entries}, value n (.dict entries) →
    value n (.dict (Dict.insert key item entries))
  env_value : ∀ {n e}, env e → value n (.env e)
  state_env : ∀ {n s}, value n (.state s) → env s.env
  frozen : ∀ {n frames refs}, value n (.state ⟨.persistent frames, refs⟩)
  continued : ∀ {n e refs refs'} definitions, value n (.state ⟨e, refs⟩) →
    value n (.state ⟨e.defineAll definitions, refs'⟩)
  persistent : ∀ {frames}, env (.persistent frames)
  define : ∀ {e name item}, env e → env (e.define name item)
  thaw : ∀ {e}, env e → env (.mutable e.thaw)
  unknownPrimitive : ∀ {n name}, table.find? name = none → value n (.primFn name) →
    breach (.unknownPrimitive name)
  danglingReference : ∀ {n : Stage} {op} {index : UInt64}, n.slots ≤ index.toNat →
    value n (.ref index) → breach (.danglingReference op index)

namespace Invariant

variable {table : Table} (I : Invariant table)

/-- A value within the limit, with everything inside it. -/
def Good (n : Stage) (v : Value) : Prop := v.Everywhere (I.value n)

/-- An environment within the limit, with its values. -/
def GoodEnv (n : Stage) (e : Env Value) : Prop := I.env e ∧ ∀ v ∈ e.values, I.Good n v

/-- Bindings within the limit. -/
structure Sound (b : Bindings) : Prop where
  env : I.GoodEnv b.stage b.env
  refs : ∀ v ∈ b.refs, I.Good b.stage v
  first : I.first ≤ b.fresh

/-- An error whose values are within the limit. -/
def GoodError (n : Stage) : Error → Prop
  | .notAFunction v => I.Good n v
  | .invalidDeclaration _ v => I.Good n v
  | .failed (.missingKey key) => I.Good n key
  | .thrown _ payload => I.Good n payload
  | .impossible breach => I.breach breach
  | _ => True

/-- An outcome within the limit, whose value satisfies `Q`. -/
def GoodOutcome {α : Type} (Q : Stage → α → Prop) (n : Stage) : Except Error α → Prop
  | .ok a => Q n a
  | .error e => I.GoodError n e

/-- The end of a run that began in `b` and stayed within the limit. -/
structure Kept {α : Type} (Q : Stage → α → Prop) (b : Bindings)
    (r : Except Error α × Bindings) : Prop where
  grows : b.Extends r.2
  serials : b.fresh ≤ r.2.fresh
  sound : I.Sound r.2
  outcome : I.GoodOutcome Q r.2.stage r.1

/-- An action that stays within the limit once stage `n` is reached. -/
def Keeps {α : Type} (n : Stage) (Q : Stage → α → Prop) (x : Action α) : Prop :=
  ∀ b, n ≤ b.stage → I.Sound b → I.Kept Q b (x.run b)

/-- Two actions that stay within the limit once stage `n` is reached, and that run
alike from there. -/
def Coincide {α : Type} (n : Stage) (Q : Stage → α → Prop) (x x' : Action α) : Prop :=
  ∀ b, n ≤ b.stage → I.Sound b → I.Kept Q b (x.run b) ∧ x'.run b = x.run b

variable {I} {α β : Type} {n : Stage} {Q : Stage → α → Prop} {R : Stage → β → Prop}

/-- What is good at a stage stays good at later ones. -/
theorem Good.mono {m n : Stage} (hmn : m ≤ n) {v : Value} (h : I.Good m v) : I.Good n v :=
  Value.Everywhere.mono (fun _ => I.mono hmn) h

/-- An environment that is good at a stage stays good at later ones. -/
theorem GoodEnv.mono {m n : Stage} (hmn : m ≤ n) {e : Env Value} (h : I.GoodEnv m e) :
    I.GoodEnv n e := by
  obtain ⟨henv, hvalues⟩ := h
  refine ⟨henv, ?_⟩
  intro v hv
  exact (hvalues v hv).mono hmn

/-- The values in a good error are good. -/
theorem GoodError.values {e : Error} (h : I.GoodError n e) :
    ∀ v ∈ e.values, I.Good n v := by
  cases e with
  | notAFunction v => exact List.forall_mem_singleton.2 h
  | invalidDeclaration fault v => exact List.forall_mem_singleton.2 h
  | thrown label payload => exact List.forall_mem_singleton.2 h
  | failed failure =>
    cases failure with
    | missingKey key => exact List.forall_mem_singleton.2 h
    | _ => exact List.forall_mem_nil _
  | _ => exact List.forall_mem_nil _

/-- An error stays good where the values in it do. -/
theorem GoodError.imp {m n : Stage} (himp : ∀ {v}, I.Good m v → I.Good n v) {e : Error}
    (h : I.GoodError m e) : I.GoodError n e := by
  cases e with
  | notAFunction v => exact himp h
  | invalidDeclaration fault v => exact himp h
  | thrown label payload => exact himp h
  | failed failure =>
    cases failure with
    | missingKey key => exact himp h
    | _ => trivial
  | impossible breach => exact h
  | _ => trivial

/-- An error that is good at a stage stays good at later ones. -/
theorem GoodError.mono {m n : Stage} (hmn : m ≤ n) {e : Error} (h : I.GoodError m e) :
    I.GoodError n e :=
  h.imp (Good.mono hmn)

/-- An outcome that is good at a stage stays good at later ones. -/
theorem GoodOutcome.mono {outcome : Except Error α} {m : Stage}
    (hQ : ∀ {m n : Stage}, m ≤ n → ∀ {a : α}, Q m a → Q n a) (hmn : m ≤ n)
    (h : I.GoodOutcome Q m outcome) : I.GoodOutcome Q n outcome := by
  cases outcome with
  | ok a => exact hQ hmn h
  | error e => exact GoodError.mono hmn h

/-- Bindings that take definitions of good values stay good. -/
theorem Sound.define {b : Bindings} (h : I.Sound b) (name : String) {v : Value}
    (hv : I.Good b.stage v) : I.Sound (b.define name v) := by
  refine ⟨⟨I.define h.env.1, ?_⟩, h.refs, h.first⟩
  intro w hw
  rcases Env.mem_values_of_mem_define hw with rfl | hw
  · exact hv
  · exact h.env.2 w hw

/-- A larger store allows no less. -/
theorem Sound.withRefs {b : Bindings} (h : I.Sound b) {refs : Store Value}
    (hlen : b.refs.length ≤ refs.length)
    (hrefs : ∀ v ∈ refs, I.Good ⟨refs.length, b.fresh⟩ v) : I.Sound { b with refs := refs } := by
  have hstage : b.stage ≤ ({ b with refs := refs } : Bindings).stage := ⟨hlen, le_rfl⟩
  exact ⟨h.env.mono hstage, hrefs, h.first⟩

namespace Kept

variable {b : Bindings}

/-- A run does not go back to an earlier stage. -/
theorem stage_le {r : Except Error α × Bindings} (h : I.Kept Q b r) : b.stage ≤ r.2.stage :=
  ⟨h.grows.refs, h.serials⟩

/-- The end of a run that changed nothing. -/
theorem same (hs : I.Sound b) {outcome : Except Error α} (h : I.GoodOutcome Q b.stage outcome) :
    I.Kept Q b (outcome, b) :=
  ⟨.refl b, le_rfl, hs, h⟩

/-- A failed run keeps the invariant whatever was asked of its result. -/
theorem failed {e : Error} {b' : Bindings} (h : I.Kept Q b (.error e, b')) :
    I.Kept R b (.error e, b') :=
  ⟨h.grows, h.serials, h.sound, h.outcome⟩

/-- A run that goes on after a kept one keeps the invariant as a whole. -/
theorem trans {a : α} {b' : Bindings} (h : I.Kept Q b (.ok a, b'))
    {r : Except Error β × Bindings} (h' : I.Kept R b' r) : I.Kept R b r :=
  ⟨h.grows.trans h'.grows, h.serials.trans h'.serials, h'.sound, h'.outcome⟩

end Kept

namespace Keeps

/-- What an action keeps from a stage on it keeps from a later one on. -/
theorem mono {m : Stage} (hmn : m ≤ n) {x : Action α} (h : I.Keeps m Q x) : I.Keeps n Q x :=
  fun b hb hs => h b (hmn.trans hb) hs

/-- A finished action keeps the invariant if its result is good. -/
theorem pure {a : α} (h : ∀ m, n ≤ m → Q m a) : I.Keeps n Q (pure a : Action α) :=
  fun _ hb hs => .same hs (h _ hb)

/-- A failing action keeps the invariant if its error is good. -/
theorem fail {e : Error} (h : I.GoodError n e) : I.Keeps n Q (Action.fail e : Action α) :=
  fun _ hb hs => .same hs (h.mono hb)

/-- A fixed outcome keeps the invariant if it is good. -/
theorem ofExcept {outcome : Except Error α} (h : ∀ m, n ≤ m → I.GoodOutcome Q m outcome) :
    I.Keeps n Q (Action.ofExcept outcome) :=
  fun _ hb hs => .same hs (h _ hb)

/-- Defining a good value keeps the invariant. -/
theorem define {name : String} {v : Value} (hv : I.Good n v) :
    I.Keeps n (fun _ _ => True) (Action.define name v) := by
  intro b hb hs
  have hgrows : b.Extends (b.define name v) := ⟨⟨[(name, v)], rfl⟩, le_rfl⟩
  have hsound : I.Sound (b.define name v) := hs.define name (hv.mono hb)
  exact ⟨hgrows, le_rfl, hsound, trivial⟩

/-- The serial number of a new closure is later than all before it. -/
theorem nextSerial :
    I.Keeps n (fun m serial => n.serials ≤ serial ∧ I.first ≤ serial ∧ serial + 1 ≤ m.serials)
      Action.nextSerial := by
  intro b hb hs
  have hnext : b.stage ≤ ({ b with fresh := b.fresh + 1 } : Bindings).stage :=
    ⟨le_rfl, Nat.le_succ _⟩
  have hgrows : b.Extends { b with fresh := b.fresh + 1 } := ⟨⟨[], rfl⟩, le_rfl⟩
  have hsound : I.Sound { b with fresh := b.fresh + 1 } :=
    ⟨hs.env.mono hnext, fun v hv => (hs.refs v hv).mono hnext, hs.first.trans (Nat.le_succ _)⟩
  exact ⟨hgrows, Nat.le_succ _, hsound, hb.2, hs.first, le_rfl⟩

/-- An action that stays within the limit runs like itself. -/
theorem coincide {x : Action α} (h : I.Keeps n Q x) : I.Coincide n Q x x :=
  fun b hb hs => ⟨h b hb hs, rfl⟩

end Keeps

namespace Coincide

/-- The first of two coinciding actions keeps the invariant. -/
theorem keeps {x x' : Action α} (h : I.Coincide n Q x x') : I.Keeps n Q x :=
  fun b hb hs => (h b hb hs).1

/-- Coinciding actions run the same on sound bindings. -/
theorem run_eq {x x' : Action α} (h : I.Coincide n Q x x') {b : Bindings} (hb : n ≤ b.stage)
    (hs : I.Sound b) : x'.run b = x.run b :=
  (h b hb hs).2

/-- Actions that coincide from a stage on coincide from a later one on. -/
theorem mono {m : Stage} (hmn : m ≤ n) {x x' : Action α} (h : I.Coincide m Q x x') :
    I.Coincide n Q x x' :=
  fun b hb hs => h b (hmn.trans hb) hs

/-- A finished action coincides with itself if its result is good. -/
theorem pure {a : α} (h : ∀ m, n ≤ m → Q m a) :
    I.Coincide n Q (pure a : Action α) (Pure.pure a) :=
  (Keeps.pure h).coincide

/-- A failing action coincides with itself if its error is good. -/
theorem fail {e : Error} (h : I.GoodError n e) :
    I.Coincide n Q (Action.fail e : Action α) (Action.fail e) :=
  (Keeps.fail h).coincide

/-- Defining a good value coincides with itself. -/
theorem define {name : String} {v : Value} (hv : I.Good n v) :
    I.Coincide n (fun _ _ => True) (Action.define name v) (Action.define name v) :=
  (Keeps.define hv).coincide

/-- **Running one action after another stays within the limit.**  The second
starts at the stage that the first ended at. -/
theorem bind {x x' : Action α} {next next' : α → Action β} (hx : I.Coincide n Q x x')
    (hnext : ∀ m a, n ≤ m → Q m a → I.Coincide m R (next a) (next' a)) :
    I.Coincide n R (x >>= next) (x' >>= next') := by
  intro b hb hs
  obtain ⟨hkept, hrun⟩ := hx b hb hs
  rw [Action.run_bind, Action.run_bind, hrun]
  rcases hr : x.run b with ⟨_ | a, b'⟩ <;> rw [hr] at hkept
  · exact ⟨hkept.failed, rfl⟩
  · have hgoes := hnext _ a (hb.trans hkept.stage_le) hkept.outcome b' le_rfl hkept.sound
    exact ⟨hkept.trans hgoes.1, hgoes.2⟩

/-- Actions that look at the bindings first may use that they are good. -/
theorem get_bind {next next' : Bindings → Action β}
    (hnext : ∀ b, n ≤ b.stage → I.Sound b → I.Coincide b.stage R (next b) (next' b)) :
    I.Coincide n R (Action.get >>= next) (Action.get >>= next') :=
  fun b hb hs => hnext b hb hs b le_rfl hs

/-- The outcome of an action as a value is good, whether it is an error or not. -/
theorem outcome {x x' : Action α} (hx : I.Coincide n Q x x') :
    I.Coincide n (I.GoodOutcome Q) x.outcome x'.outcome := by
  intro b hb hs
  obtain ⟨hkept, hrun⟩ := hx b hb hs
  have houtcome : x'.outcome.run b = x.outcome.run b :=
    congrArg (fun r => (Except.ok r.1, r.2)) hrun
  exact ⟨⟨hkept.grows, hkept.serials, hkept.sound, hkept.outcome⟩, houtcome⟩

/-- An action that runs in another environment leaves that of its caller. -/
theorem within {e : Env Value} (he : I.GoodEnv n e) {x x' : Action α} (hx : I.Coincide n Q x x') :
    I.Coincide n Q (Action.within e x) (Action.within e x') := by
  intro b hb hs
  have hinner : I.Sound { b with env := e } := ⟨he.mono hb, hs.refs, hs.first⟩
  obtain ⟨hkept, hrun⟩ := hx { b with env := e } hb hinner
  -- The environment is back; of what the action did, the store is left.
  have houter := hs.env.mono hkept.stage_le
  have hwithin : (Action.within e x').run b = (Action.within e x).run b :=
    congrArg (fun r => (r.1, { r.2 with env := b.env })) hrun
  refine ⟨⟨⟨⟨[], rfl⟩, hkept.grows.refs⟩, hkept.serials, ?_, hkept.outcome⟩, hwithin⟩
  exact ⟨houter, hkept.sound.refs, hkept.sound.first⟩

end Coincide
end Invariant
end CapLisp
