/-
# Closures are numbered in order

A closure gets its serial number when it is built, after everything in its code
and its scope.  So the numbers inside a closure are earlier than its own, and
every number is below the next one to be given out (`Bindings.Numbered`).
Evaluation keeps this, and the search for a closure, which passes over closures
that are not later, therefore finds it wherever it is (`Value.Numbered.holds`).

What a value holds from before a run matters to the run only if the run can get
hold of it.  A program that starts from some bindings gets hold of the closures
inside these and of new ones.  Whether another value is held, too, makes no
difference to it: the former are held by the bindings already, and the latter
are in no value from before (`Interpreter.evalHolding_eq_eval`).
-/

import CapLisp.Proofs.Invariant.Hosts
import CapLisp.Proofs.Invariant.Session

namespace CapLisp
namespace Value

/-- The closure of a function value, recursive or not. -/
def closure? : Value → Option (Closure Value)
  | lambda fn => some fn
  | lambdaRec _ fn => some fn
  | _ => none

/-- Tells that a value is a closure, recursive or not. -/
def IsLambda (v : Value) : Prop := v.closure?.isSome = true

/-- Tells that every closure inside a value has a serial number below `k`. -/
def NumberedBelow (k : Nat) (v : Value) : Prop :=
  v.Everywhere fun w => ∀ fn, w.closure? = some fn → fn.serial < k

/-- Tells that a closure has a serial number below `k`, and those inside it have
earlier ones. -/
def isNumbered (k : Nat) (v : Value) : Prop :=
  ∀ fn, v.closure? = some fn → fn.serial < k ∧ ∀ u ∈ closureParts fn, u.NumberedBelow fn.serial

/-- Tells that the closures inside a value are numbered in order, below `k`. -/
def Numbered (k : Nat) (v : Value) : Prop := v.Everywhere (isNumbered k)

variable {k : Nat} {v : Value}

/-- Numbers below a bound are below it. -/
theorem Numbered.below (h : v.Numbered k) : v.NumberedBelow k :=
  Everywhere.mono (fun _ hw fn hfn => (hw fn hfn).1) h

/-- A part is searched unless the value is an older closure. -/
theorem mem_laterParts {serial : Nat} {u : Value} (hu : u ∈ v.parts)
    (hlater : ∀ fn, v.closure? = some fn → serial < fn.serial) : u ∈ v.laterParts serial := by
  cases v with
  | lambda fn =>
    rw [laterParts, if_pos (hlater fn rfl)]
    exact hu
  | lambdaRec name fn =>
    rw [laterParts, if_pos (hlater fn rfl)]
    exact hu
  | _ => exact hu

/-- **The search finds every closure** inside a value that is numbered in order. -/
theorem Numbered.holds (h : v.Numbered k) {fn : Closure Value} (hfn : Inside (.lambda fn) v) :
    v.holds fn.serial = true := by
  induction hfn with
  | here =>
    rw [holds_eq, isClosure, beq_self_eq_true, Bool.true_or]
  | @part u v hu hinside ih =>
    have hlater : ∀ g, v.closure? = some g → fn.serial < g.serial := by
      intro g hg
      have hparts : u ∈ closureParts g := by
        cases v <;> first | cases hg; exact hu | cases hg
      have hbelow := (h.here g hg).2 u hparts
      exact everywhere_iff_inside.1 hbelow _ hinside fn rfl
    rw [holds_eq, Bool.or_eq_true, List.any_eq_true]
    exact Or.inr ⟨u, mem_laterParts hu hlater, ih (h.inside u hu)⟩

/-- A value whose closures are all earlier does not hold a closure. -/
theorem NumberedBelow.holds_eq_false (h : v.NumberedBelow k) {serial : Nat} (hk : k ≤ serial) :
    v.holds serial = false := by
  induction h with
  | @intro v here _ ih =>
    have hother : v.isClosure serial = false := by
      cases v with
      | lambda fn =>
        have hlt : fn.serial < k := here fn rfl
        exact beq_false_of_ne (by omega)
      | _ => rfl
    rw [holds_eq, hother, Bool.false_or, List.any_eq_false]
    intro u hu
    rw [ih u (laterParts_subset serial v hu)]
    exact Bool.false_ne_true

/-- What is no closure has no number to check. -/
theorem isNumbered_of_closure? (h : v.closure? = none) : v.isNumbered k := by
  intro fn hfn
  rw [h] at hfn
  cases hfn

end Value

/-- Tells that the closures in bindings are numbered in order, below the next
number. -/
structure Bindings.Numbered (b : Bindings) : Prop where
  env : ∀ v ∈ b.env.values, v.Numbered b.fresh
  refs : ∀ v ∈ b.refs, v.Numbered b.fresh

/-- The state of numbered bindings is numbered below the next free number. -/
theorem Bindings.Numbered.state {b : Bindings} (h : b.Numbered) :
    (Value.state b.intoState).Numbered b.fresh :=
  Value.everywhere_state.2 ⟨Value.isNumbered_of_closure? rfl, h.env, h.refs⟩

/-- Empty bindings are numbered. -/
theorem Bindings.numbered_empty : Bindings.empty.Numbered :=
  ⟨List.forall_mem_nil _, List.forall_mem_nil _⟩

namespace Invariant

/-! ### Numbering is kept -/

/-- The limit that the supply of serial numbers sets. -/
def numbering (table : Table) : Invariant table where
  value n v := v.isNumbered n.serials
  env _ := True
  breach _ := True
  mono hmn h fn hfn := ⟨(h fn hfn).1.trans_le hmn.2, (h fn hfn).2⟩
  detached _ _ _ _ hmn h fn hfn := ⟨(h fn hfn).1.trans_le hmn, (h fn hfn).2⟩
  data {_ v} hd := by
    refine Value.isNumbered_of_closure? ?_
    cases v <;> first | rfl | cases hd
  lambda {n fn} hserial _ hinside := by
    rintro _ ⟨⟩
    refine ⟨hserial ▸ Nat.lt_succ_self _, ?_⟩
    -- What is inside the closure was numbered before it.
    rw [hserial]
    intro u hu
    exact Value.Numbered.below (Value.forall_mem_closureParts.2 hinside u hu)
  lambdaRec h _ hfn := h _ hfn
  quote := nofun
  primFn _ := nofun
  ref _ := nofun
  dict_nil := nofun
  dict_insert _ := nofun
  env_value _ := nofun
  state_env _ := trivial
  frozen := nofun
  continued _ _ := nofun
  persistent := trivial
  define _ := trivial
  thaw _ := trivial
  unknownPrimitive _ _ := trivial
  danglingReference _ _ := trivial

variable {table : Table}

/-- Only closures are limited by their numbers. -/
theorem limitsOnly_numbering : (numbering table).LimitsOnly Value.IsLambda where
  value h := Value.isNumbered_of_closure? (Option.not_isSome_iff_eq_none.1 h)
  breach _ := trivial

/-- Bindings are sound for the numbering exactly if they are numbered. -/
theorem sound_numbering {b : Bindings} : (numbering table).Sound b ↔ b.Numbered := by
  constructor
  · intro h
    exact ⟨h.env.2, h.refs⟩
  · intro h
    exact ⟨⟨trivial, h.env⟩, h.refs, Nat.zero_le _⟩

/-! ### Closures that a run gets hold of -/

/-- The limit of a run that starts where the next serial number is `k`: it gets
hold of new closures and of those that the values in `kept` hold. -/
def known (table : Table) (kept : List Value) (k : Nat) : Invariant table where
  value _ v := ∀ fn, v = .lambda fn → k ≤ fn.serial ∨ kept.any (Value.holds fn.serial) = true
  env _ := True
  breach _ := True
  first := k
  mono _ h := h
  detached _ _ _ _ _ h := h
  data hd fn he := by rw [he] at hd; cases hd
  lambda hserial hfirst _ := by
    rintro _ ⟨⟩
    exact Or.inl (hserial ▸ hfirst)
  lambdaRec _ := nofun
  quote := nofun
  primFn _ := nofun
  ref _ := nofun
  dict_nil := nofun
  dict_insert _ := nofun
  env_value _ := nofun
  state_env _ := trivial
  frozen := nofun
  continued _ _ := nofun
  persistent := trivial
  define _ := trivial
  thaw _ := trivial
  unknownPrimitive _ _ := trivial
  danglingReference _ _ := trivial

variable {kept : List Value} {k : Nat}

/-- Only closures are limited by what is known of them. -/
theorem limitsOnly_known : (known table kept k).LimitsOnly Value.IsLambda where
  value h _ he := absurd (he ▸ rfl) h
  breach _ := trivial

/-- A value inside one of those kept is within the limit. -/
theorem good_known {n : Stage} {v u : Value} (hu : u ∈ kept) (hnumbered : u.Numbered k)
    (hv : Value.Inside v u) : (known table kept k).Good n v := by
  refine Value.everywhere_iff_inside.2 fun w hw => ?_
  rintro _ rfl
  exact Or.inr (List.any_eq_true.2 ⟨u, hu, hnumbered.holds (hv.trans hw)⟩)

/-- Bindings are within the limit where a snapshot of them is kept. -/
theorem sound_known {b : Bindings} (hb : b.Numbered) (hkept : .state b.intoState ∈ kept) :
    (known table kept b.fresh).Sound b := by
  have hgood : ∀ v ∈ (Value.state b.intoState).parts, (known table kept b.fresh).Good b.stage v :=
    fun v hv => good_known hkept hb.state (.part hv .here)
  refine ⟨⟨trivial, ?_⟩, ?_, le_rfl⟩
  · intro v hv
    exact hgood v (List.mem_append_left _ hv)
  · intro v hv
    exact hgood v (List.mem_append_right _ hv)

/-- Values from before the run make no difference beside those kept. -/
theorem heldAlike_known {held : List Value} (hheld : ∀ v ∈ held, v.NumberedBelow k) :
    (known table kept k).HeldAlike (kept ++ held) kept := by
  intro n fn _ hfn
  rw [List.any_append]
  rcases hfn.here fn rfl with hnew | hkept
  · have hnone : held.any (Value.holds fn.serial) = false := by
      rw [List.any_eq_false]
      intro v hv
      rw [(hheld v hv).holds_eq_false hnew]
      exact Bool.false_ne_true
    rw [hnone, Bool.or_false]
  · rw [hkept, Bool.true_or]

end Invariant

namespace Interpreter

open Invariant

/-- **What is held besides the bindings makes no difference to a form**, as long as
its closures were numbered before. -/
theorem evalHolding_eq_eval {i : Interpreter} (htable : i.table.HandsOn Value.IsLambda)
    (hi : i.bindings.Numbered) {form : Value} (hform : form.Numbered i.bindings.fresh)
    {held : List Value} (hheld : ∀ v ∈ held, v.NumberedBelow i.bindings.fresh) :
    i.evalHolding held form = i.eval form := by
  obtain ⟨table, b⟩ := i
  let kept : List Value := [form, .state b.intoState]
  let I := known table kept b.fresh
  have hhosts : I.GoodHosts := limitsOnly_known.goodHosts htable
  have hsound : I.Sound b := sound_known hi (by simp [kept])
  have hgoodForm : I.Good b.stage form := good_known (by simp [kept]) hform .here
  have hruns := (coincideEval_eval hhosts maxEvalDepth b.stage _ _ form
    (heldAlike_known hheld) hgoodForm).run_eq le_rfl hsound
  have heval : Eval.eval maxEvalDepth ⟨table, form :: .state b.intoState :: held⟩ form b =
      Eval.eval maxEvalDepth ⟨table, form :: [.state b.intoState]⟩ form b := hruns.symm
  simp only [eval, evalHolding, heval]

end Interpreter
end CapLisp
