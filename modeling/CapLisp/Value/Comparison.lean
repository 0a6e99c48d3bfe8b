/-
# Comparing values

Values share their parts: `(def x [x x])` forty times makes a value of forty
vectors, though written out it has more elements than any walk could visit.
`equal` decides equality of values and passes over two parts that are one and
the same object in memory, since every value equals itself (`beq_self`).

Each comparison returns its answer together with the proof that it is the one
that structural equality gives, so what happens to be shared is never seen in
an answer.
-/

import CapLisp.Value.Equality

namespace CapLisp
namespace Value

/-- The answer of `answer`, unless the two values are one object in memory. -/
@[inline] def shortcut (a b : Value) (answer : Unit → { r : Bool // r = beq a b }) :
    { r : Bool // r = beq a b } :=
  ⟨withPtrEq a b (fun _ => (answer ()).val)
    (fun h => (answer ()).property.trans (h ▸ beq_self a)), (answer ()).property⟩

mutual

/-- Decides the equality of two values. -/
def equal (a b : Value) : { r : Bool // r = beq a b } :=
  shortcut a b fun _ =>
    match a, b with
    | list a, list b => ⟨(equalAll a b).val, by rw [beq, (equalAll a b).property]⟩
    | vector a, vector b => ⟨(equalAll a b).val, by rw [beq, (equalAll a b).property]⟩
    | dict a, dict b =>
      ⟨a.length == b.length && (equalEntries a b).val, by rw [beq, (equalEntries a b).property]⟩
    | lambda a, lambda b => ⟨(equalClosure a b).val, by rw [beq, (equalClosure a b).property]⟩
    | lambdaRec m a, lambdaRec n b =>
      ⟨m == n && (equalClosure a b).val, by rw [beq, (equalClosure a b).property]⟩
    | env a, env b => ⟨(equalEnv a b).val, by rw [beq, (equalEnv a b).property]⟩
    | state a, state b => ⟨(equalState a b).val, by rw [beq, (equalState a b).property]⟩
    | a, b => ⟨beq a b, rfl⟩
termination_by structural a

/-- Decides the equality of two element lists. -/
def equalAll : (as bs : List Value) → { r : Bool // r = beqAll as bs }
  | [], [] => ⟨true, by rw [beqAll]⟩
  | a :: as, b :: bs =>
    ⟨(equal a b).val && (equalAll as bs).val,
      by rw [beqAll, (equal a b).property, (equalAll as bs).property]⟩
  | [], _ :: _ => ⟨false, by simp [beqAll]⟩
  | _ :: _, [] => ⟨false, by simp [beqAll]⟩
termination_by structural as => as

/-- Decides whether each entry has an equal one in `other`. -/
def equalEntries : (entries other : List (Value × Value)) →
    { r : Bool // r = beqEntries entries other }
  | [], _ => ⟨true, by rw [beqEntries]⟩
  | (key, value) :: rest, other =>
    ⟨other.any (fun entry => (equal key entry.1).val && (equal value entry.2).val) &&
        (equalEntries rest other).val, by
      rw [beqEntries, (equalEntries rest other).property]
      congr 2
      funext entry
      rw [(equal key entry.1).property, (equal value entry.2).property]⟩
termination_by structural entries => entries

/-- Decides the equality of two closures. -/
def equalClosure : (a b : Closure Value) → { r : Bool // r = beqClosure a b }
  | ⟨_, params, bodies, _⟩, b =>
    ⟨params == b.params && (equalAll bodies b.bodies).val,
      by rw [beqClosure, (equalAll bodies b.bodies).property]⟩
termination_by structural a => a

/-- Decides whether the bindings not shadowed by `seen` agree with an environment. -/
def equalScope : (bindings : List (String × Value)) → (seen : List String) →
    (other : Env Value) → { r : Bool // r = beqScope bindings seen other }
  | [], _, _ => ⟨true, by rw [beqScope]⟩
  | (name, value) :: rest, seen, other =>
    if h : name ∈ seen then
      ⟨(equalScope rest seen other).val,
        by rw [beqScope, if_pos h, (equalScope rest seen other).property]⟩
    else
      match hf : other.lookup name with
      | some found =>
        ⟨(equal value found).val && (equalScope rest (name :: seen) other).val, by
          rw [beqScope, if_neg h, hf, (equal value found).property,
            (equalScope rest (name :: seen) other).property]⟩
      | none => ⟨false, by rw [beqScope, if_neg h, hf]; rfl⟩
termination_by structural bindings => bindings

/-- Decides the equality of two environments. -/
def equalEnv : (a b : Env Value) → { r : Bool // r = beqEnv a b }
  | .persistent frames, b =>
    ⟨(Env.persistent frames).size == b.size && (equalScope frames [] b).val,
      by rw [beqEnv, (equalScope frames [] b).property]⟩
  | .mutable bindings, b =>
    ⟨bindings.length == b.size && (equalScope bindings [] b).val,
      by rw [beqEnv, (equalScope bindings [] b).property]⟩
termination_by structural a => a

/-- Decides the equality of two states. -/
def equalState : (a b : State Value) → { r : Bool // r = beqState a b }
  | ⟨e, refs⟩, b =>
    ⟨(equalEnv e b.env).val && (equalAll refs b.refs).val,
      by rw [beqState, (equalEnv e b.env).property, (equalAll refs b.refs).property]⟩
termination_by structural a => a

end

instance : BEq Value := ⟨fun a b => (equal a b).val⟩

instance : BEq (Env Value) := ⟨fun a b => (equalEnv a b).val⟩

/-- Values are compared structurally. -/
theorem beq_eq (a b : Value) : (a == b) = beq a b := (equal a b).property

/-- Environments are compared structurally. -/
theorem beq_env_eq (a b : Env Value) : (a == b) = beqEnv a b := (equalEnv a b).property

end Value
end CapLisp
