/-
# Equality of values

Values are compared by structure.

| kind | equal when |
| --- | --- |
| list, vector | same length, equal elements in order |
| dict | same number of entries, each key of the left bound to an equal value on the right |
| closure | same parameters and equal bodies; scopes are not compared |
| recursive closure | same name and equal closures |
| environment | same number of names, each name bound to equal values |
| state | equal environments and equal slots |

Neither the order of dict entries nor the variant and order of an environment
counts.  A list never equals a vector.
-/

import CapLisp.Value.Basic

namespace CapLisp
namespace Value

mutual

/-- Structural equality. -/
def beq : Value → Value → Bool
  | atom a, atom b => a == b
  | keyword a, keyword b => a == b
  | string a, string b => a == b
  | number a, number b => a == b
  | bool a, bool b => a == b
  | null, null => true
  | list a, list b => beqAll a b
  | vector a, vector b => beqAll a b
  | dict a, dict b => a.length == b.length && beqEntries a b
  | lambda a, lambda b => beqClosure a b
  | lambdaRec m a, lambdaRec n b => m == n && beqClosure a b
  | primFn a, primFn b => a == b
  | ref a, ref b => a == b
  | env a, env b => beqEnv a b
  | state a, state b => beqState a b
  | _, _ => false
termination_by structural a => a

/-- Equality of element lists, position by position. -/
def beqAll : List Value → List Value → Bool
  | [], [] => true
  | a :: as, b :: bs => beq a b && beqAll as bs
  | _, _ => false
termination_by structural a => a

/-- Tells whether each entry has an equal key in `other`, bound to an equal value. -/
def beqEntries : List (Value × Value) → List (Value × Value) → Bool
  | [], _ => true
  | (key, value) :: rest, other =>
    other.any (fun entry => beq key entry.1 && beq value entry.2) && beqEntries rest other
termination_by structural a => a

/-- Equality of closures: parameters and bodies. -/
def beqClosure : Closure Value → Closure Value → Bool
  | ⟨_, params, bodies, _⟩, other => params == other.params && beqAll bodies other.bodies
termination_by structural a => a

/-- Tells whether each binding not shadowed by `seen` is bound to an equal value in `other`. -/
def beqScope : List (String × Value) → List String → Env Value → Bool
  | [], _, _ => true
  | (name, value) :: rest, seen, other =>
    if name ∈ seen then beqScope rest seen other
    else
      (match other.lookup name with
        | some found => beq value found
        | none => false) && beqScope rest (name :: seen) other
termination_by structural a => a

/-- Equality of environments by their visible bindings. -/
def beqEnv : Env Value → Env Value → Bool
  | .persistent frames, other =>
    (Env.persistent frames).size == other.size && beqScope frames [] other
  | .mutable bindings, other => bindings.length == other.size && beqScope bindings [] other
termination_by structural a => a

/-- Equality of states: environments and slots. -/
def beqState : State Value → State Value → Bool
  | ⟨e, refs⟩, other => beqEnv e other.env && beqAll refs other.refs
termination_by structural a => a

end

mutual

/-- **Every value equals itself.** -/
theorem beq_self : (v : Value) → beq v v = true
  | atom _ => by simp [beq]
  | keyword _ => by simp [beq]
  | string _ => by simp [beq]
  | number _ => by simp [beq]
  | bool _ => by simp [beq]
  | null => by simp [beq]
  | list items => by simpa [beq] using beqAll_self items
  | vector items => by simpa [beq] using beqAll_self items
  | dict entries => by simpa [beq] using beqEntries_of_subset entries entries fun _ h => h
  | lambda fn => by simpa [beq] using beqClosure_self fn
  | lambdaRec _ fn => by simpa [beq] using beqClosure_self fn
  | primFn _ => by simp [beq]
  | ref _ => by simp [beq]
  | env e => by simpa [beq] using beqEnv_self e
  | state s => by simpa [beq] using beqState_self s
termination_by structural v => v

/-- Every element list equals itself. -/
theorem beqAll_self : (items : List Value) → beqAll items items = true
  | [] => by simp [beqAll]
  | item :: rest => by simp [beqAll, beq_self item, beqAll_self rest]
termination_by structural items => items

/-- Entries are found among entries that include them. -/
theorem beqEntries_of_subset : (entries other : List (Value × Value)) → entries ⊆ other →
    beqEntries entries other = true
  | [], _, _ => by simp [beqEntries]
  | (key, value) :: rest, other, h => by
    have hmem : (key, value) ∈ other := h (List.mem_cons_self ..)
    have hrest := beqEntries_of_subset rest other fun _ hx => h (List.mem_cons_of_mem _ hx)
    rw [beqEntries, hrest, Bool.and_true, List.any_eq_true]
    exact ⟨_, hmem, by simp [beq_self key, beq_self value]⟩
termination_by structural entries => entries

/-- Every closure equals itself. -/
theorem beqClosure_self : (fn : Closure Value) → beqClosure fn fn = true
  | ⟨_, _, bodies, _⟩ => by simp [beqClosure, beqAll_self bodies]
termination_by structural fn => fn

/-- Bindings agree with an environment that binds their visible names alike. -/
theorem beqScope_of_lookup : (bindings : List (String × Value)) → (seen : List String) →
    (other : Env Value) →
    (∀ name value, name ∉ seen → bindings.lookup name = some value →
      other.lookup name = some value) →
    beqScope bindings seen other = true
  | [], _, _, _ => by simp [beqScope]
  | (name, value) :: rest, seen, other, h => by
    by_cases hn : name ∈ seen
    · rw [beqScope, if_pos hn]
      refine beqScope_of_lookup rest seen other fun key found hk hf => h key found hk ?_
      have hne : (key == name) = false := beq_false_of_ne fun he => hk (he ▸ hn)
      simpa [List.lookup_cons, hne] using hf
    · have hv : other.lookup name = some value := h name value hn (by simp)
      rw [beqScope, if_neg hn, hv]
      simp only [beq_self value, Bool.true_and]
      refine beqScope_of_lookup rest (name :: seen) other fun key found hk hf => ?_
      have hne : (key == name) = false :=
        beq_false_of_ne fun he => hk (he ▸ List.mem_cons_self ..)
      refine h key found (fun hs => hk (List.mem_cons_of_mem _ hs)) ?_
      simpa [List.lookup_cons, hne] using hf
termination_by structural bindings => bindings

/-- Every environment equals itself. -/
theorem beqEnv_self : (e : Env Value) → beqEnv e e = true
  | .persistent frames => by
    simp only [beqEnv, beq_self_eq_true, Bool.true_and]
    exact beqScope_of_lookup frames [] _ fun _ _ _ h => h
  | .mutable bindings => by
    simp only [beqEnv, Env.size, Env.bindings, beq_self_eq_true, Bool.true_and]
    exact beqScope_of_lookup bindings [] _ fun _ _ _ h => h
termination_by structural e => e

/-- Every state equals itself. -/
theorem beqState_self : (s : State Value) → beqState s s = true
  | ⟨e, refs⟩ => by simp [beqState, beqEnv_self e, beqAll_self refs]
termination_by structural s => s

end

end Value
end CapLisp
