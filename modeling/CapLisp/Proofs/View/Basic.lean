/-
# Views of values

A view maps a value to a normal form that drops what does not count, at every
depth.  Two values with the same view differ in nothing else.

| detail | what the view drops |
| --- | --- |
| `full` | the serial numbers of closures |
| `visible` | besides, shadowed frames and the variant of environments |

The view of an environment is its persistent form under `visible`: a mutable
environment comes out as the chain that would bind the same names in the same
order.  That is the shape in which transport brings an environment back.
-/

import CapLisp.Proofs.Everywhere
import CapLisp.Sequence

namespace CapLisp

/-- How much of a value counts. -/
inductive Detail where
  | full
  | visible
  deriving DecidableEq

namespace Detail

variable {α : Type}

/-- The frames of a chain that count. -/
def chain (frames : Chain α) : Detail → Chain α
  | full => frames
  | visible => Chain.newest [] frames

/-- The environment as far as it counts. -/
def env (e : Env α) : Detail → Env α
  | full => e
  | visible => .persistent (Chain.newest [] e.freeze)

/-- A normal form binds the same names in the same order. -/
theorem bindings_env {e : Env α} {d : Detail} (h : d = visible → e.Distinct) :
    (d.env e).bindings = e.bindings := by
  cases d with
  | full => rfl
  | visible =>
    show (Chain.newest [] (Chain.newest [] e.freeze)).reverse = e.bindings
    rw [Chain.newest_newest, Env.newest_freeze (h rfl), List.reverse_reverse]

/-- A normal form has as many names. -/
theorem size_env {e : Env α} {d : Detail} (h : d = visible → e.Distinct) :
    (d.env e).size = e.size := by
  rw [Env.size, Env.size, bindings_env h]

/-- A normal form gives the same look-ups. -/
theorem lookup_env {e : Env α} {d : Detail} (h : d = visible → e.Distinct) (name : String) :
    (d.env e).lookup name = e.lookup name := by
  cases d with
  | full => rfl
  | visible =>
    have hn : (visible.env e).Distinct := trivial
    rw [← Env.lookup_bindings _ name hn, bindings_env h, Env.lookup_bindings _ name (h rfl)]

end Detail

namespace Value

mutual

/-- The view of a value. -/
def view (d : Detail) : Value → Value
  | list items => list (viewAll d items)
  | vector items => vector (viewAll d items)
  | dict entries => dict (viewEntries d entries)
  | lambda fn => lambda (viewClosure d fn)
  | lambdaRec name fn => lambdaRec name (viewClosure d fn)
  | env e => env (viewEnv d e)
  | state s => state (viewState d s)
  | v => v
termination_by structural v => v

/-- The views of the elements. -/
def viewAll (d : Detail) : List Value → List Value
  | [] => []
  | item :: rest => view d item :: viewAll d rest
termination_by structural items => items

/-- The views of the entries. -/
def viewEntries (d : Detail) : List (Value × Value) → List (Value × Value)
  | [] => []
  | (key, value) :: rest => (view d key, view d value) :: viewEntries d rest
termination_by structural entries => entries

/-- The views of the frames. -/
def viewFrames (d : Detail) : List (String × Value) → List (String × Value)
  | [] => []
  | (name, value) :: rest => (name, view d value) :: viewFrames d rest
termination_by structural frames => frames

/-- The view of a closure. -/
def viewClosure (d : Detail) : Closure Value → Closure Value
  | ⟨_, params, bodies, scope⟩ => ⟨0, params, viewAll d bodies, d.chain (viewFrames d scope)⟩
termination_by structural fn => fn

/-- The view of an environment. -/
def viewEnv (d : Detail) : Env Value → Env Value
  | .persistent frames => d.env (.persistent (viewFrames d frames))
  | .mutable bindings => d.env (.mutable (viewFrames d bindings))
termination_by structural e => e

/-- The view of a state. -/
def viewState (d : Detail) : State Value → State Value
  | ⟨e, refs⟩ => ⟨viewEnv d e, viewAll d refs⟩
termination_by structural s => s

end

variable (d : Detail)

/-- The view of an entry. -/
def viewEntry (entry : Value × Value) : Value × Value := (entry.1.view d, entry.2.view d)

/-- Elements are looked at one by one. -/
@[simp] theorem viewAll_eq_map (items : List Value) : viewAll d items = items.map (view d) := by
  induction items with
  | nil => rw [viewAll, List.map_nil]
  | cons item rest ih => rw [viewAll, ih, List.map_cons]

/-- Entries are looked at one by one. -/
@[simp] theorem viewEntries_eq_map (entries : List (Value × Value)) :
    viewEntries d entries = entries.map (viewEntry d) := by
  induction entries with
  | nil => rw [viewEntries, List.map_nil]
  | cons entry rest ih => rw [viewEntries, ih, List.map_cons]; rfl

/-- Frames are looked at one by one. -/
@[simp] theorem viewFrames_eq_map (frames : List (String × Value)) :
    viewFrames d frames = mapFrames (view d) frames := by
  induction frames with
  | nil => rw [viewFrames, mapFrames_nil]
  | cons frame rest ih => rw [viewFrames, ih, mapFrames_cons]

/-- An environment is looked at as far as it counts, value by value. -/
theorem viewEnv_eq (e : Env Value) : viewEnv d e = d.env (e.map (view d)) := by
  cases e with
  | persistent frames => exact congrArg (d.env ∘ .persistent) (viewFrames_eq_map d frames)
  | mutable bindings => exact congrArg (d.env ∘ .mutable) (viewFrames_eq_map d bindings)

/-- A state is looked at through its environment and its slots. -/
theorem viewState_eq (s : State Value) :
    viewState d s = ⟨viewEnv d s.env, s.refs.map (view d)⟩ := by
  obtain ⟨e, refs⟩ := s
  rw [viewState, viewAll_eq_map]

/-- A closure is looked at without its number, and its scope as far as it counts. -/
theorem viewClosure_eq (fn : Closure Value) :
    viewClosure d fn =
      ⟨0, fn.params, fn.bodies.map (view d), d.chain (mapFrames (view d) fn.scope)⟩ := by
  obtain ⟨serial, params, bodies, scope⟩ := fn
  rw [viewClosure, viewAll_eq_map, viewFrames_eq_map]

/-- What the view relies on: under `visible`, an environment lists each name once. -/
def isRegular : Value → Prop
  | env e => d = .visible → e.Distinct
  | state s => d = .visible → s.env.Distinct
  | _ => True

/-- A value whose environments list each name once, as far as that counts. -/
def Regular (v : Value) : Prop := v.Everywhere (isRegular d)

/-! ### Kind by kind -/

/-- An atom is all there is to see. -/
@[simp] theorem view_atom (name : String) : (atom name).view d = atom name := rfl

/-- A keyword is all there is to see. -/
@[simp] theorem view_keyword (name : String) : (keyword name).view d = keyword name := rfl

/-- A string is all there is to see. -/
@[simp] theorem view_string (text : String) : (string text).view d = string text := rfl

/-- A number is all there is to see. -/
@[simp] theorem view_number (n : Int64) : (number n).view d = number n := rfl

/-- A boolean is all there is to see. -/
@[simp] theorem view_bool (b : Bool) : (bool b).view d = bool b := rfl

/-- Null is all there is to see. -/
@[simp] theorem view_null : null.view d = null := rfl

/-- The name of a primitive is all there is to see. -/
@[simp] theorem view_primFn (name : String) : (primFn name).view d = primFn name := rfl

/-- The index of a reference is all there is to see. -/
@[simp] theorem view_ref (index : UInt64) : (ref index).view d = ref index := rfl

/-- A list is seen through its elements. -/
@[simp] theorem view_list (items : List Value) :
    (list items).view d = list (items.map (view d)) :=
  congrArg list (viewAll_eq_map d items)

/-- A vector is seen through its elements. -/
@[simp] theorem view_vector (items : List Value) :
    (vector items).view d = vector (items.map (view d)) :=
  congrArg vector (viewAll_eq_map d items)

/-- A dictionary is seen through its entries. -/
@[simp] theorem view_dict (entries : List (Value × Value)) :
    (dict entries).view d = dict (entries.map (viewEntry d)) :=
  congrArg dict (viewEntries_eq_map d entries)

/-- A closure as a value is seen as the closure. -/
@[simp] theorem view_lambda (fn : Closure Value) :
    (lambda fn).view d = lambda (viewClosure d fn) := rfl

/-- A recursive closure is seen as the closure under its name. -/
@[simp] theorem view_lambdaRec (name : String) (fn : Closure Value) :
    (lambdaRec name fn).view d = lambdaRec name (viewClosure d fn) := rfl

/-- An environment as a value is seen as the environment. -/
@[simp] theorem view_env (e : Env Value) : (env e).view d = env (viewEnv d e) := rfl

/-- A state as a value is seen as the state. -/
@[simp] theorem view_state (s : State Value) : (state s).view d = state (viewState d s) := rfl

/-- Looking at less of a value keeps its kind. -/
@[simp] theorem kind_view (v : Value) : (v.view d).kind = v.kind := by cases v <;> rfl

end Value
end CapLisp
