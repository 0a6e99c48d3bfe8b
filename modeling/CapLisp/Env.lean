/-
# Environments

An environment binds names to values.  There are two variants.

| variant | what `define` does | order of the visible bindings |
| --- | --- | --- |
| persistent | puts a frame in front; older frames stay | by newest definition |
| mutable | replaces the value in its place | by first definition |

A persistent environment is a chain of frames, newest first, and a look-up
takes the first frame of its name.  The frames behind it are shadowed: no
look-up sees them, yet the chain still holds their values.  Closures capture
chains, so a later `define` never reaches them.
-/

namespace CapLisp

/-- The frames of a persistent environment, newest first. -/
abbrev Chain (α : Type) := List (String × α)

/-- The bindings of a mutable environment, each name once, in definition order. -/
abbrev Flat (α : Type) := List (String × α)

/-- An environment of either variant. -/
inductive Env (α : Type) where
  | persistent (frames : List (String × α))
  | mutable (bindings : List (String × α))

namespace Chain

variable {α : Type}

/-- The frames that no newer frame and no name in `seen` shadows, newest first. -/
def newest (seen : List String) : Chain α → Chain α
  | [] => []
  | (name, value) :: rest =>
    if name ∈ seen then newest seen rest else (name, value) :: newest (name :: seen) rest

/-- The bindings that a look-up can see, oldest first. -/
def visible (frames : Chain α) : Flat α := (newest [] frames).reverse

/-- The chain that results from binding each name in turn in front of `frames`. -/
def extend (frames : Chain α) (bindings : List (String × α)) : Chain α :=
  bindings.reverse ++ frames

/-- Leaving out the shadowed frames changes no look-up of a name not seen before. -/
theorem lookup_newest (name : String) (frames : Chain α) (seen : List String) :
    (newest seen frames).lookup name = if name ∈ seen then none else frames.lookup name := by
  induction frames generalizing seen with
  | nil => simp [newest]
  | cons frame rest ih =>
    obtain ⟨key, value⟩ := frame
    by_cases hn : name = key
    · subst hn
      by_cases hk : name ∈ seen <;> simp [newest, hk, ih]
    · have hb : (name == key) = false := by simpa using hn
      by_cases hk : key ∈ seen <;> simp [newest, hk, ih, List.lookup_cons, hb, hn]

end Chain

namespace Flat

variable {α : Type}

/-- Binds `name`: a bound name keeps its place, a new one comes last. -/
def assign (name : String) (value : α) : Flat α → Flat α
  | [] => [(name, value)]
  | (key, old) :: rest =>
    if key = name then (key, value) :: rest else (key, old) :: assign name value rest

/-- Assigning a name changes what that name is bound to and nothing else. -/
theorem lookup_assign (name other : String) (value : α) (bindings : Flat α) :
    (assign name value bindings).lookup other =
      if other = name then some value else bindings.lookup other := by
  induction bindings with
  | nil =>
    by_cases h : other = name
    · simp [assign, h]
    · have hb : (other == name) = false := by simpa using h
      simp [assign, List.lookup_cons, h, hb]
  | cons binding rest ih =>
    obtain ⟨key, old⟩ := binding
    by_cases ho : other = key
    · subst ho
      by_cases hk : other = name <;> simp [assign, hk]
    · have hb : (other == key) = false := by simpa using ho
      by_cases hk : key = name
      · subst hk
        simp [assign, List.lookup_cons, ho, hb]
      · simp [assign, List.lookup_cons, hk, hb, ih]

end Flat

namespace Env

variable {α : Type}

/-- The environment that binds nothing: a persistent one. -/
def empty : Env α := .persistent []

/-- The value that `name` is bound to. -/
def lookup (name : String) : Env α → Option α
  | .persistent frames => List.lookup name frames
  | .mutable bindings => List.lookup name bindings

/-- Binds `name` to `value` and keeps the variant. -/
def define (name : String) (value : α) : Env α → Env α
  | .persistent frames => .persistent ((name, value) :: frames)
  | .mutable bindings => .mutable (Flat.assign name value bindings)

/-- A persistent snapshot: the chain itself, or one frame for each binding. -/
def freeze : Env α → Chain α
  | .persistent frames => frames
  | .mutable bindings => List.reverse bindings

/-- An independent copy to be changed in place, with the visible bindings. -/
def thaw : Env α → Flat α
  | .persistent frames => Chain.visible frames
  | .mutable bindings => bindings

/-- Tells whether the environment is of the persistent variant. -/
def isImmutable : Env α → Bool
  | .persistent _ => true
  | .mutable _ => false

/-- The visible bindings, oldest first. -/
def bindings : Env α → List (String × α)
  | .persistent frames => Chain.visible frames
  | .mutable bindings => bindings

/-- The number of bound names. -/
def size (env : Env α) : Nat := env.bindings.length

/-- Tells whether nothing is bound. -/
def isEmpty : Env α → Bool
  | .persistent frames => List.isEmpty frames
  | .mutable bindings => List.isEmpty bindings

/-- Every value in the environment, those of shadowed frames included. -/
def values : Env α → List α
  | .persistent frames => frames.map (·.2)
  | .mutable bindings => bindings.map (·.2)

/-- Defining a name changes what that name is bound to and nothing else. -/
theorem lookup_define (name other : String) (value : α) (env : Env α) :
    (env.define name value).lookup other =
      if other = name then some value else env.lookup other := by
  cases env with
  | persistent frames =>
    by_cases h : other = name
    · simp [define, lookup, h]
    · have hb : (other == name) = false := by simpa using h
      simp [define, lookup, List.lookup_cons, h, hb]
  | mutable bindings => simp [define, lookup, Flat.lookup_assign]

/-- A definition keeps the variant of an environment. -/
theorem isImmutable_define (name : String) (value : α) (env : Env α) :
    (env.define name value).isImmutable = env.isImmutable := by
  cases env <;> rfl

end Env
end CapLisp
