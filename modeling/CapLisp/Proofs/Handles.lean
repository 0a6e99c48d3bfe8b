/-
# Handles of environments

A program holds environments by handles: it makes new ones, binds names through them,
and freezes, thaws and clones them.  Whatever it does, a handle shows a finite map, and
its history says which one.

| a handle shows | in its history |
| --- | --- |
| a value of a name | the last value that the name was given |
| the names, each once | those that were given a value |
| their order, persistent | by their most recent definition |
| their order, mutable | by their first definition |

A handle that was frozen or thawed takes over the values of its original and the names
in the order that the original shows them, as if it had defined them one by one.
From there its own definitions count, by the rule of its own variant.

What one command does to an environment and to its history is compared once
(`Env.Tracks`); by induction the handles of a whole run are compared
(`Simulates.forall₂_run`).
-/

import CapLisp.Proofs.Equivalence
import CapLisp.Proofs.Pointwise
import Mathlib.Data.Finset.Card

namespace CapLisp

/-! ### Commands -/

/-- What is done with handles, which are numbered.  Every command but `define` makes a
new handle; `set` binds a name in a clone, `define` in place. -/
inductive Command (α : Type) where
  | new (immutable : Bool)
  | set (source : Nat) (name : String) (value : α)
  | define (target : Nat) (name : String) (value : α)
  | freeze (source : Nat)
  | thaw (source : Nat)
  | clone (source : Nat)

/-- The handle that a command changes. -/
def Command.target {α : Type} : Command α → Option Nat
  | .define target _ _ => some target
  | _ => none

/-- What handles can be made of: something to start with, and what binding, freezing and
thawing make of it. -/
structure Holder (α β : Type) where
  new : (immutable : Bool) → β
  define : (name : String) → (value : α) → β → β
  freeze : β → β
  thaw : β → β

namespace Holder

variable {α β : Type}

/-- The handles, and a new one made out of one of them if there is such a one. -/
def derive (f : β → β) (source : Nat) (handles : List β) : List β :=
  match handles[source]? with
  | some original => handles ++ [f original]
  | none => handles

/-- The handles after a command. -/
def exec (H : Holder α β) (handles : List β) : Command α → List β
  | .new immutable => handles ++ [H.new immutable]
  | .set source name value => derive (H.define name value) source handles
  | .define target name value => handles.modify target (H.define name value)
  | .freeze source => derive H.freeze source handles
  | .thaw source => derive H.thaw source handles
  | .clone source => derive id source handles

/-- The handles after a sequence of commands. -/
def run (H : Holder α β) (commands : List (Command α)) : List β := commands.foldl H.exec []

end Holder

/-- Handles of environments. -/
def Env.holder {α : Type} : Holder α (Env α) where
  new immutable := if immutable then .persistent [] else .mutable []
  define := Env.define
  freeze e := .persistent e.freeze
  thaw e := .mutable e.thaw

/-! ### Histories -/

/-- The history of a handle, oldest first: its variant, the definitions given to it and to
the handles that it was made of, and the names as they were given to the handle itself.
One that was frozen or thawed was first given the names that its original showed. -/
structure History (α : Type) where
  immutable : Bool
  definitions : List (String × α)
  names : List String

namespace History

variable {α : Type}

/-- The last value that a name was given. -/
def last (name : String) (h : History α) : Option α := h.definitions.reverse.lookup name

/-- Each name once: by its most recent definition or, in a mutable handle, by its first.
Removing duplicates from a list keeps the last occurrence of each member. -/
def order (h : History α) : List String :=
  if h.immutable then h.names.dedup else h.names.reverse.dedup.reverse

/-- Each bound name once with the last value that it was given. -/
def listing (h : History α) : List (String × α) :=
  h.order.filterMap fun name => (h.last name).map (name, ·)

/-- The names that were given a value. -/
def bound (h : History α) : Finset String := (h.definitions.map Prod.fst).toFinset

/-- Gives a name a value. -/
def define (name : String) (value : α) (h : History α) : History α where
  immutable := h.immutable
  definitions := h.definitions ++ [(name, value)]
  names := h.names ++ [name]

/-- A copy of a variant.  It is given the names in the order in which its original shows
them. -/
def convert (immutable : Bool) (h : History α) : History α where
  immutable := immutable
  definitions := h.definitions
  names := h.order

/-- Handles of histories. -/
def holder : Holder α (History α) where
  new immutable := ⟨immutable, [], []⟩
  define := define
  freeze := convert true
  thaw := convert false

end History

/-! ### Runs side by side -/

section

variable {α β γ : Type} {R : β → γ → Prop} {bs : List β} {cs : List γ}

/-- Whatever is done with handles, it is done alike with what they are related to. -/
structure Holder.Simulates (H : Holder α β) (K : Holder α γ) (R : β → γ → Prop) : Prop where
  new (immutable : Bool) : R (H.new immutable) (K.new immutable)
  define {b : β} {c : γ} (h : R b c) (name : String) (value : α) :
    R (H.define name value b) (K.define name value c)
  freeze {b : β} {c : γ} (h : R b c) : R (H.freeze b) (K.freeze c)
  thaw {b : β} {c : γ} (h : R b c) : R (H.thaw b) (K.thaw c)

/-- Related lists stay related if one position of each is changed alike. -/
theorem forall₂_modify {f : β → β} {g : γ → γ} (h : List.Forall₂ R bs cs)
    (hfg : ∀ {b c}, R b c → R (f b) (g c)) (i : Nat) :
    List.Forall₂ R (bs.modify i f) (cs.modify i g) := by
  induction h generalizing i with
  | nil => simp
  | cons hbc hrest ih =>
    cases i with
    | zero => simpa using ⟨hfg hbc, hrest⟩
    | succ i => simpa using ⟨hbc, ih i⟩

namespace Holder

/-- Related lists stay related if each gets an element derived from the same position. -/
theorem forall₂_derive {f : β → β} {g : γ → γ} (h : List.Forall₂ R bs cs)
    (hfg : ∀ {b c}, R b c → R (f b) (g c)) (source : Nat) :
    List.Forall₂ R (derive f source bs) (derive g source cs) := by
  have hsource := forall₂_getElem? h source
  unfold derive
  cases hb : bs[source]? <;> cases hc : cs[source]? <;> rw [hb, hc] at hsource
  · exact h
  · cases hsource
  · cases hsource
  · cases hsource with
    | some hbc => exact List.rel_append h (.cons (hfg hbc) .nil)

/-- **A command keeps handles related.** -/
theorem Simulates.forall₂_exec {H : Holder α β} {K : Holder α γ} (hsim : Simulates H K R)
    (h : List.Forall₂ R bs cs) (command : Command α) :
    List.Forall₂ R (H.exec bs command) (K.exec cs command) := by
  cases command with
  | new immutable => exact List.rel_append h (.cons (hsim.new immutable) .nil)
  | set source name value => exact forall₂_derive h (hsim.define · name value) source
  | define target name value => exact forall₂_modify h (hsim.define · name value) target
  | freeze source => exact forall₂_derive h hsim.freeze source
  | thaw source => exact forall₂_derive h hsim.thaw source
  | clone source => exact forall₂_derive h id source

/-- **A run keeps handles related**, all of them and to its end. -/
theorem Simulates.forall₂_run {H : Holder α β} {K : Holder α γ} (hsim : Simulates H K R)
    (commands : List (Command α)) : List.Forall₂ R (H.run commands) (K.run commands) := by
  suffices hfrom : ∀ {bs cs}, List.Forall₂ R bs cs →
      List.Forall₂ R (commands.foldl H.exec bs) (commands.foldl K.exec cs) from hfrom .nil
  intro bs cs h
  induction commands generalizing bs cs with
  | nil => exact h
  | cons command rest ih => exact ih (hsim.forall₂_exec h command)

/-- **A command leaves every handle as it is** but its target. -/
theorem getElem?_exec {H : Holder α β} {handles : List β} {j : Nat} {command : Command α}
    (hj : j < handles.length) (htarget : command.target ≠ some j) :
    (H.exec handles command)[j]? = handles[j]? := by
  have hderive : ∀ (f : β → β) (source : Nat), (derive f source handles)[j]? = handles[j]? := by
    intro f source
    unfold derive
    split
    · exact List.getElem?_append_left hj
    · rfl
  cases command with
  | new immutable => exact List.getElem?_append_left hj
  | set source name value => exact hderive _ source
  | define target name value =>
    exact List.getElem?_modify_ne _ _ fun h => htarget (congrArg some h)
  | freeze source => exact hderive _ source
  | thaw source => exact hderive _ source
  | clone source => exact hderive _ source

end Holder

end

/-! ### What a handle shows -/

section

variable {α : Type} {name : String} {value : α} {h : History α}

/-- One more member moves to the end. -/
theorem dedup_concat (names : List String) (name : String) :
    (names ++ [name]).dedup = names.dedup.filter (· ≠ name) ++ [name] := by
  induction names with
  | nil => simp
  | cons first rest ih =>
    by_cases hlater : first ∈ rest
    · rw [List.cons_append, List.dedup_cons_of_mem (List.mem_append_left _ hlater), ih,
        List.dedup_cons_of_mem hlater]
    · by_cases hname : first = name
      · subst hname
        rw [List.cons_append, List.dedup_cons_of_mem (by simp), ih,
          List.dedup_cons_of_notMem hlater]
        simp
      · rw [List.cons_append, List.dedup_cons_of_notMem (by simp [hlater, hname]), ih,
          List.dedup_cons_of_notMem hlater]
        simp [hname]

namespace History

/-- No name stands twice in the order of a history. -/
theorem nodup_order (h : History α) : h.order.Nodup := by
  unfold order
  split
  · exact List.nodup_dedup _
  · exact List.nodup_reverse.2 (List.nodup_dedup _)

/-- A definition puts a name last in a persistent handle; in a mutable one a name that
is there stays where it is. -/
theorem order_define (name : String) (value : α) (h : History α) :
    (h.define name value).order =
      if h.immutable then h.order.filter (· ≠ name) ++ [name]
      else if name ∈ h.order then h.order else h.order ++ [name] := by
  unfold order define
  cases h.immutable with
  | true => exact dedup_concat h.names name
  | false =>
    simp only [Bool.false_eq_true, if_false, List.reverse_append, List.reverse_singleton,
      List.singleton_append, List.dedup_cons, List.mem_reverse, List.mem_dedup]
    split
    · rfl
    · rw [List.reverse_cons]

/-- A copy shows the names in the order of its original. -/
theorem order_convert (immutable : Bool) (h : History α) :
    (h.convert immutable).order = h.order := by
  cases immutable with
  | true => exact h.nodup_order.dedup
  | false =>
    show h.order.reverse.dedup.reverse = h.order
    rw [(List.nodup_reverse.2 h.nodup_order).dedup, List.reverse_reverse]

/-- After a definition a name has the last value defined for it. -/
theorem last_define (name other : String) (value : α) (h : History α) :
    (h.define name value).last other = if other = name then some value else h.last other := by
  rw [last, last, define, List.reverse_append, List.reverse_singleton, List.singleton_append]
  by_cases hother : other = name
  · simp [hother]
  · have hb : (other == name) = false := by simpa using hother
    simp [List.lookup_cons, hb, hother]

/-- A name is bound exactly if a value was defined for it. -/
theorem mem_bound_iff : name ∈ h.bound ↔ (h.last name).isSome = true := by
  rw [bound, List.mem_toFinset, last, List.lookup_isSome_iff, List.mem_map]
  refine exists_congr fun binding => ?_
  rw [List.mem_reverse, beq_iff_eq, eq_comm (a := name)]

end History

namespace Env

/-- Tells that an environment is one with the history `h`. -/
structure Tracks (e : Env α) (h : History α) : Prop where
  isImmutable_eq : e.isImmutable = h.immutable
  distinct : e.Distinct
  lookup_eq (name : String) : e.lookup name = h.last name
  names_eq : e.bindings.map Prod.fst = h.order

variable {e : Env α}

/-- A new environment tracks the empty history. -/
theorem tracks_new (immutable : Bool) :
    Tracks (holder.new immutable : Env α) (History.holder.new immutable) := by
  cases immutable with
  | true => exact ⟨rfl, trivial, fun _ => rfl, rfl⟩
  | false => exact ⟨rfl, List.nodup_nil, fun _ => rfl, rfl⟩

/-- A definition is tracked. -/
theorem Tracks.define (ht : Tracks e h) (name : String) (value : α) :
    Tracks (e.define name value) (h.define name value) where
  isImmutable_eq := (isImmutable_define name value e).trans ht.isImmutable_eq
  distinct := distinct_define ht.distinct name value
  lookup_eq other := by
    rw [lookup_define, History.last_define, ht.lookup_eq]
  names_eq := by
    rw [History.order_define, ← ht.isImmutable_eq, ← ht.names_eq]
    cases e with
    | persistent frames => exact Chain.names_visible_cons name value frames
    | mutable bindings => exact Flat.names_assign name value bindings

/-- Freezing is tracked. -/
theorem Tracks.freeze (ht : Tracks e h) : Tracks (.persistent e.freeze) (h.convert true) where
  isImmutable_eq := rfl
  distinct := trivial
  lookup_eq name := (lookup_freeze ht.distinct name).trans (ht.lookup_eq name)
  names_eq := by
    rw [bindings_freeze ht.distinct, History.order_convert, ht.names_eq]

/-- Thawing is tracked. -/
theorem Tracks.thaw (ht : Tracks e h) : Tracks (.mutable e.thaw) (h.convert false) where
  isImmutable_eq := rfl
  distinct := distinct_thaw ht.distinct
  lookup_eq name := (lookup_thaw ht.distinct name).trans (ht.lookup_eq name)
  names_eq := by
    rw [History.order_convert, ← ht.names_eq, ← thaw_eq_bindings]
    rfl

/-- **What is done with environments is done with their histories.** -/
theorem simulates_tracks : Holder.Simulates (holder (α := α)) History.holder Tracks where
  new := tracks_new
  define := Tracks.define
  freeze := Tracks.freeze
  thaw := Tracks.thaw

/-- Tells that an environment shows the finite map of the history `h`. -/
structure Shows (e : Env α) (h : History α) : Prop where
  isImmutable_eq : e.isImmutable = h.immutable
  lookup_eq (name : String) : e.lookup name = h.last name
  bindings_eq : e.bindings = h.listing
  bindings_freeze : (Env.persistent e.freeze).bindings = e.bindings
  bindings_thaw : (Env.mutable e.thaw).bindings = e.bindings
  size_eq : e.size = h.bound.card
  isEmpty_iff : e.isEmpty = true ↔ e.size = 0

/-- **An environment shows the finite map of its history.** -/
theorem Tracks.shows (ht : Tracks e h) : Shows e h where
  isImmutable_eq := ht.isImmutable_eq
  lookup_eq := ht.lookup_eq
  bindings_eq := by
    rw [eq_filterMap_lookup (nodup_names_bindings ht.distinct), ht.names_eq]
    simp only [lookup_bindings e _ ht.distinct, ht.lookup_eq]
    rfl
  bindings_freeze := bindings_freeze ht.distinct
  bindings_thaw := thaw_eq_bindings e
  size_eq := by
    have hbound : h.bound = (e.bindings.map Prod.fst).toFinset := by
      ext name
      rw [History.mem_bound_iff, ← ht.lookup_eq, List.mem_toFinset,
        mem_names_bindings_iff ht.distinct]
    rw [hbound, List.toFinset_card_of_nodup (nodup_names_bindings ht.distinct), List.length_map]
    rfl
  isEmpty_iff := isEmpty_iff_size_eq_zero e

/-- Each name of a handle is bound once. -/
theorem distinct_of_mem_run {commands : List (Command α)} (he : e ∈ holder.run commands) :
    e.Distinct := by
  obtain ⟨i, hi⟩ := List.mem_iff_getElem?.1 he
  have hrel := forall₂_getElem? (simulates_tracks.forall₂_run commands) i
  rw [hi] at hrel
  generalize (History.holder.run commands)[i]? = found at hrel
  cases hrel with
  | some ht => exact ht.distinct

end Env

end

/-- **Environments refine finite maps.**  Whatever is done with handles, each of them shows
the finite map of its history.  Two of them are equal exactly if they bind the same names,
and these to equal values.  And a command leaves every handle as it is but its target. -/
theorem environments_refine_histories (commands : List (Command Value)) :
    List.Forall₂ Env.Shows (Env.holder.run commands) (History.holder.run commands) ∧
    (∀ e ∈ Env.holder.run commands, ∀ e' ∈ Env.holder.run commands,
      ((e == e') = true ↔ ∀ name,
        Option.Rel (fun v w => (v == w) = true) (e.lookup name) (e'.lookup name))) ∧
    ∀ command j e, (Env.holder.run commands)[j]? = some e → command.target ≠ some j →
      (Env.holder.run (commands ++ [command]))[j]? = some e := by
  refine ⟨?_, fun e he e' he' => ?_, fun command j e hj htarget => ?_⟩
  · exact (Env.simulates_tracks.forall₂_run commands).imp fun _ _ ht => ht.shows
  · simp only [Value.beq_eq, Value.beq_env_eq]
    exact Value.beqEnv_iff_rel (Env.distinct_of_mem_run he) (Env.distinct_of_mem_run he')
  · have hlength : j < (Env.holder.run commands).length := (List.getElem?_eq_some_iff.1 hj).1
    rw [Holder.run, List.foldl_append]
    exact (Holder.getElem?_exec hlength htarget).trans hj

/-- Two handles bind the same names to the same values and show them in different orders:
the first one defines `x` again, and the other one was thawed before and frozen after it. -/
theorem environments_refine_histories_copies :
    let commands : List (Command Value) :=
      [.new true, .define 0 "x" (.number 1), .define 0 "y" (.number 2), .thaw 0,
        .define 1 "x" (.number 3), .freeze 1, .define 0 "x" (.number 3)]
    let original : Env Value := .persistent [("x", .number 3), ("y", .number 2), ("x", .number 1)]
    let copy : Env Value := .persistent [("y", .number 2), ("x", .number 3)]
    List.Forall₂ Env.Shows (Env.holder.run commands) (History.holder.run commands) ∧
      (Env.holder.run commands)[0]? = some original ∧ copy ∈ Env.holder.run commands ∧
      ((original == copy) = true ↔ ∀ name,
        Option.Rel (fun v w => (v == w) = true) (original.lookup name) (copy.lookup name)) ∧
      (Env.holder.run (commands ++ [.define 1 "z" (.number 4)]))[0]? = some original := by
  intro commands original copy
  obtain ⟨hshows, hequal, hkept⟩ := environments_refine_histories commands
  have hfirst : (Env.holder.run commands)[0]? = some original := rfl
  have hlast : (Env.holder.run commands)[2]? = some copy := rfl
  have hmem := List.mem_of_getElem? hlast
  exact ⟨hshows, hfirst, hmem, hequal _ (List.mem_of_getElem? hfirst) _ hmem,
    hkept (.define 1 "z" (.number 4)) 0 _ hfirst (by decide)⟩

end CapLisp
