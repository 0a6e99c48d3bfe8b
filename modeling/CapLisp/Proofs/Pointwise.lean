/-
# Related point by point

Two lists are related if they are as long and each element is related to the one in its
place, and two look-ups if both find nothing or both find related things.
-/

import Mathlib.Data.List.Forall2
import Mathlib.Data.Option.Defs

namespace CapLisp

/-! ### Look-ups -/

/-- Case analysis on two look-ups that find related things: both find something,
or both nothing. -/
@[elab_as_elim]
theorem rel_cases {α β : Type} {R : α → β → Prop} {motive : Option α → Option β → Prop}
    {found : Option α} {found' : Option β} (h : Option.Rel R found found')
    (some : ∀ a b, R a b → motive (some a) (some b)) (none : motive none none) :
    motive found found' := by
  cases h with
  | some hab => exact some _ _ hab
  | none => exact none

/-- Related findings stay related when both are changed alike. -/
theorem rel_map {α β : Type} {R : α → α → Prop} {S : β → β → Prop} {f g : α → β}
    {found found' : Option α} (h : Option.Rel R found found')
    (hf : ∀ a a', R a a' → S (f a) (g a')) : Option.Rel S (found.map f) (found'.map g) := by
  cases h with
  | some ha => exact .some (hf _ _ ha)
  | none => exact .none

/-! ### Lists -/

/-- What is related to a list of one is a list of one. -/
theorem forall₂_one {α : Type} {R : α → α → Prop} {a : α} {bs : List α}
    (h : List.Forall₂ R [a] bs) : ∃ b, bs = [b] ∧ R a b := by
  obtain ⟨b, rest, hb, hrest, rfl⟩ := List.forall₂_cons_left_iff.1 h
  rw [List.forall₂_nil_left_iff.1 hrest]
  exact ⟨b, rfl, hb⟩

/-- What is related to a list of two is a list of two. -/
theorem forall₂_two {α : Type} {R : α → α → Prop} {a a' : α} {bs : List α}
    (h : List.Forall₂ R [a, a'] bs) : ∃ b b', bs = [b, b'] ∧ R a b ∧ R a' b' := by
  obtain ⟨b, rest, hb, hrest, rfl⟩ := List.forall₂_cons_left_iff.1 h
  obtain ⟨b', rfl, hb'⟩ := forall₂_one hrest
  exact ⟨b, b', rfl, hb, hb'⟩

/-- What is related to a list of three is a list of three. -/
theorem forall₂_three {α : Type} {R : α → α → Prop} {a a' a'' : α} {bs : List α}
    (h : List.Forall₂ R [a, a', a''] bs) :
    ∃ b b' b'', bs = [b, b', b''] ∧ R a b ∧ R a' b' ∧ R a'' b'' := by
  obtain ⟨b, rest, hb, hrest, rfl⟩ := List.forall₂_cons_left_iff.1 h
  obtain ⟨b', b'', rfl, hb', hb''⟩ := forall₂_two hrest
  exact ⟨b, b', b'', rfl, hb, hb', hb''⟩

/-- Related lists have related elements at each position. -/
theorem forall₂_getElem? {α β : Type} {R : α → β → Prop} {as : List α} {bs : List β}
    (h : List.Forall₂ R as bs) (index : Nat) : Option.Rel R as[index]? bs[index]? := by
  induction h generalizing index with
  | nil => exact .none
  | cons ha _ ih =>
    cases index with
    | zero => exact .some ha
    | succ index => exact ih index

/-- Related lists stay related when one position of each is set alike. -/
theorem forall₂_set {α : Type} {R : α → α → Prop} {as bs : List α} (h : List.Forall₂ R as bs)
    {a b : α} (hab : R a b) (index : Nat) :
    List.Forall₂ R (as.set index a) (bs.set index b) := by
  induction h generalizing index with
  | nil => exact .nil
  | cons hitem hrest ih =>
    cases index with
    | zero => exact .cons hab hrest
    | succ index => exact .cons hitem (ih index)

end CapLisp
