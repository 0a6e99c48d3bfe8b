/-
# Frames, names and visible bindings

What the operations on environments do to the list of frames behind them.

`Chain.newest` keeps, of each name, the frame that a look-up finds.  It is a
filter that looks at names alone: it commutes with every change of the values
(`newest_map`), it drops nothing from frames whose names are distinct
(`newest_eq_self`), and a frame put in front takes the place of the older one
of its name (`newest_cons_eq_filter`).

A mutable environment lists each name once.  `Env.Distinct` says so; it holds
of every environment that `define` and `thaw` build.
-/

import CapLisp.Env
import Mathlib.Data.List.Nodup

namespace CapLisp

/-- The frames with a function applied to their values. -/
def mapFrames {α β : Type} (f : α → β) (frames : List (String × α)) : List (String × β) :=
  frames.map fun frame => (frame.1, f frame.2)

section MapFrames

variable {α β γ : Type} (f : α → β)

/-- No frames stay no frames. -/
@[simp] theorem mapFrames_nil : mapFrames f [] = [] := rfl

/-- The newest frame is changed first. -/
@[simp] theorem mapFrames_cons (name : String) (value : α) (rest : List (String × α)) :
    mapFrames f ((name, value) :: rest) = (name, f value) :: mapFrames f rest := rfl

/-- Values change the same in either order of the frames. -/
theorem mapFrames_reverse (frames : List (String × α)) :
    mapFrames f frames.reverse = (mapFrames f frames).reverse :=
  List.map_reverse

/-- Two changes of values one after the other are one change. -/
theorem mapFrames_mapFrames (g : β → γ) (frames : List (String × α)) :
    mapFrames g (mapFrames f frames) = mapFrames (fun value => g (f value)) frames := by
  simp [mapFrames]

/-- Changing values keeps the number of frames. -/
@[simp] theorem length_mapFrames (frames : List (String × α)) :
    (mapFrames f frames).length = frames.length := by
  simp [mapFrames]

/-- Changing values keeps the names. -/
@[simp] theorem names_mapFrames (frames : List (String × α)) :
    (mapFrames f frames).map Prod.fst = frames.map Prod.fst := by
  simp [mapFrames]

/-- Two changes that agree on the values of some frames change them the same. -/
theorem mapFrames_congr {g : α → β} {frames : List (String × α)}
    (h : ∀ value ∈ frames.map Prod.snd, f value = g value) :
    mapFrames f frames = mapFrames g frames := by
  refine List.map_congr_left fun frame hmem => ?_
  rw [h frame.2 (List.mem_map_of_mem hmem)]

/-- Looking a name up in changed frames gives the changed value. -/
theorem lookup_mapFrames (name : String) (frames : List (String × α)) :
    (mapFrames f frames).lookup name = (frames.lookup name).map f := by
  induction frames with
  | nil => rfl
  | cons frame rest ih =>
    obtain ⟨key, value⟩ := frame
    rw [mapFrames_cons, List.lookup_cons, List.lookup_cons, ih]
    cases name == key <;> rfl

end MapFrames

/-- A value that is found is one of the frames. -/
theorem mem_values_of_lookup {α : Type} {name : String} {value : α}
    {frames : List (String × α)} (h : frames.lookup name = some value) :
    value ∈ frames.map Prod.snd := by
  induction frames with
  | nil => simp at h
  | cons frame rest ih =>
    obtain ⟨key, other⟩ := frame
    rw [List.lookup_cons] at h
    cases hk : name == key with
    | true =>
      rw [hk] at h
      obtain rfl := Option.some.inj h
      exact List.mem_cons_self ..
    | false =>
      rw [hk] at h
      exact List.mem_cons_of_mem _ (ih h)

/-- Among frames with distinct names a look-up finds exactly the frames. -/
theorem lookup_eq_some_iff {α : Type} {name : String} {value : α} {frames : List (String × α)}
    (hd : (frames.map Prod.fst).Nodup) :
    frames.lookup name = some value ↔ (name, value) ∈ frames := by
  induction frames with
  | nil => simp
  | cons frame rest ih =>
    obtain ⟨key, other⟩ := frame
    rw [List.map_cons, List.nodup_cons] at hd
    by_cases hk : name = key
    · subst hk
      have hrest : (name, value) ∉ rest := fun hmem =>
        hd.1 (List.mem_map.2 ⟨(name, value), hmem, rfl⟩)
      simp [hrest, eq_comm]
    · have hb : (name == key) = false := by simpa using hk
      simp [List.lookup_cons, hb, ih hd.2, hk]

/-- The order of frames with distinct names does not matter for look-ups. -/
theorem lookup_reverse {α : Type} {frames : List (String × α)}
    (hd : (frames.map Prod.fst).Nodup) (name : String) :
    frames.reverse.lookup name = frames.lookup name := by
  have hr : (frames.reverse.map Prod.fst).Nodup := by
    rw [List.map_reverse, List.nodup_reverse]
    exact hd
  refine Option.ext fun value => ?_
  rw [lookup_eq_some_iff hd, lookup_eq_some_iff hr, List.mem_reverse]

/-- Bindings with distinct names are their names, each with what a look-up finds. -/
theorem eq_filterMap_lookup {α : Type} {bindings : List (String × α)}
    (hd : (bindings.map Prod.fst).Nodup) :
    bindings = (bindings.map Prod.fst).filterMap fun name =>
      (bindings.lookup name).map (name, ·) := by
  rw [List.filterMap_map]
  refine (List.filterMap_some.symm).trans (List.filterMap_congr fun binding hmem => ?_)
  rw [Function.comp_apply, (lookup_eq_some_iff hd).2 hmem]
  rfl

namespace Chain

variable {α β : Type}

/-- Which frames are shadowed does not depend on the values. -/
theorem newest_map (f : α → β) (seen : List String) (frames : Chain α) :
    newest seen (mapFrames f frames) = mapFrames f (newest seen frames) := by
  induction frames generalizing seen with
  | nil => rfl
  | cons frame rest ih =>
    obtain ⟨name, value⟩ := frame
    by_cases h : name ∈ seen <;> simp [newest, h, ih]

/-- Only the names of `seen` count, not their order. -/
theorem newest_congr {seen others : List String} (h : ∀ name, name ∈ seen ↔ name ∈ others)
    (frames : Chain α) : newest seen frames = newest others frames := by
  induction frames generalizing seen others with
  | nil => rfl
  | cons frame rest ih =>
    obtain ⟨name, value⟩ := frame
    have hcons : ∀ key, key ∈ name :: seen ↔ key ∈ name :: others := fun key => by
      simp [h key]
    by_cases hn : name ∈ seen
    · simp only [newest, hn, (h name).1 hn, ↓reduceIte, ih h]
    · have hn' : name ∉ others := fun ho => hn ((h name).2 ho)
      simp only [newest, hn, hn', ↓reduceIte, ih hcons]

/-- The frames that are not shadowed are among the frames. -/
theorem newest_subset (seen : List String) (frames : Chain α) :
    newest seen frames ⊆ frames := by
  induction frames generalizing seen with
  | nil => exact fun _ h => h
  | cons frame rest ih =>
    obtain ⟨name, value⟩ := frame
    by_cases h : name ∈ seen
    · simp only [newest, h, ↓reduceIte]
      exact fun _ hx => List.mem_cons_of_mem _ (ih seen hx)
    · simp only [newest, h, ↓reduceIte]
      exact List.cons_subset_cons _ (ih (name :: seen))

/-- No frame is left whose name was seen before. -/
theorem not_mem_seen_of_mem_newest {seen : List String} {frames : Chain α}
    {frame : String × α} (h : frame ∈ newest seen frames) : frame.1 ∉ seen := by
  induction frames generalizing seen with
  | nil => simp [newest] at h
  | cons top rest ih =>
    obtain ⟨name, value⟩ := top
    by_cases hn : name ∈ seen
    · simp only [newest, hn, ↓reduceIte] at h
      exact ih h
    · simp only [newest, hn, ↓reduceIte, List.mem_cons] at h
      rcases h with rfl | h
      · exact hn
      · exact fun hs => ih h (List.mem_cons_of_mem _ hs)

/-- **Each name is left once.** -/
theorem nodup_names_newest (seen : List String) (frames : Chain α) :
    ((newest seen frames).map Prod.fst).Nodup := by
  induction frames generalizing seen with
  | nil => simp [newest]
  | cons frame rest ih =>
    obtain ⟨name, value⟩ := frame
    by_cases h : name ∈ seen
    · simpa only [newest, h, ↓reduceIte] using ih seen
    · simp only [newest, h, ↓reduceIte, List.map_cons, List.nodup_cons]
      refine ⟨?_, ih (name :: seen)⟩
      intro hmem
      obtain ⟨other, hother, rfl⟩ := List.mem_map.1 hmem
      exact not_mem_seen_of_mem_newest hother (List.mem_cons_self ..)

/-- **Frames with distinct names stay as they are.** -/
theorem newest_eq_self {seen : List String} {frames : Chain α}
    (hd : (frames.map Prod.fst).Nodup) (hs : ∀ frame ∈ frames, frame.1 ∉ seen) :
    newest seen frames = frames := by
  induction frames generalizing seen with
  | nil => rfl
  | cons frame rest ih =>
    obtain ⟨name, value⟩ := frame
    rw [List.map_cons, List.nodup_cons] at hd
    have hn : name ∉ seen := hs _ (List.mem_cons_self ..)
    simp only [newest, hn, ↓reduceIte]
    rw [ih hd.2 fun other hmem => ?_]
    have hne : other.1 ≠ name := fun he => hd.1 (List.mem_map.2 ⟨other, hmem, he⟩)
    simpa [hne] using hs other (List.mem_cons_of_mem _ hmem)

/-- Frames with distinct names shadow none of them. -/
theorem newest_nil_eq_self {frames : Chain α} (hd : (frames.map Prod.fst).Nodup) :
    newest [] frames = frames :=
  newest_eq_self hd fun _ _ => List.not_mem_nil

/-- What is left after one pass is left after a second. -/
@[simp] theorem newest_newest (frames : Chain α) :
    newest [] (newest [] frames) = newest [] frames :=
  newest_nil_eq_self (nodup_names_newest [] frames)

/-- Shadowing more names is filtering them out. -/
theorem newest_cons_seen (name : String) (seen : List String) (frames : Chain α) :
    newest (name :: seen) frames =
      (newest seen frames).filter fun frame => frame.1 ≠ name := by
  induction frames generalizing seen with
  | nil => rfl
  | cons frame rest ih =>
    obtain ⟨key, value⟩ := frame
    have hswap : newest (key :: name :: seen) rest = newest (name :: key :: seen) rest :=
      newest_congr (fun other => by simp [or_left_comm]) rest
    by_cases hk : key ∈ seen
    · simp [newest, hk, ih]
    · by_cases hn : key = name
      · subst hn
        have hdup : newest (key :: seen) rest = newest (key :: key :: seen) rest :=
          newest_congr (fun other => by simp) rest
        simp only [newest, hk, ↓reduceIte, hdup]
        rw [← hdup, ih seen]
        simp
      · simp [newest, hk, hn, hswap, ih]

/-- **A frame in front takes the place of the older one of its name.** -/
theorem newest_cons_eq_filter (name : String) (value : α) (frames : Chain α) :
    newest [] ((name, value) :: frames) =
      (name, value) :: (newest [] frames).filter fun frame => frame.1 ≠ name := by
  simp [newest, newest_cons_seen]

/-- Which bindings are visible does not depend on the values. -/
theorem visible_map (f : α → β) (frames : Chain α) :
    visible (mapFrames f frames) = mapFrames f (visible frames) := by
  rw [visible, newest_map, visible, mapFrames_reverse]

/-- No name is visible twice. -/
theorem nodup_names_visible (frames : Chain α) : ((visible frames).map Prod.fst).Nodup := by
  rw [visible, List.map_reverse, List.nodup_reverse]
  exact nodup_names_newest [] frames

/-- A frame in front takes its name to the end of the visible ones. -/
theorem names_visible_cons (name : String) (value : α) (frames : Chain α) :
    (visible ((name, value) :: frames)).map Prod.fst =
      ((visible frames).map Prod.fst).filter (· ≠ name) ++ [name] := by
  rw [visible, newest_cons_eq_filter, List.reverse_cons, List.map_append,
    visible, List.filter_map, ← List.filter_reverse]
  rfl

/-- The visible bindings are among the frames. -/
theorem visible_subset (frames : Chain α) : visible frames ⊆ frames := fun _ h =>
  newest_subset [] frames (List.mem_reverse.1 h)

/-- A look-up sees the visible bindings only. -/
theorem lookup_newest_nil (name : String) (frames : Chain α) :
    (newest [] frames).lookup name = frames.lookup name := by
  simp [lookup_newest]

end Chain

namespace Flat

variable {α β : Type}

/-- Where a name is assigned does not depend on the values. -/
theorem assign_map (f : α → β) (name : String) (value : α) (bindings : Flat α) :
    mapFrames f (assign name value bindings) = assign name (f value) (mapFrames f bindings) := by
  induction bindings with
  | nil => rfl
  | cons binding rest ih =>
    obtain ⟨key, old⟩ := binding
    by_cases h : key = name <;> simp [assign, h, ih]

/-- After an assignment a binding has the new value or was there before. -/
theorem mem_of_mem_assign {name : String} {value : α} {bindings : Flat α}
    {binding : String × α} (h : binding ∈ assign name value bindings) :
    binding.2 = value ∨ binding ∈ bindings := by
  induction bindings with
  | nil =>
    obtain rfl := List.mem_singleton.1 h
    exact Or.inl rfl
  | cons first rest ih =>
    obtain ⟨key, old⟩ := first
    by_cases hk : key = name
    · simp only [assign, hk, ↓reduceIte, List.mem_cons] at h
      rcases h with rfl | h
      · exact Or.inl rfl
      · exact Or.inr (List.mem_cons_of_mem _ h)
    · simp only [assign, hk, ↓reduceIte, List.mem_cons] at h
      rcases h with rfl | h
      · exact Or.inr (List.mem_cons_self ..)
      · exact (ih h).imp_right (List.mem_cons_of_mem _)

/-- A name that is bound keeps its place, and a new one comes last. -/
theorem names_assign (name : String) (value : α) (bindings : Flat α) :
    (assign name value bindings).map Prod.fst =
      if name ∈ bindings.map Prod.fst then bindings.map Prod.fst
      else bindings.map Prod.fst ++ [name] := by
  induction bindings with
  | nil => rfl
  | cons first rest ih =>
    obtain ⟨key, old⟩ := first
    by_cases hkey : key = name
    · simp [assign, hkey]
    · simp only [assign, hkey, if_false, List.map_cons, ih, List.mem_cons,
        Ne.symm hkey, false_or]
      split <;> rfl

/-- **Assigning keeps the names distinct.** -/
theorem nodup_names_assign {bindings : Flat α} (h : (bindings.map Prod.fst).Nodup)
    (name : String) (value : α) : ((assign name value bindings).map Prod.fst).Nodup := by
  rw [names_assign]
  split
  · exact h
  · next hname =>
    rw [← List.concat_eq_append]
    exact h.concat hname

end Flat

namespace Env

variable {α β : Type}

/-- The environment with a function applied to its values. -/
def map (f : α → β) : Env α → Env β
  | .persistent frames => .persistent (mapFrames f frames)
  | .mutable bindings => .mutable (mapFrames f bindings)

/-- Each name of a mutable environment is bound once. -/
def Distinct : Env α → Prop
  | .persistent _ => True
  | .mutable bindings => (bindings.map Prod.fst).Nodup

/-- Changing values keeps the variant of an environment. -/
@[simp] theorem isImmutable_map (f : α → β) (e : Env α) :
    (e.map f).isImmutable = e.isImmutable := by
  cases e <;> rfl

/-- Looking a name up in a changed environment gives the changed value. -/
@[simp] theorem lookup_map (f : α → β) (name : String) (e : Env α) :
    (e.map f).lookup name = (e.lookup name).map f := by
  cases e <;> exact lookup_mapFrames f name _

/-- A change of values commutes with a definition. -/
theorem map_define (f : α → β) (name : String) (value : α) (e : Env α) :
    (e.define name value).map f = (e.map f).define name (f value) := by
  cases e with
  | persistent frames => rfl
  | mutable bindings => simp [define, map, Flat.assign_map]

/-- A change of values commutes with freezing. -/
theorem mapFrames_freeze (f : α → β) (e : Env α) :
    mapFrames f e.freeze = (e.map f).freeze := by
  cases e with
  | persistent frames => rfl
  | mutable bindings => exact mapFrames_reverse f bindings

/-- A change of values commutes with listing the bindings. -/
theorem mapFrames_bindings (f : α → β) (e : Env α) :
    mapFrames f e.bindings = (e.map f).bindings := by
  cases e with
  | persistent frames => exact (Chain.visible_map f frames).symm
  | mutable bindings => rfl

/-- Changing values keeps the number of names. -/
@[simp] theorem size_map (f : α → β) (e : Env α) : (e.map f).size = e.size := by
  rw [size, size, ← mapFrames_bindings, length_mapFrames]

/-- A mutable copy lists the bindings. -/
theorem thaw_eq_bindings (e : Env α) : e.thaw = e.bindings := by
  cases e <;> rfl

/-- The values of visible bindings are values of the environment. -/
theorem mem_values_of_mem_bindings {v : α} {e : Env α} (h : v ∈ e.bindings.map Prod.snd) :
    v ∈ e.values := by
  cases e with
  | persistent frames => exact List.map_subset _ (Chain.visible_subset frames) h
  | mutable bindings => exact h

/-- A value that is found is one of the environment. -/
theorem mem_values_of_lookup {name : String} {value : α} {e : Env α}
    (h : e.lookup name = some value) : value ∈ e.values := by
  cases e <;> exact CapLisp.mem_values_of_lookup h

/-- A definition brings in its value and no other. -/
theorem mem_values_of_mem_define {name : String} {value v : α} {e : Env α}
    (h : v ∈ (e.define name value).values) : v = value ∨ v ∈ e.values := by
  cases e with
  | persistent frames => simpa [define, values] using h
  | mutable bindings =>
    obtain ⟨binding, hb, rfl⟩ := List.mem_map.1 h
    exact (Flat.mem_of_mem_assign hb).imp_right List.mem_map_of_mem

/-- Freezing brings in no value. -/
theorem mem_values_of_mem_freeze {v : α} {e : Env α} (h : v ∈ e.freeze.map Prod.snd) :
    v ∈ e.values := by
  cases e with
  | persistent frames => exact h
  | mutable bindings => simpa [freeze, values] using h

/-- Thawing brings in no value. -/
theorem mem_values_of_mem_thaw {v : α} {e : Env α} (h : v ∈ e.thaw.map Prod.snd) :
    v ∈ e.values := by
  rw [thaw_eq_bindings] at h
  exact mem_values_of_mem_bindings h

/-- Changing values keeps names distinct. -/
theorem distinct_map (f : α → β) {e : Env α} (h : e.Distinct) : (e.map f).Distinct := by
  cases e with
  | persistent frames => trivial
  | mutable bindings =>
    rw [map, Distinct, names_mapFrames]
    exact h

/-- The frozen form binds the same names in the same order. -/
theorem newest_freeze {e : Env α} (h : e.Distinct) :
    Chain.newest [] e.freeze = e.bindings.reverse := by
  cases e with
  | persistent frames => exact (List.reverse_reverse _).symm
  | mutable bindings =>
    refine Chain.newest_nil_eq_self ?_
    rw [freeze, List.map_reverse, List.nodup_reverse]
    exact h

/-- **A snapshot shows the bindings of its original.** -/
theorem bindings_freeze {e : Env α} (hd : e.Distinct) :
    (persistent e.freeze).bindings = e.bindings := by
  rw [bindings, Chain.visible, newest_freeze hd, List.reverse_reverse]

/-- An environment lists no name twice. -/
theorem nodup_names_bindings {e : Env α} (h : e.Distinct) :
    (e.bindings.map Prod.fst).Nodup := by
  cases e with
  | persistent frames => exact Chain.nodup_names_visible frames
  | mutable bindings => exact h

/-- An environment is empty exactly if it has no names. -/
theorem isEmpty_iff_size_eq_zero (e : Env α) : e.isEmpty = true ↔ e.size = 0 := by
  cases e with
  | mutable bindings => rw [isEmpty, size, Env.bindings, List.isEmpty_iff, List.length_eq_zero_iff]
  | persistent frames =>
    cases frames with
    | nil => exact iff_of_true rfl rfl
    | cons frame rest =>
      obtain ⟨name, value⟩ := frame
      simp [isEmpty, size, Env.bindings, Chain.visible, Chain.newest]

/-- The listed bindings give what the environment gives. -/
theorem lookup_bindings (e : Env α) (name : String) (h : e.Distinct) :
    e.bindings.lookup name = e.lookup name := by
  cases e with
  | persistent frames =>
    have hd := Chain.nodup_names_newest [] frames
    rw [bindings, Chain.visible, lookup_reverse hd, Chain.lookup_newest_nil]
    rfl
  | mutable bindings => rfl

/-- A snapshot binds the same names to the same values. -/
theorem lookup_freeze {e : Env α} (h : e.Distinct) (name : String) :
    e.freeze.lookup name = e.lookup name := by
  cases e with
  | persistent frames => rfl
  | mutable bindings => exact lookup_reverse h name

/-- A mutable copy binds the same names to the same values. -/
theorem lookup_thaw {e : Env α} (h : e.Distinct) (name : String) :
    e.thaw.lookup name = e.lookup name := by
  rw [thaw_eq_bindings, lookup_bindings e name h]

/-- The names that are bound are those that a look-up finds. -/
theorem mem_names_bindings_iff {e : Env α} (h : e.Distinct) (name : String) :
    name ∈ e.bindings.map Prod.fst ↔ (e.lookup name).isSome = true := by
  rw [← lookup_bindings e name h, Option.isSome_iff_exists, List.mem_map]
  constructor
  · rintro ⟨⟨key, value⟩, hmem, rfl⟩
    exact ⟨value, (lookup_eq_some_iff (nodup_names_bindings h)).2 hmem⟩
  · rintro ⟨value, hfind⟩
    exact ⟨(name, value), (lookup_eq_some_iff (nodup_names_bindings h)).1 hfind, rfl⟩

/-- A definition keeps names distinct. -/
theorem distinct_define {e : Env α} (h : e.Distinct) (name : String) (value : α) :
    (e.define name value).Distinct := by
  cases e with
  | persistent frames => trivial
  | mutable bindings => exact Flat.nodup_names_assign h name value

/-- A thawed environment has distinct names. -/
theorem distinct_thaw {e : Env α} (h : e.Distinct) : (Env.mutable e.thaw).Distinct := by
  rw [Distinct, thaw_eq_bindings]
  exact nodup_names_bindings h

/-- A persistent environment may shadow names, so nothing is asked of it. -/
theorem distinct_of_isImmutable {e : Env α} (h : e.isImmutable = true) : e.Distinct := by
  cases e with
  | persistent frames => trivial
  | mutable bindings => cases h

end Env
end CapLisp
