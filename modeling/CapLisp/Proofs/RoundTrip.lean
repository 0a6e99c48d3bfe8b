/-
# Transport brings every value back

Decoding the envelope of a value gives a value with the same visible view
(`Envelope.restorable`): shadowed frames are gone and every environment is
persistent, and nothing else has changed.  What sees the view only, equality,
text and transport itself, cannot tell the two apart.

The value must be well formed, as every value that is built is: the keys of a
dict are pairwise unequal, so that putting the entries in again keeps them
all, and a mutable environment lists each name once.
-/

import CapLisp.Proofs.View.Encode
import CapLisp.Proofs.View.Equality
import CapLisp.Proofs.View.Text
import CapLisp.Proofs.WellFormed

namespace CapLisp

namespace Dict

/-- Keys are pairwise unequal exactly if their views are. -/
theorem unequal_view {d : Detail} {entries : Dict}
    (h : ∀ entry ∈ entries, entry.1.Regular d) :
    Unequal (entries.map (Value.viewEntry d)) ↔ Unequal entries := by
  rw [Unequal, Unequal, List.pairwise_map]
  refine List.Pairwise.iff_of_mem fun {earlier later} he hl => ?_
  rw [Value.beq_eq, Value.beq_eq, Value.viewEntry, Value.viewEntry,
    Value.beq_view (h later hl) (h earlier he)]

end Dict

namespace Value

/-- Tells that a value is no mutable environment and no state with one. -/
def isPersistent : Value → Prop
  | env e => e.isImmutable = true
  | state s => s.env.isImmutable = true
  | _ => True

/-- Only an atom looks like one. -/
theorem eq_atom_of_view_eq {d : Detail} {v : Value} {name : String}
    (h : v.view d = (atom name).view d) : v = atom name := by
  cases v <;> simp at h
  rw [h]

/-- A well-formed value is regular, whatever is looked at. -/
theorem isRegular_of_isWellFormed {d : Detail} {v : Value} (h : v.isWellFormed) :
    v.isRegular d := by
  cases v with
  | env e => exact fun _ => h
  | state s => exact fun _ => h
  | _ => trivial

/-- A value without mutable environments is regular, whatever is looked at. -/
theorem isRegular_of_isPersistent {d : Detail} {v : Value} (h : v.isPersistent) :
    v.isRegular d := by
  cases v with
  | env e => exact fun _ => Env.distinct_of_isImmutable h
  | state s => exact fun _ => Env.distinct_of_isImmutable h
  | _ => trivial

/-- A well-formed value is regular everywhere, whatever is looked at. -/
theorem WellFormed.regular {d : Detail} {v : Value} (h : v.WellFormed) : v.Regular d :=
  Everywhere.mono (fun _ => isRegular_of_isWellFormed) h

/-- Tells that `v'` is `v` as transport brings it back. -/
structure Restores (v v' : Value) : Prop where
  view : v'.view .visible = v.view .visible
  persistent : v'.Everywhere isPersistent
  atoms : ∀ name, v.Everywhere (· ≠ atom name) → v'.Everywhere (· ≠ atom name)

/-- Tells that each of some values is one of others as transport brings it back. -/
def RestoredFrom (items items' : List Value) : Prop :=
  ∀ w' ∈ items', ∃ w ∈ items, Restores w w'

namespace RestoredFrom

variable {items items' others others' : List Value}

/-- One more restored value in front. -/
theorem cons {v v' : Value} (hv : Restores v v') (h : RestoredFrom items items') :
    RestoredFrom (v :: items) (v' :: items') := by
  refine List.forall_mem_cons.2 ⟨⟨v, List.mem_cons_self .., hv⟩, ?_⟩
  intro w' hw'
  obtain ⟨w, hw, hres⟩ := h w' hw'
  exact ⟨w, List.mem_cons_of_mem _ hw, hres⟩

/-- Two runs of restored values follow one another. -/
theorem append (h : RestoredFrom items items') (ho : RestoredFrom others others') :
    RestoredFrom (items ++ others) (items' ++ others') := by
  intro w' hw'
  rcases List.mem_append.1 hw' with hw' | hw'
  · obtain ⟨w, hw, hres⟩ := h w' hw'
    exact ⟨w, List.mem_append_left _ hw, hres⟩
  · obtain ⟨w, hw, hres⟩ := ho w' hw'
    exact ⟨w, List.mem_append_right _ hw, hres⟩

/-- Only which values there are counts. -/
theorem mono (h : RestoredFrom items items') (hi : items ⊆ others) (hi' : others' ⊆ items') :
    RestoredFrom others others' := fun w' hw' => by
  obtain ⟨w, hw, hres⟩ := h w' (hi' hw')
  exact ⟨w, hi hw, hres⟩

end RestoredFrom

namespace Restores

variable {v v' : Value}

/-- A restored value is regular. -/
theorem regular (h : Restores v v') : v'.Regular .visible :=
  Everywhere.mono (fun _ => isRegular_of_isPersistent) h.persistent

/-- A value without parts comes back as it is. -/
theorem of_parts_eq_nil (hp : v.isPersistent) (h : v.parts = []) : Restores v v :=
  ⟨rfl, ⟨hp, by simp [h]⟩, fun _ hv => hv⟩

/-- A value comes back if its parts do and it looks the same. -/
theorem of_parts (hview : v'.view .visible = v.view .visible) (hp : v'.isPersistent)
    (hparts : RestoredFrom v.parts v'.parts) : Restores v v' := by
  refine ⟨hview, ⟨hp, ?_⟩, ?_⟩
  · intro w' hw'
    obtain ⟨w, _, hw⟩ := hparts w' hw'
    exact hw.persistent
  · intro name hv
    refine ⟨?_, ?_⟩
    · rintro rfl
      exact hv.here (eq_atom_of_view_eq hview.symm)
    · intro w' hw'
      obtain ⟨w, hmem, hw⟩ := hparts w' hw'
      exact hw.atoms name (hv.inside w hmem)

end Restores

/-- The keys that come back are regular. -/
theorem RestoredFrom.regular_keys {entries entries' : Dict}
    (h : RestoredFrom (entryParts entries) (entryParts entries')) :
    ∀ entry ∈ entries', entry.1.Regular .visible := fun entry hmem => by
  obtain ⟨_, _, hres⟩ := h entry.1 (mem_entryParts.2 ⟨entry, hmem, Or.inl rfl⟩)
  exact hres.regular

/-- Tells that decoding the envelope of a value brings the value back, whatever
serial numbers are free. -/
def Restorable (v : Value) : Prop :=
  ∀ fresh, ∃ v' next, v.encode.decode fresh = .ok (v', next) ∧ Restores v v'

end Value

namespace Envelope

open Value

/-- A second step of decoding goes on with the number that the first one left. -/
theorem run_bind {α β : Type} {x : Decoder α} {f : α → Decoder β} {fresh next : Nat} {a : α}
    (h : x fresh = .ok (a, next)) : (x >>= f) fresh = f a next := by
  show (x fresh >>= fun p => f p.1 p.2) = f a next
  rw [h]
  rfl

/-! ### Decoding piece by piece -/

/-- Elements are restored one by one if each is restorable. -/
theorem exists_decodeAll {items : List Value} (h : ∀ v ∈ items, Restorable v) (fresh : Nat) :
    ∃ items' next, decodeAll (encodeAll items) fresh = .ok (items', next) ∧
      items'.map (view .visible) = items.map (view .visible) ∧ RestoredFrom items items' := by
  induction items generalizing fresh with
  | nil => exact ⟨[], fresh, rfl, rfl, List.forall_mem_nil _⟩
  | cons item rest ih =>
    obtain ⟨hitem, hrest⟩ := List.forall_mem_cons.1 h
    obtain ⟨item', next, hrun, hitem'⟩ := hitem fresh
    obtain ⟨rest', last, hruns, hview, hrest'⟩ := ih hrest next
    refine ⟨item' :: rest', last, ?_, ?_, .cons hitem' hrest'⟩
    · rw [encodeAll, decodeAll, run_bind hrun, run_bind hruns]
      rfl
    · rw [List.map_cons, List.map_cons, hitem'.view, hview]

/-- Slots are restored one by one if each is restorable, at the indices they were written with. -/
theorem exists_decodeSlots {slots : List Value} (h : ∀ v ∈ slots, Restorable v)
    (index fresh : Nat) :
    ∃ slots' next, decodeSlots (encodeSlots slots index) index fresh = .ok (slots', next) ∧
      slots'.map (view .visible) = slots.map (view .visible) ∧ RestoredFrom slots slots' := by
  induction slots generalizing index fresh with
  | nil => exact ⟨[], fresh, rfl, rfl, List.forall_mem_nil _⟩
  | cons slot rest ih =>
    obtain ⟨hslot, hrest⟩ := List.forall_mem_cons.1 h
    obtain ⟨slot', next, hrun, hslot'⟩ := hslot fresh
    obtain ⟨rest', last, hruns, hview, hrest'⟩ := ih hrest (index + 1) next
    refine ⟨slot' :: rest', last, ?_, ?_, .cons hslot' hrest'⟩
    · rw [encodeSlots, decodeSlots, if_pos rfl, run_bind hrun, run_bind hruns]
      rfl
    · rw [List.map_cons, List.map_cons, hslot'.view, hview]

/-- Entries are restored one by one if their keys and values are restorable. -/
theorem exists_decodeEntries {entries : List (Value × Value)}
    (h : ∀ v ∈ entryParts entries, Restorable v) (fresh : Nat) :
    ∃ entries' next, decodeEntries (encodeEntries entries) fresh = .ok (entries', next) ∧
      entries'.map (viewEntry .visible) = entries.map (viewEntry .visible) ∧
      RestoredFrom (entryParts entries) (entryParts entries') := by
  induction entries generalizing fresh with
  | nil => exact ⟨[], fresh, rfl, rfl, List.forall_mem_nil _⟩
  | cons entry rest ih =>
    obtain ⟨key, value⟩ := entry
    obtain ⟨hkey, h⟩ := List.forall_mem_cons.1 h
    obtain ⟨hvalue, hrest⟩ := List.forall_mem_cons.1 h
    obtain ⟨key', next, hrun, hkey'⟩ := hkey fresh
    obtain ⟨value', later, hrun', hvalue'⟩ := hvalue next
    obtain ⟨rest', last, hruns, hview, hrest'⟩ := ih hrest later
    refine ⟨(key', value') :: rest', last, ?_, ?_, .cons hkey' (.cons hvalue' hrest')⟩
    · rw [encodeEntries, decodeEntries, run_bind hrun, run_bind hrun', run_bind hruns]
      rfl
    · simp only [List.map_cons, viewEntry, hkey'.view, hvalue'.view, hview]

/-- Bindings are restored one by one if their values are restorable. -/
theorem exists_decodeBindings {frames : List (String × Value)}
    (h : ∀ v ∈ frames.map Prod.snd, Restorable v) (fresh : Nat) :
    ∃ frames' next, decodeBindings (mapFrames encode frames) fresh = .ok (frames', next) ∧
      mapFrames (view .visible) frames' = mapFrames (view .visible) frames ∧
      RestoredFrom (frames.map Prod.snd) (frames'.map Prod.snd) := by
  induction frames generalizing fresh with
  | nil => exact ⟨[], fresh, rfl, rfl, List.forall_mem_nil _⟩
  | cons frame rest ih =>
    obtain ⟨name, value⟩ := frame
    obtain ⟨hvalue, hrest⟩ := List.forall_mem_cons.1 h
    obtain ⟨value', next, hrun, hvalue'⟩ := hvalue fresh
    obtain ⟨rest', last, hruns, hview, hrest'⟩ := ih hrest next
    refine ⟨(name, value') :: rest', last, ?_, ?_, .cons hvalue' hrest'⟩
    · rw [mapFrames_cons, decodeBindings, run_bind hrun, run_bind hruns]
      rfl
    · rw [mapFrames_cons, mapFrames_cons, hvalue'.view, hview]

/-- The visible bindings of an environment come back as a chain of the same look. -/
theorem exists_decodeEnv {e : Env Value} (he : e.Distinct)
    (h : ∀ v ∈ e.values, Restorable v) (fresh : Nat) :
    ∃ frames next, decodeBindings (encodeEnv e) fresh = .ok (frames, next) ∧
      viewEnv .visible (.persistent frames.reverse) = viewEnv .visible e ∧
      RestoredFrom e.values (Env.persistent frames.reverse).values := by
  have hbindings : ∀ v ∈ e.bindings.map Prod.snd, Restorable v :=
    fun v hv => h v (Env.mem_values_of_mem_bindings hv)
  obtain ⟨frames, next, hrun, hview, hrestored⟩ := exists_decodeBindings hbindings fresh
  refine ⟨frames, next, (encodeEnv_eq he).symm ▸ hrun, ?_, hrestored.mono ?_ ?_⟩
  · rw [viewEnv_eq, viewEnv_eq]
    show Env.persistent (Chain.newest [] (mapFrames _ frames.reverse)) =
      Env.persistent (Chain.newest [] (e.map _).freeze)
    rw [mapFrames_reverse, hview, Env.mapFrames_bindings,
      ← Env.newest_freeze (Env.distinct_map _ he), Chain.newest_newest]
  · exact fun v hv => Env.mem_values_of_mem_bindings hv
  · simp [Env.values]

/-- The code and the scope of a closure come back. -/
theorem exists_decodeClosure {fn : Closure Value} (h : ∀ v ∈ closureParts fn, Restorable v)
    (fresh : Nat) :
    ∃ bodies next frames last, decodeAll (encodeAll fn.bodies) fresh = .ok (bodies, next) ∧
      decodeBindings (encodeScope fn.scope []).reverse next = .ok (frames, last) ∧
      ∀ serial, viewClosure .visible ⟨serial, fn.params, bodies, frames.reverse⟩ =
          viewClosure .visible fn ∧
        RestoredFrom (closureParts fn)
          (closureParts ⟨serial, fn.params, bodies, frames.reverse⟩) := by
  obtain ⟨hbodies, hscope⟩ := List.forall_mem_append.1 h
  obtain ⟨bodies, next, hrun, hview, hrestored⟩ := exists_decodeAll hbodies fresh
  have hd : (Env.persistent fn.scope).Distinct := trivial
  obtain ⟨frames, last, hruns, hchain, hframes⟩ := exists_decodeEnv hd hscope next
  refine ⟨bodies, next, frames, last, hrun, hruns, fun serial => ⟨?_, hrestored.append hframes⟩⟩
  rw [viewEnv_eq, viewEnv_eq] at hchain
  rw [viewClosure_eq, viewClosure_eq, hview]
  exact congrArg (Closure.mk 0 fn.params _) (Env.persistent.inj hchain)

/-! ### Decoding values -/

/-- **Decoding the envelope of a well-formed value brings the value back.** -/
theorem restorable {v : Value} (hv : v.WellFormed) : Restorable v := by
  -- The bodies and the scope of a closure are parts of it as the items of a list are, so one
  -- induction covers values, environments and stores.
  induction v using inductionOnParts with
  | step v ih =>
  have hparts : ∀ w ∈ v.parts, Restorable w := fun w hw => ih w hw (hv.inside w hw)
  intro fresh
  cases v with
  | list items =>
    have hitems : ∀ w ∈ items, Restorable w := hparts
    obtain ⟨items', next, hrun, hview, hrestored⟩ := exists_decodeAll hitems fresh
    refine ⟨.list items', next, ?_, .of_parts ?_ trivial hrestored⟩
    · rw [encode, decode, run_bind hrun]
      rfl
    · rw [view_list, view_list, hview]
  | vector items =>
    have hitems : ∀ w ∈ items, Restorable w := hparts
    obtain ⟨items', next, hrun, hview, hrestored⟩ := exists_decodeAll hitems fresh
    refine ⟨.vector items', next, ?_, .of_parts ?_ trivial hrestored⟩
    · rw [encode, decode, run_bind hrun]
      rfl
    · rw [view_vector, view_vector, hview]
  | dict entries =>
    obtain ⟨entries', next, hrun, hview, hrestored⟩ := exists_decodeEntries hparts fresh
    -- The keys were unequal before, and equality sees no more of a value than its view:
    -- so none of them is lost when the decoded entries are inserted one by one.
    have hunequal : Dict.Unequal entries' := by
      have hentry := fun entry hmem => hv.inside _ (mem_entryParts.2 ⟨entry, hmem, Or.inl rfl⟩)
      rw [← Dict.unequal_view (hrestored.regular_keys), hview,
        Dict.unequal_view fun entry hmem => WellFormed.regular (hentry entry hmem)]
      exact hv.here
    refine ⟨.dict entries', next, ?_, .of_parts ?_ trivial hrestored⟩
    · rw [encode, decode, run_bind hrun, Dict.ofEntries_of_unequal hunequal]
      rfl
    · rw [view_dict, view_dict, hview]
  | lambda fn =>
    obtain ⟨bodies, next, frames, last, hrun, hruns, hclosure⟩ :=
      exists_decodeClosure hparts fresh
    obtain ⟨hview, hrestored⟩ := hclosure last
    refine ⟨.lambda _, last + 1, ?_, .of_parts ?_ trivial hrestored⟩
    · rw [encode, decode, run_bind hrun, run_bind hruns]
      rfl
    · rw [view_lambda, view_lambda, hview]
  | lambdaRec name fn =>
    obtain ⟨bodies, next, frames, last, hrun, hruns, hclosure⟩ :=
      exists_decodeClosure hparts fresh
    obtain ⟨hview, hrestored⟩ := hclosure last
    refine ⟨.lambdaRec name _, last + 1, ?_, .of_parts ?_ trivial hrestored⟩
    · rw [encode, decode, run_bind hrun, run_bind hruns]
      rfl
    · rw [view_lambdaRec, view_lambdaRec, hview]
  | env e =>
    obtain ⟨frames, next, hrun, hview, hrestored⟩ := exists_decodeEnv hv.here hparts fresh
    refine ⟨.env (.persistent frames.reverse), next, ?_, .of_parts ?_ rfl hrestored⟩
    · rw [encode, decode, run_bind hrun]
      rfl
    · rw [view_env, view_env, hview]
  | state s =>
    obtain ⟨e, refs⟩ := s
    obtain ⟨hvalues, hrefs⟩ := List.forall_mem_append.1 hparts
    obtain ⟨frames, next, hrun, hview, hrestored⟩ := exists_decodeEnv hv.here hvalues fresh
    obtain ⟨refs', last, hruns, hviews, hslots⟩ := exists_decodeSlots hrefs 0 next
    refine ⟨.state ⟨.persistent frames.reverse, refs'⟩, last, ?_,
      .of_parts ?_ rfl (hrestored.append hslots)⟩
    · rw [encode, decode, run_bind hrun, run_bind hruns]
      rfl
    · rw [view_state, view_state, viewState_eq, viewState_eq, hview, hviews]
  | atom | keyword | string | number | bool | null | primFn | ref =>
    exact ⟨_, fresh, rfl, .of_parts_eq_nil trivial rfl⟩

end Envelope

/-- **Every value survives transport.**  For every well-formed value, of every
kind and however deeply nested, and whatever serial numbers are free: decoding
its envelope succeeds, with an equal value of the same text, the same envelope
and the same visible view: the visible bindings of every environment inside,
names, order and values, come back as they were. -/
theorem decode_encode {v : Value} (hv : v.WellFormed) (fresh : Nat) :
    ∃ v' next, v.encode.decode fresh = .ok (v', next) ∧
      (v' == v) = true ∧ v'.text = v.text ∧ v'.encode = v.encode ∧
      v'.view .visible = v.view .visible := by
  obtain ⟨v', next, hrun, hrestores⟩ := Envelope.restorable hv fresh
  refine ⟨v', next, hrun, ?_, ?_, ?_, hrestores.view⟩
  · rw [Value.beq_eq, ← Value.beq_view hrestores.regular hv.regular, hrestores.view,
      Value.beq_self]
  · rw [← Value.text_view hrestores.regular, hrestores.view, Value.text_view hv.regular]
  · rw [← Value.encode_view hrestores.regular, hrestores.view, Value.encode_view hv.regular]

/-- A mutable environment whose closure has captured a shadowed frame. -/
theorem decode_encode_shadowed :
    (Value.env (.mutable [("n", .null), ("f", .lambda ⟨7, ["x"], [.atom "y"],
      [("y", .number 2), ("y", .number 1)]⟩)])).WellFormed ∧
    ∃ v' next, (Value.env (.mutable [("n", .null), ("f", .lambda ⟨7, ["x"], [.atom "y"],
        [("y", .number 2), ("y", .number 1)]⟩)])).encode.decode 0 = .ok (v', next) ∧
      (v' == .env (.mutable [("n", .null), ("f", .lambda ⟨7, ["x"], [.atom "y"],
        [("y", .number 2), ("y", .number 1)]⟩)])) = true := by
  have hwell : (Value.env (.mutable [("n", .null), ("f", .lambda ⟨7, ["x"], [.atom "y"],
      [("y", .number 2), ("y", .number 1)]⟩)])).WellFormed := by
    simp [Value.WellFormed, Value.isWellFormed, Value.EverywhereInClosure, Env.Distinct,
      Env.values]
  obtain ⟨v', next, hrun, hequal, _⟩ := decode_encode hwell 0
  exact ⟨hwell, v', next, hrun, hequal⟩

end CapLisp
