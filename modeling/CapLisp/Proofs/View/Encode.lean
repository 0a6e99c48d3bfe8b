/-
# Transport ships the view

The envelope of an environment lists its visible bindings, and no envelope
holds a serial number.  So a value and its view have the same envelope
(`encode_view`).
-/

import CapLisp.Proofs.View.Basic
import CapLisp.Wire.Envelope

namespace CapLisp
namespace Value

/-! ### Envelopes piece by piece -/

/-- Elements are encoded one by one. -/
theorem encodeAll_eq_map (items : List Value) : encodeAll items = items.map encode := by
  induction items with
  | nil => rfl
  | cons item rest ih => rw [encodeAll, ih, List.map_cons]

/-- Entries are encoded one by one. -/
theorem encodeEntries_eq_map (entries : List (Value × Value)) :
    encodeEntries entries = entries.map fun entry => (entry.1.encode, entry.2.encode) := by
  induction entries with
  | nil => rfl
  | cons entry rest ih => rw [encodeEntries, ih, List.map_cons]

/-- What is encoded of a scope are the frames that are not shadowed. -/
theorem encodeScope_eq (frames : List (String × Value)) (seen : List String) :
    encodeScope frames seen = mapFrames encode (Chain.newest seen frames) := by
  induction frames generalizing seen with
  | nil => rfl
  | cons frame rest ih =>
    obtain ⟨name, value⟩ := frame
    by_cases h : name ∈ seen <;> simp [encodeScope, Chain.newest, h, ih]

/-- **The envelope of an environment** lists its visible bindings in order. -/
theorem encodeEnv_eq {e : Env Value} (he : e.Distinct) :
    encodeEnv e = mapFrames encode e.bindings := by
  cases e with
  | persistent frames => rw [encodeEnv, encodeScope_eq, ← mapFrames_reverse]; rfl
  | mutable bindings => rw [encodeEnv, encodeScope_eq, Chain.newest_nil_eq_self he]; rfl

/-- A change of slots that keeps their envelopes keeps the envelope of the store. -/
theorem encodeSlots_map {f : Value → Value} {slots : List Value}
    (h : ∀ v ∈ slots, (f v).encode = v.encode) (index : Nat) :
    encodeSlots (slots.map f) index = encodeSlots slots index := by
  induction slots generalizing index with
  | nil => rfl
  | cons slot rest ih =>
    obtain ⟨hslot, hrest⟩ := List.forall_mem_cons.1 h
    rw [List.map_cons, encodeSlots, encodeSlots, ih hrest, hslot]

/-! ### Views -/

/-- Elements have the envelopes of what is visible of them. -/
theorem encodeAll_view {items : List Value}
    (h : ∀ v ∈ items, (v.view .visible).encode = v.encode) :
    encodeAll (items.map (view .visible)) = encodeAll items := by
  rw [encodeAll_eq_map, encodeAll_eq_map, List.map_map]
  exact List.map_congr_left h

/-- A scope has the envelope of what is visible of it. -/
theorem encodeScope_view {frames : List (String × Value)}
    (h : ∀ v ∈ frames.map Prod.snd, (v.view .visible).encode = v.encode) :
    encodeScope (Detail.visible.chain (mapFrames (view .visible) frames)) [] =
      encodeScope frames [] := by
  have hframes : mapFrames (fun v => (view .visible v).encode) frames = mapFrames encode frames :=
    mapFrames_congr _ h
  rw [encodeScope_eq, encodeScope_eq, Detail.chain, Chain.newest_newest, ← Chain.newest_map,
    ← Chain.newest_map, mapFrames_mapFrames, hframes]

/-- An environment has the envelope of what is visible of it. -/
theorem encodeEnv_view {e : Env Value} (he : e.Distinct)
    (h : ∀ v ∈ e.values, (v.view .visible).encode = v.encode) :
    encodeEnv (viewEnv .visible e) = encodeEnv e := by
  have hn : (Detail.visible.env (e.map (view .visible))).Distinct := trivial
  have hbindings : ∀ v ∈ e.bindings.map Prod.snd, (view .visible v).encode = v.encode :=
    fun v hv => h v (Env.mem_values_of_mem_bindings hv)
  rw [viewEnv_eq, encodeEnv_eq hn, encodeEnv_eq he,
    Detail.bindings_env fun _ => Env.distinct_map _ he, ← Env.mapFrames_bindings,
    mapFrames_mapFrames, mapFrames_congr _ hbindings]

/-- **A value and its view have the same envelope.** -/
theorem encode_view {v : Value} (hv : v.Regular .visible) :
    (v.view .visible).encode = v.encode := by
  induction v using inductionOnParts with
  | step v ih =>
  have hparts : ∀ a ∈ v.parts, (a.view .visible).encode = a.encode :=
    fun a ha => ih a ha (hv.inside a ha)
  have hclosure : ∀ fn : Closure Value, closureParts fn ⊆ v.parts →
      encodeAll (fn.bodies.map (view .visible)) = encodeAll fn.bodies ∧
      encodeScope (Detail.visible.chain (mapFrames (view .visible) fn.scope)) [] =
        encodeScope fn.scope [] := fun fn hfn =>
    ⟨encodeAll_view fun a ha => hparts a (hfn (List.mem_append_left _ ha)),
      encodeScope_view fun a ha => hparts a (hfn (List.mem_append_right _ ha))⟩
  cases v with
  | list items =>
    rw [view_list, encode, encode]
    exact congrArg Envelope.list (encodeAll_view hparts)
  | vector items =>
    rw [view_vector, encode, encode]
    exact congrArg Envelope.vector (encodeAll_view hparts)
  | dict entries =>
    rw [view_dict, encode, encode, encodeEntries_eq_map, encodeEntries_eq_map, List.map_map]
    refine congrArg Envelope.dict (List.map_congr_left fun entry hmem => ?_)
    exact Prod.ext (hparts _ (mem_entryParts.2 ⟨entry, hmem, Or.inl rfl⟩))
      (hparts _ (mem_entryParts.2 ⟨entry, hmem, Or.inr rfl⟩))
  | lambda fn =>
    obtain ⟨hbodies, hscope⟩ := hclosure fn (List.Subset.refl _)
    rw [view_lambda, viewClosure_eq, encode, hbodies, hscope, encode]
  | lambdaRec name fn =>
    obtain ⟨hbodies, hscope⟩ := hclosure fn (List.Subset.refl _)
    rw [view_lambdaRec, viewClosure_eq, encode, hbodies, hscope, encode]
  | env e => rw [view_env, encode, encode, encodeEnv_view (hv.here rfl) hparts]
  | state s =>
    obtain ⟨e, refs⟩ := s
    rw [view_state, viewState_eq, encode, encode,
      encodeEnv_view (hv.here rfl) fun a ha => hparts a (List.mem_append_left _ ha),
      encodeSlots_map fun a ha => hparts a (List.mem_append_right _ ha)]
  | _ => simp

end Value
end CapLisp
