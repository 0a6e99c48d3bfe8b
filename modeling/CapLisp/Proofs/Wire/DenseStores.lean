/-
# Which envelopes are decoded

An envelope comes from a peer, and what decoding asks of it is one thing only: in
every state inside it, the slots are numbered from zero without gaps.  The check
stands in one place, in the loop over the slots of a state, and a state can stand
anywhere: in a list, as a key or a value of a dict, in the code or the scope of a
closure, in an environment, in a slot of another state.

`Inside` says where an envelope can stand and knows nothing of decoding, `Dense` asks
that every state be numbered.  Decoding a piece either succeeds, and the piece is
dense, or it stops at a slot that is out of its place (`Decides`).  This is carried
through the loops of the decoder (`decides_decode`), and so an envelope is decoded
exactly if it is dense (`decode_iff_dense`).  Keys and names that repeat, and names
that no text can spell, are decoded like any others.
-/

import CapLisp.Wire.Envelope

namespace CapLisp
namespace Envelope

/-! ### Dense stores -/

/-- The envelopes that stand directly inside one. -/
def parts : Envelope → List Envelope
  | list items | vector items => items
  | dict entries => entries.flatMap fun entry => [entry.1, entry.2]
  | lambda _ bodies scope | lambdaRec _ _ bodies scope => bodies ++ scope.map (·.2)
  | env bindings => bindings.map (·.2)
  | state bindings refs => bindings.map (·.2) ++ refs.map (·.2)
  | _ => []

/-- Tells that an envelope is, or stands somewhere inside, another one. -/
inductive Inside (u : Envelope) : Envelope → Prop
  | here : Inside u u
  | part {v w : Envelope} (hv : v ∈ w.parts) (h : Inside u v) : Inside u w

/-- Tells that the indices of slots, 64-bit words, are 0, 1, 2 and so on. -/
def Numbered (refs : List (UInt64 × Envelope)) : Prop :=
  refs.map (·.1) = (List.range refs.length).map UInt64.ofNat

/-- Tells that the slots of every state inside an envelope are numbered from zero
without gaps. -/
def Dense (w : Envelope) : Prop := ∀ bindings refs, Inside (state bindings refs) w → Numbered refs

/-- Tells that in a state inside an envelope a slot has the index `index` that stands in
place `expected`, which is another one. -/
def Misplaced (w : Envelope) (index : UInt64) (expected : Nat) : Prop :=
  ∃ bindings refs slot, Inside (state bindings refs) w ∧
    refs[expected]? = some (index, slot) ∧ index ≠ UInt64.ofNat expected

/-- Slots are numbered exactly if each has its position as its index. -/
theorem numbered_iff {refs : List (UInt64 × Envelope)} :
    Numbered refs ↔ ∀ i index slot, refs[i]? = some (index, slot) → index = UInt64.ofNat i := by
  rw [Numbered, List.ext_getElem?_iff]
  refine forall_congr' fun i => ?_
  rw [List.getElem?_map, List.getElem?_map]
  rcases Nat.lt_or_ge i refs.length with hi | hi
  · rw [List.getElem?_eq_getElem hi, List.getElem?_range hi]
    simp [Prod.ext_iff]
  · rw [List.getElem?_eq_none hi, List.getElem?_eq_none (by simpa using hi)]
    simp

/-- A slot in another's place shows that an envelope is not dense. -/
theorem Misplaced.not_dense {w : Envelope} {index : UInt64} {expected : Nat}
    (h : w.Misplaced index expected) : ¬ w.Dense := by
  obtain ⟨bindings, refs, slot, hinside, hslot, hne⟩ := h
  exact fun hdense => hne (numbered_iff.1 (hdense bindings refs hinside) _ _ _ hslot)

/-- An index misplaced in a part is misplaced in the whole. -/
theorem Misplaced.of_part {v w : Envelope} {index : UInt64} {expected : Nat} (hv : v ∈ w.parts)
    (h : v.Misplaced index expected) : w.Misplaced index expected := by
  obtain ⟨bindings, refs, slot, hinside, hslot⟩ := h
  exact ⟨bindings, refs, slot, .part hv hinside, hslot⟩

/-- An envelope is dense if its parts are and it is no state with slots out of place. -/
theorem dense_of_parts {w : Envelope} (here : ∀ bindings refs, w = state bindings refs →
    Numbered refs) (inside : ∀ v ∈ w.parts, v.Dense) : w.Dense := by
  rintro bindings refs (_ | ⟨hv, h⟩)
  · exact here bindings refs rfl
  · exact inside _ hv bindings refs h

/-! ### Decoding piece by piece -/

/-- Tells that a step of decoding succeeds, whatever serial numbers are free, if `good`
holds, and otherwise stops at an index of which `bad` holds. -/
def Decides {α : Type} (x : Decoder α) (good : Prop) (bad : UInt64 → Nat → Prop) : Prop :=
  ∀ fresh, (good ∧ ∃ a next, x fresh = .ok (a, next)) ∨
    ∃ index expected, bad index expected ∧
      x fresh = .error (.impossible (.referenceOrder index expected))

namespace Decides

variable {α β : Type} {x : Decoder α} {f : α → Decoder β} {good good' : Prop}
  {bad bad' : UInt64 → Nat → Prop}

/-- A finished step has nothing to decide. -/
theorem pure (a : α) : Decides (pure a : Decoder α) True bad :=
  fun fresh => .inl ⟨trivial, a, fresh, rfl⟩

/-- Taking a serial number decides nothing. -/
theorem nextSerial : Decides nextSerial True bad :=
  fun fresh => .inl ⟨trivial, fresh, fresh + 1, rfl⟩

/-- The second step is taken if the first one succeeds, and both decide. -/
theorem bind (hx : Decides x good bad) (hf : ∀ a, Decides (f a) good' bad) :
    Decides (x >>= f) (good ∧ good') bad := by
  intro fresh
  have hrun : (x >>= f) fresh = x fresh >>= fun r => f r.1 r.2 := rfl
  rw [hrun]
  rcases hx fresh with ⟨hgood, a, next, ha⟩ | ⟨index, expected, hbad, he⟩
  · rw [ha]
    rcases hf a next with ⟨hgood', hend⟩ | hstop
    · exact .inl ⟨⟨hgood, hgood'⟩, hend⟩
    · exact .inr hstop
  · rw [he]
    exact .inr ⟨index, expected, hbad, rfl⟩

/-- A step that decides something decides what follows from it. -/
theorem imp (h : Decides x good bad) (hgood : good → good')
    (hbad : ∀ index expected, bad index expected → bad' index expected) :
    Decides x good' bad' := by
  intro fresh
  rcases h fresh with ⟨h, hend⟩ | ⟨index, expected, h, he⟩
  · exact .inl ⟨hgood h, hend⟩
  · exact .inr ⟨index, expected, hbad _ _ h, he⟩

end Decides

/-- Tells that a step that decodes several envelopes decides whether they are dense. -/
def DecidesAll {α : Type} (x : Decoder α) (items : List Envelope) : Prop :=
  Decides x (∀ v ∈ items, v.Dense) fun index expected =>
    ∃ v ∈ items, v.Misplaced index expected

namespace DecidesAll

variable {α β : Type} {x : Decoder α} {f : α → Decoder β} {items others : List Envelope}

/-- A finished step decides about no envelopes. -/
theorem nil (a : α) : DecidesAll (pure a : Decoder α) [] :=
  (Decides.pure a).imp (fun _ => List.forall_mem_nil _) fun _ _ h => h

/-- One envelope after another is decoded as a whole. -/
theorem append (hx : DecidesAll x items) (hf : ∀ a, DecidesAll (f a) others) :
    DecidesAll (x >>= f) (items ++ others) := by
  have hleft : Decides x (∀ v ∈ items, v.Dense) fun index expected =>
      ∃ v ∈ items ++ others, v.Misplaced index expected := by
    refine hx.imp id ?_
    rintro _ _ ⟨v, hv, h⟩
    exact ⟨v, List.mem_append_left _ hv, h⟩
  have hright : ∀ a, Decides (f a) (∀ v ∈ others, v.Dense) fun index expected =>
      ∃ v ∈ items ++ others, v.Misplaced index expected := by
    intro a
    refine (hf a).imp id ?_
    rintro _ _ ⟨v, hv, h⟩
    exact ⟨v, List.mem_append_right _ hv, h⟩
  exact (hleft.bind hright).imp List.forall_mem_append.2 fun _ _ h => h

/-- A step that decides about one envelope decides about a list of one. -/
theorem one {v : Envelope} {x : Decoder α} (h : Decides x v.Dense v.Misplaced) :
    DecidesAll x [v] :=
  h.imp (fun h => List.forall_mem_singleton.2 h) fun _ _ h => ⟨v, List.mem_singleton_self v, h⟩

/-- What is done with the decoded envelopes decides nothing more. -/
theorem andThen (hx : DecidesAll x items) (hf : ∀ a, Decides (f a) True fun _ _ => False) :
    DecidesAll (x >>= f) items :=
  (Decides.bind hx fun a => (hf a).imp id fun _ _ h => h.elim).imp And.left fun _ _ h => h

/-- An envelope that is no state is decided by what stands in it. -/
theorem decides {w : Envelope} (hx : DecidesAll x w.parts)
    (hw : ∀ bindings refs, w ≠ state bindings refs) : Decides x w.Dense w.Misplaced := by
  refine hx.imp (dense_of_parts fun _ _ he => absurd he (hw _ _)) ?_
  rintro _ _ ⟨v, hv, h⟩
  exact h.of_part hv

end DecidesAll

/-! ### The slots of a state -/

/-- Tells that the indices of slots are `first`, the number after it and so on. -/
def NumberedFrom (first : Nat) (refs : List (UInt64 × Envelope)) : Prop :=
  ∀ i index slot, refs[i]? = some (index, slot) → index = UInt64.ofNat (first + i)

/-- Tells that a slot has the index `index` that stands in place `expected`, the first
place being `first`, and that it is another one. -/
def MisplacedFrom (first : Nat) (refs : List (UInt64 × Envelope)) (index : UInt64)
    (expected : Nat) : Prop :=
  ∃ i slot, refs[i]? = some (index, slot) ∧ expected = first + i ∧ index ≠ UInt64.ofNat expected

/-- A slot with the first index comes in front of those numbered from the next one on. -/
theorem NumberedFrom.cons {first : Nat} {refs : List (UInt64 × Envelope)} {index : UInt64}
    (slot : Envelope) (hindex : index = UInt64.ofNat first) (h : NumberedFrom (first + 1) refs) :
    NumberedFrom first ((index, slot) :: refs) := by
  intro i index' slot' hi
  cases i with
  | zero =>
    cases hi
    exact hindex
  | succ i =>
    rw [h i index' slot' hi]
    congr 1
    omega

/-- An index misplaced among later slots is misplaced. -/
theorem MisplacedFrom.later {first expected : Nat} {refs : List (UInt64 × Envelope)}
    {index : UInt64} (entry : UInt64 × Envelope)
    (h : MisplacedFrom (first + 1) refs index expected) :
    MisplacedFrom first (entry :: refs) index expected := by
  obtain ⟨i, slot, hi, hplace, hne⟩ := h
  exact ⟨i + 1, slot, hi, by omega, hne⟩

/-- Slots numbered from zero on are numbered. -/
theorem NumberedFrom.numbered {refs : List (UInt64 × Envelope)} (h : NumberedFrom 0 refs) :
    Numbered refs := by
  refine numbered_iff.2 fun i index slot hi => ?_
  rw [h i index slot hi, Nat.zero_add]

/-- An index misplaced among the slots of a state is misplaced in it. -/
theorem MisplacedFrom.misplaced {refs : List (UInt64 × Envelope)} {index : UInt64}
    {expected : Nat} (bindings : List (String × Envelope))
    (h : MisplacedFrom 0 refs index expected) :
    (state bindings refs).Misplaced index expected := by
  obtain ⟨i, slot, hi, rfl, hne⟩ := h
  exact ⟨bindings, refs, slot, .here, by rwa [Nat.zero_add], hne⟩

/-! ### The decoder -/

mutual

/-- **Decoding succeeds on a dense envelope, and on any other one it stops** at a slot
that is out of its place. -/
theorem decides_decode (w : Envelope) : Decides w.decode w.Dense w.Misplaced := by
  cases w with
  | list items | vector items =>
    exact ((decides_decodeAll items).andThen fun _ => .pure _).decides (by rintro _ _ ⟨⟩)
  | dict entries =>
    exact ((decides_decodeEntries entries).andThen fun _ => .pure _).decides (by rintro _ _ ⟨⟩)
  | lambda params bodies scope | lambdaRec name params bodies scope =>
    refine DecidesAll.decides ((decides_decodeAll bodies).append fun _ =>
      (decides_decodeBindings scope).andThen fun _ => ?_) (by rintro _ _ ⟨⟩)
    -- The serial number is given out last, and whatever it is.
    exact (Decides.nextSerial.bind fun _ => .pure _).imp (fun _ => trivial) fun _ _ h => h
  | env bindings =>
    exact ((decides_decodeBindings bindings).andThen fun _ => .pure _).decides (by rintro _ _ ⟨⟩)
  | state bindings refs =>
    have hbindings : Decides (decodeBindings bindings) (∀ v ∈ bindings.map (·.2), v.Dense)
        (state bindings refs).Misplaced := by
      refine (decides_decodeBindings bindings).imp id ?_
      rintro _ _ ⟨v, hv, h⟩
      exact h.of_part (List.mem_append_left _ hv)
    have hslots : Decides (decodeSlots refs 0) (NumberedFrom 0 refs ∧ ∀ v ∈ refs.map (·.2), v.Dense)
        (state bindings refs).Misplaced := by
      refine (decides_decodeSlots refs 0).imp id ?_
      rintro _ _ (h | ⟨v, hv, h⟩)
      · exact h.misplaced bindings
      · exact h.of_part (List.mem_append_right _ hv)
    refine (hbindings.bind fun _ => hslots.bind fun _ => .pure _).imp ?_ fun _ _ h => h
    rintro ⟨hdense, ⟨hnumbered, hdense'⟩, -⟩
    refine dense_of_parts (fun _ _ he => ?_) (List.forall_mem_append.2 ⟨hdense, hdense'⟩)
    cases he
    exact hnumbered.numbered
  | _ => exact (DecidesAll.nil _).decides (by rintro _ _ ⟨⟩)
termination_by structural w

/-- Decoding elements decides whether all of them are dense. -/
theorem decides_decodeAll (items : List Envelope) : DecidesAll (decodeAll items) items := by
  cases items with
  | nil => exact .nil _
  | cons item rest =>
    exact (DecidesAll.one (decides_decode item)).append fun _ =>
      (decides_decodeAll rest).andThen fun _ => .pure _
termination_by structural items

/-- Decoding entries decides whether their keys and values are dense. -/
theorem decides_decodeEntries (entries : List (Envelope × Envelope)) :
    DecidesAll (decodeEntries entries) (dict entries).parts := by
  match entries with
  | [] => exact .nil _
  | (key, value) :: rest =>
    exact (DecidesAll.one (decides_decode key)).append fun _ =>
      (DecidesAll.one (decides_decode value)).append fun _ =>
        (decides_decodeEntries rest).andThen fun _ => .pure _
termination_by structural entries

/-- Decoding bindings decides whether their values are dense. -/
theorem decides_decodeBindings (bindings : List (String × Envelope)) :
    DecidesAll (decodeBindings bindings) (env bindings).parts := by
  match bindings with
  | [] => exact .nil _
  | (name, value) :: rest =>
    exact (DecidesAll.one (decides_decode value)).append fun _ =>
      (decides_decodeBindings rest).andThen fun _ => .pure _
termination_by structural bindings

/-- Decoding slots decides whether they are numbered and their values dense. -/
theorem decides_decodeSlots (refs : List (UInt64 × Envelope)) (first : Nat) :
    Decides (decodeSlots refs first)
      (NumberedFrom first refs ∧ ∀ v ∈ refs.map (·.2), v.Dense) fun index expected =>
        MisplacedFrom first refs index expected ∨
          ∃ v ∈ refs.map (·.2), v.Misplaced index expected := by
  match refs with
  | [] => exact (Decides.pure _).imp (fun _ => ⟨by simp [NumberedFrom], by simp⟩) fun _ _ h => h
  | (index, slot) :: rest =>
    rw [decodeSlots]
    split
    · next hindex =>
      refine (((decides_decode slot).imp id ?_).bind fun _ =>
        ((decides_decodeSlots rest (first + 1)).imp id ?_).bind fun _ => .pure _).imp ?_
          fun _ _ h => h
      · exact fun _ _ h => .inr ⟨slot, List.mem_cons_self .., h⟩
      · rintro _ _ (h | ⟨v, hv, h⟩)
        · exact .inl (h.later _)
        · exact .inr ⟨v, List.mem_cons_of_mem _ hv, h⟩
      · rintro ⟨hslot, ⟨hnumbered, hrest⟩, -⟩
        exact ⟨hnumbered.cons slot hindex, List.forall_mem_cons.2 ⟨hslot, hrest⟩⟩
    · next hindex =>
      -- The index is refused before its slot is looked at.
      exact fun fresh => .inr ⟨index, first, .inl ⟨0, slot, rfl, rfl, hindex⟩, rfl⟩
termination_by structural refs

end

/-- **Decoding accepts exactly the envelopes with dense stores**, whatever serial numbers
are free.  An envelope is decoded if and only if in every state anywhere inside it the
indices of the slots are 0, 1, 2 and so on.  Any other one is refused with an error of
kind `Impossible` and label `decode`, which names the index of a slot that is out of its
place and the index that belongs there. -/
theorem decode_iff_dense (w : Envelope) (fresh : Nat) :
    ((∃ v next, w.decode fresh = .ok (v, next)) ↔ w.Dense) ∧
    (¬ w.Dense → ∃ e, w.decode fresh = .error e ∧ e.kind = .impossible ∧
      e.label = some "decode" ∧ ∃ index expected, w.Misplaced index expected ∧
        e = .impossible (.referenceOrder index expected)) := by
  rcases decides_decode w fresh with ⟨hdense, hend⟩ | ⟨index, expected, hmisplaced, he⟩
  · exact ⟨iff_of_true hend hdense, fun h => absurd hdense h⟩
  · have hsparse : ¬ w.Dense := hmisplaced.not_dense
    have hfails : ¬ ∃ v next, w.decode fresh = .ok (v, next) := by
      rintro ⟨v, next, hv⟩
      rw [he] at hv
      cases hv
    exact ⟨iff_of_false hfails hsparse,
      fun _ => ⟨_, he, rfl, rfl, index, expected, hmisplaced, rfl⟩⟩

/-- A gap in a state that a closure captured which is the key of a dict.  Without the gap
the dict is decoded, though its keys are the same and a name is one that no text spells. -/
theorem decode_iff_dense_captured :
    let key := fun index : UInt64 =>
      lambda ["x"] [] [("(", state [("a", null)] [(0, null), (index, ref 7)])]
    let pair := fun index : UInt64 => dict [(key 1, null), (key index, null)]
    (∃ v next, (pair 1).decode 5 = .ok (v, next)) ∧ (pair 1).Dense ∧ ¬ (pair 2).Dense ∧
    ∃ e, (pair 2).decode 5 = .error e ∧ e.kind = .impossible ∧ e.label = some "decode" ∧
      ∃ index expected, (pair 2).Misplaced index expected ∧
        e = .impossible (.referenceOrder index expected) := by
  intro key pair
  have hok : ∃ v next, (pair 1).decode 5 = .ok (v, next) := ⟨_, _, rfl⟩
  have hmisplaced : (pair 2).Misplaced 2 1 :=
    ⟨[("a", null)], [(0, null), (2, ref 7)], ref 7,
      .part (v := key 2) (by simp [pair, parts]) (.part (by simp [key, parts]) .here),
      rfl, by decide⟩
  exact ⟨hok, (decode_iff_dense _ _).1.1 hok, hmisplaced.not_dense,
    (decode_iff_dense _ 5).2 hmisplaced.not_dense⟩

end Envelope
end CapLisp
