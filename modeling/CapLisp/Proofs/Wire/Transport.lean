/-
# Shipped texts come back up to a depth

A value is shipped as the JSON text of its envelope, through a library that is as
documented.  The library writes every envelope, since no document of one has a key that
is no string (`Envelope.hasTextKeys_document`).  What it writes spells the document
(`Document.isSpelledBy_text`) and nests as deep as it (`Document.depth_eq_nesting`), so
the envelope is read again exactly if the text nests no deeper than is read, and decodes
to a value that looks the same (`Envelope.restorable`).

A list adds two levels, one for its object and one for its array, so of lists inside
lists 63 come back and 64 do not.
-/

import CapLisp.Proofs.RoundTrip
import CapLisp.Proofs.Wire.Reading

namespace CapLisp

namespace Envelope

/-! ### Documents of envelopes -/

/-- A map of two members has strings as keys if their values do. -/
theorem hasTextKeys_pair {name other : String} {a b : Document} (ha : a.HasTextKeys)
    (hb : b.HasTextKeys) : (Document.object [(name, a), (other, b)]).HasTextKeys :=
  .object (List.forall_mem_cons.2 ⟨ha, List.forall_mem_singleton.2 hb⟩)

/-- An array of two elements has strings as keys if they do. -/
theorem hasTextKeys_arrayPair {a b : Document} (ha : a.HasTextKeys) (hb : b.HasTextKeys) :
    (Document.array [a, b]).HasTextKeys :=
  .array (List.forall_mem_cons.2 ⟨ha, List.forall_mem_singleton.2 hb⟩)

/-- A tag with its content has strings as keys if the content does. -/
theorem hasTextKeys_tagged {tag : Tag} {content : Document} (h : content.HasTextKeys) :
    (tagged tag content).HasTextKeys :=
  hasTextKeys_pair (.string _) h

/-- The parts of a closure have strings as keys if the bodies and the bindings do. -/
theorem hasTextKeys_closure {params : List String} {bodies scope : List Document}
    (hbodies : ∀ d ∈ bodies, d.HasTextKeys) (hscope : ∀ d ∈ scope, d.HasTextKeys) :
    (closure params bodies scope).HasTextKeys := by
  have hparams : ∀ d ∈ params.map Document.string, d.HasTextKeys := fun d hd => by
    obtain ⟨text, -, rfl⟩ := List.mem_map.1 hd
    exact .string text
  exact .object (List.forall_mem_cons.2 ⟨.array hparams, List.forall_mem_cons.2
    ⟨.array hbodies, List.forall_mem_singleton.2 (.array hscope)⟩⟩)

mutual

/-- **The document of an envelope has only strings as keys.** -/
theorem hasTextKeys_document (e : Envelope) : e.document.HasTextKeys := by
  cases e with
  | atom | keyword | string | primFn => exact hasTextKeys_tagged (.string _)
  | boolean b => exact hasTextKeys_tagged (.bool b)
  | number n => exact hasTextKeys_tagged (.number _)
  | ref index => exact hasTextKeys_tagged (.number _)
  | null => exact .object (List.forall_mem_singleton.2 (.string _))
  | list items => exact hasTextKeys_tagged (.array (hasTextKeys_documents items))
  | vector items => exact hasTextKeys_tagged (.array (hasTextKeys_documents items))
  | dict entries => exact hasTextKeys_tagged (.array (hasTextKeys_entryDocuments entries))
  | lambda params bodies scope =>
    exact hasTextKeys_tagged
      (hasTextKeys_closure (hasTextKeys_documents bodies) (hasTextKeys_bindingDocuments scope))
  | lambdaRec name params bodies scope =>
    exact hasTextKeys_tagged (hasTextKeys_pair (.string name)
      (hasTextKeys_closure (hasTextKeys_documents bodies) (hasTextKeys_bindingDocuments scope)))
  | env bindings => exact hasTextKeys_tagged (.array (hasTextKeys_bindingDocuments bindings))
  | state bindings refs =>
    exact hasTextKeys_tagged (hasTextKeys_pair (.array (hasTextKeys_bindingDocuments bindings))
      (.array (hasTextKeys_slotDocuments refs)))
termination_by structural e

/-- So do those of the elements. -/
theorem hasTextKeys_documents (items : List Envelope) :
    ∀ d ∈ documents items, d.HasTextKeys := by
  cases items with
  | nil => exact List.forall_mem_nil _
  | cons item more =>
    exact List.forall_mem_cons.2 ⟨hasTextKeys_document item, hasTextKeys_documents more⟩
termination_by structural items

/-- So do those of the entries. -/
theorem hasTextKeys_entryDocuments (entries : List (Envelope × Envelope)) :
    ∀ d ∈ entryDocuments entries, d.HasTextKeys := by
  cases entries with
  | nil => exact List.forall_mem_nil _
  | cons entry more =>
    obtain ⟨key, value⟩ := entry
    exact List.forall_mem_cons.2
      ⟨hasTextKeys_arrayPair (hasTextKeys_document key) (hasTextKeys_document value),
        hasTextKeys_entryDocuments more⟩
termination_by structural entries

/-- So do those of the bindings. -/
theorem hasTextKeys_bindingDocuments (bindings : List (String × Envelope)) :
    ∀ d ∈ bindingDocuments bindings, d.HasTextKeys := by
  cases bindings with
  | nil => exact List.forall_mem_nil _
  | cons binding more =>
    obtain ⟨name, value⟩ := binding
    exact List.forall_mem_cons.2
      ⟨hasTextKeys_arrayPair (.string name) (hasTextKeys_document value),
        hasTextKeys_bindingDocuments more⟩
termination_by structural bindings

/-- So do those of the slots. -/
theorem hasTextKeys_slotDocuments (slots : List (UInt64 × Envelope)) :
    ∀ d ∈ slotDocuments slots, d.HasTextKeys := by
  cases slots with
  | nil => exact List.forall_mem_nil _
  | cons slot more =>
    obtain ⟨index, value⟩ := slot
    exact List.forall_mem_cons.2
      ⟨hasTextKeys_arrayPair (.number _) (hasTextKeys_document value),
        hasTextKeys_slotDocuments more⟩
termination_by structural slots

end

/-- The compact text of an envelope's document is strict JSON for it. -/
theorem isSpelledBy_text (e : Envelope) : e.document.IsSpelledBy e.document.text :=
  Document.isSpelledBy_text (hasTextKeys_document e)

/-- The compact text of an envelope's document nests as deep as the document. -/
theorem depth_text (e : Envelope) : Json.depth e.document.text = e.document.nesting :=
  Document.depth_eq_nesting e.isSpelledBy_text

end Envelope

namespace Value

variable {library : JsonLibrary} {v v' : Value}

/-! ### Through the library -/

/-- **Every value is written**, as the compact text of its envelope's document. -/
theorem toJson_eq_ok (hlibrary : library.Documented) (v : Value) :
    v.toJson library = .ok v.encode.document.text := by
  rw [toJson, hlibrary.writes _ (Envelope.hasTextKeys_document _)]

/-- A text that nests no deeper than is read gives the envelope back. -/
theorem ofJson_of_le (hlibrary : library.Documented)
    (h : Json.depth v.encode.document.text ≤ JsonLibrary.maxNesting) (fresh : Nat) :
    ofJson library v.encode.document.text fresh = v.encode.decode fresh := by
  rw [Envelope.depth_text] at h
  rw [ofJson, hlibrary.reads _ _ (Envelope.isSpelledBy_text _) h]

/-- A text that nests deeper is refused with the library's message. -/
theorem exists_ofJson_of_lt (hlibrary : library.Documented)
    (h : JsonLibrary.maxNesting < Json.depth v.encode.document.text) (fresh : Nat) :
    ∃ message, ofJson library v.encode.document.text fresh =
      .error (.failed (.malformedEnvelope message)) := by
  rw [Envelope.depth_text] at h
  obtain ⟨message, hread⟩ := hlibrary.refuses _ _ (Envelope.isSpelledBy_text _) h
  exact ⟨message, by rw [ofJson, hread]⟩

/-- What transport brings back equals the value, prints as it does and has the same
envelope. -/
theorem Restores.same (h : Restores v v') (hv : v.WellFormed) :
    (v' == v) = true ∧ v'.text = v.text ∧ v'.encode = v.encode := by
  refine ⟨?_, ?_, ?_⟩
  · rw [beq_eq, ← beq_view h.regular hv.regular, h.view, beq_self]
  · rw [← text_view h.regular, h.view, text_view hv.regular]
  · rw [← encode_view h.regular, h.view, encode_view hv.regular]

/-- Lists inside lists, `depth` of them, with null inside the innermost. -/
def nestedLists : (depth : Nat) → Value
  | 0 => null
  | depth + 1 => list [nestedLists depth]

/-- Lists inside lists hold no dictionary and no environment. -/
theorem wellFormed_nestedLists (depth : Nat) : (nestedLists depth).WellFormed := by
  induction depth with
  | zero => exact everywhere_null.2 trivial
  | succ depth ih => exact everywhere_list.2 ⟨trivial, List.forall_mem_singleton.2 ih⟩

/-- Each list adds the level of an object and the level of an array. -/
theorem nesting_nestedLists (depth : Nat) :
    (nestedLists depth).encode.document.nesting = 2 * depth + 1 := by
  induction depth with
  | zero => rfl
  | succ depth ih =>
    have hnesting : (nestedLists (depth + 1)).encode.document.nesting =
        max (nestedLists depth).encode.document.nesting 0 + 1 + 1 := Envelope.nesting_tagged _ _
    rw [hnesting, ih]
    omega

end Value

/-- **Every value is written as JSON text, and comes back exactly if the arrays and
objects of that text nest at most 127 deep**, whatever library that is as documented
writes and reads it.  What comes back equals the value, has the same text and is written
as the same JSON text; a deeper text is refused with an error of the operation `wire`. -/
theorem ofJson_toJson {library : JsonLibrary} (hlibrary : library.Documented) {v : Value}
    (hv : v.WellFormed) (fresh : Nat) :
    ∃ text, v.toJson library = .ok text ∧
      ((∃ r, Value.ofJson library text fresh = .ok r) ↔ Json.depth text ≤ 127) ∧
      (∀ v' next, Value.ofJson library text fresh = .ok (v', next) →
        (v' == v) = true ∧ v'.text = v.text ∧ v'.toJson library = .ok text) ∧
      ∀ e, Value.ofJson library text fresh = .error e →
        e.kind = .other ∧ e.label = some "wire" := by
  refine ⟨_, v.toJson_eq_ok hlibrary, ?_⟩
  obtain ⟨v', next, hrun, hrestores⟩ := Envelope.restorable hv fresh
  -- Within the limit the library gives back the document that was written, and the rest is
  -- the round trip of envelopes; beyond it the library refuses the text.
  by_cases h : Json.depth v.encode.document.text ≤ 127
  · rw [Value.ofJson_of_le hlibrary h, hrun]
    refine ⟨⟨fun _ => h, fun _ => ⟨_, rfl⟩⟩, ?_, ?_⟩
    · rintro w last heq
      obtain ⟨rfl, rfl⟩ := Prod.mk.inj (Except.ok.inj heq)
      obtain ⟨hbeq, htext, hencode⟩ := hrestores.same hv
      exact ⟨hbeq, htext, by rw [Value.toJson_eq_ok hlibrary, hencode]⟩
    · rintro e heq
      cases heq
  · obtain ⟨message, herror⟩ := Value.exists_ofJson_of_lt hlibrary (Nat.lt_of_not_le h) fresh
    rw [herror]
    refine ⟨⟨?_, fun hle => absurd hle h⟩, ?_, ?_⟩
    · rintro ⟨r, heq⟩
      cases heq
    · rintro w last heq
      cases heq
    · rintro e heq
      obtain rfl := Except.error.inj heq
      exact ⟨rfl, rfl⟩

/-- Through the library of the shipped program, of lists inside lists 63 come back, and
64 do not. -/
theorem ofJson_toJson_nestedLists :
    (∃ text v next, (Value.nestedLists 63).toJson .strict = .ok text ∧
      Value.ofJson .strict text 0 = .ok (v, next) ∧ (v == Value.nestedLists 63) = true) ∧
    ∃ text, (Value.nestedLists 64).toJson .strict = .ok text ∧
      ¬ ∃ r, Value.ofJson .strict text 0 = .ok r := by
  have hdepth : ∀ {text depth}, (Value.nestedLists depth).toJson .strict = .ok text →
      Json.depth text = 2 * depth + 1 := fun h => by
    obtain rfl := Except.ok.inj ((Value.toJson_strict _).symm.trans h)
    exact (Envelope.depth_text _).trans (Value.nesting_nestedLists _)
  constructor
  · obtain ⟨text, hwrite, hback, hsame, -⟩ :=
      ofJson_toJson JsonLibrary.documented_strict (Value.wellFormed_nestedLists 63) 0
    obtain ⟨⟨v, next⟩, hrun⟩ := hback.2 (hdepth hwrite).le
    exact ⟨text, v, next, hwrite, hrun, (hsame v next hrun).1⟩
  · obtain ⟨text, hwrite, hback, -⟩ :=
      ofJson_toJson JsonLibrary.documented_strict (Value.wellFormed_nestedLists 64) 0
    refine ⟨text, hwrite, ?_⟩
    rw [hback, hdepth hwrite]
    decide

end CapLisp
