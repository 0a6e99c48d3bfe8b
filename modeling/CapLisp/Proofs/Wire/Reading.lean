/-
# Envelopes are read from strict JSON texts

The shipped program's library is as documented (`documented_strict`): it reads an
envelope from every strict JSON text of its document that nests no deeper than
allowed, and refuses a deeper one.

The text is read to something that shows the document (`Document.Shows`).  Reading the
envelope from that is a sequence of steps, each of which succeeds with what was written
if the room is enough for the depth of its part (`capped`).  A sequence needs room for
the deepest of its steps, and going into an array or object takes one level.
-/

import CapLisp.Proofs.Json.Completeness
import CapLisp.Wire.Transport

namespace CapLisp
namespace Envelope

/-! ### Steps with limited room -/

/-- The outcome of a step that needs `depth` levels and is given `room`. -/
def capped {α : Type} (depth room : Nat) (a : α) : Option α :=
  if depth ≤ room then some a else none

section

variable {α β : Type} {depth room : Nat} {a : α}

/-- A sequence of steps needs room for the deeper one. -/
theorem capped_bind {depth' : Nat} {f : α → Option β} {b : β} (h : f a = capped depth' room b) :
    (capped depth room a).bind f = capped (max depth depth') room b := by
  by_cases hd : depth ≤ room
  · have hmax : max depth depth' ≤ room ↔ depth' ≤ room := by omega
    simp only [capped, hd, ↓reduceIte, Option.bind_some, h, hmax]
  · have hmax : ¬ max depth depth' ≤ room := by omega
    simp only [capped, hd, hmax, ↓reduceIte, Option.bind_none]

/-- A change of the result takes no room. -/
theorem capped_map (f : α → β) : (capped depth room a).map f = capped depth room (f a) := by
  unfold capped
  split <;> rfl

/-- A last change of the result takes no room. -/
theorem capped_bind_some (f : α → β) :
    ((capped depth room a).bind fun a => some (f a)) = capped depth room (f a) :=
  Option.map_eq_bind.symm.trans (capped_map f)

/-- Two steps one after the other need room for the deeper one. -/
theorem bind_pair {γ : Type} {depth' : Nat} {b : β} {first : Option α} {second : Option β}
    (hfirst : first = capped depth room a) (hsecond : second = capped depth' room b)
    (f : α → β → γ) :
    (first.bind fun a => second.bind fun b => some (f a b)) =
      capped (max depth depth') room (f a b) := by
  rw [hfirst, hsecond]
  exact capped_bind (capped_bind_some (f a))

/-- Going into an array or object takes one level. -/
theorem inside?_bind {f : Mode → Option α} (h : ∀ room, f (.direct room) = capped depth room a)
    (room : Nat) : (Mode.direct room).inside?.bind f = capped (depth + 1) room a := by
  cases room with
  | zero => simp [Mode.inside?, capped]
  | succ room => simp [Mode.inside?, capped, h]

end

/-! ### Members -/

open Document (Shows ShowsAll ShowsEntries)

variable {j : Json}

/-- What shows a map of two members is an object of two members. -/
theorem exists_of_shows_pair {name other : String} {a b : Document}
    (h : (Document.object [(name, a), (other, b)]).Shows j) :
    ∃ literal literal' a' b', j = .object [(literal, a'), (literal', b')] ∧
      Json.textOf? literal = some name ∧ a.Shows a' ∧
      Json.textOf? literal' = some other ∧ b.Shows b' := by
  obtain ⟨_, rfl, literal, a', _, rfl, ⟨_, heq, hname⟩, ha, literal', b', _, rfl,
    ⟨_, heq', hother⟩, hb, rfl⟩ := h
  obtain rfl := Document.string.inj heq
  obtain rfl := Document.string.inj heq'
  exact ⟨literal, literal', a', b', rfl, hname, ha, hother, hb⟩

/-- What shows an array of two elements is an array of two elements. -/
theorem exists_of_shows_arrayPair {a b : Document} (h : (Document.array [a, b]).Shows j) :
    ∃ a' b', j = .array [a', b'] ∧ a.Shows a' ∧ b.Shows b' := by
  obtain ⟨_, rfl, a', _, rfl, ha, b', _, rfl, hb, rfl⟩ := h
  exact ⟨a', b', rfl, ha, hb⟩

/-- A map of two members nests one level deeper than the deeper value. -/
theorem nesting_pair (name other : String) (a b : Document) :
    (Document.object [(name, a), (other, b)]).nesting = max a.nesting b.nesting + 1 := by
  show max _ (max _ 0) + 1 = _
  rw [Nat.max_zero]

/-- An array of two elements nests one level deeper than the deeper element. -/
theorem nesting_arrayPair (a b : Document) :
    (Document.array [a, b]).nesting = max a.nesting b.nesting + 1 := by
  show max _ (max _ 0) + 1 = _
  rw [Nat.max_zero]

/-- A string nests nothing. -/
theorem nesting_string (s : String) : (Document.string s).nesting = 0 := rfl

/-- A tag adds one level to its content. -/
theorem nesting_tagged (tag : Tag) (content : Document) :
    (tagged tag content).nesting = content.nesting + 1 := by
  rw [tagged, nesting_pair, nesting_string, Nat.zero_max]

/-- The envelope of a tag with the given content. -/
def payload? (content : Json) (mode : Mode) (tag : Tag) : Option Envelope :=
  if tag = .lambda then (closure? content mode).map ofParts else content? content mode tag

/-- An object is entered, its tag is found, and its content is read. -/
theorem ofJson?_object (members : List (List Char × Json)) (mode : Mode) :
    ofJson? (.object members) mode = mode.inside?.bind fun mode =>
      (layout? mode members).bind fun found => contentOf? members mode found.1 found.2 := rfl

/-- A tag that stands before its content is found there. -/
theorem layout?_pair {tag : Tag} {literal literal' spelling : List Char} {content : Json}
    (htype : Json.textOf? literal = some "type") (hvalue : Json.textOf? literal' = some "value")
    (htag : Json.textOf? spelling = some tag.name) (mode : Mode) :
    layout? mode [(literal, .string spelling), (literal', content)] = some (tag, false) := by
  simp [layout?, names?, field?, memberTag?, htype, hvalue, htag, Tag.ofName?_name]

/-- Content that stands behind its tag is read there. -/
theorem contentOf?_pair {tag : Tag} {literal literal' : List Char} {content other : Json}
    (htype : Json.textOf? literal = some "type") (hvalue : Json.textOf? literal' = some "value")
    (mode : Mode) :
    contentOf? [(literal, other), (literal', content)] mode tag false =
      payload? content mode tag := by
  rw [contentOf?, htype, if_neg (by decide), contentOf?, hvalue, if_pos rfl]
  rfl

/-- **An envelope is read from its tag and content.** -/
theorem ofJson?_of_shows_tagged {tag : Tag} {content : Document} {e : Envelope}
    (h : ∀ content', content.Shows content' → ∀ room,
      payload? content' (.direct room) tag = capped content.nesting room e)
    (hj : (tagged tag content).Shows j) (room : Nat) :
    ofJson? j (.direct room) = capped (tagged tag content).nesting room e := by
  obtain ⟨literal, literal', _, content', rfl, htype, ⟨spelling, rfl, htag⟩, hvalue, hcontent⟩ :=
    exists_of_shows_pair hj
  rw [nesting_tagged, ofJson?_object]
  refine inside?_bind (fun room => ?_) room
  rw [layout?_pair htype hvalue htag, Option.bind_some, contentOf?_pair htype hvalue,
    h content' hcontent]

/-! ### Content -/

/-- A tag whose content is a text. -/
theorem ofJson?_text {tag : Tag} {wrap : String → Envelope} {text : String}
    (h : ∀ literal mode, payload? (.string literal) mode tag =
      (Json.textOf? literal).map wrap) (hj : (tagged tag (.string text)).Shows j) (room : Nat) :
    ofJson? j (.direct room) = capped (tagged tag (.string text)).nesting room (wrap text) := by
  refine ofJson?_of_shows_tagged ?_ hj room
  rintro _ ⟨literal, rfl, htext⟩ room
  rw [h, htext]
  rfl

/-- A tag whose content is an array. -/
theorem ofJson?_array {α : Type} {tag : Tag} {read : List Json → Mode → Option α}
    {wrap : α → Envelope} {items : List Document} {a : α}
    (h : ∀ items' mode, payload? (.array items') mode tag = mode.inside?.bind fun mode =>
      (read items' mode).bind fun a => some (wrap a))
    (hread : ∀ items', ShowsAll items items' → ∀ room,
      read items' (.direct room) = capped (Document.nestingOfItems items) room a)
    (hj : (tagged tag (.array items)).Shows j) (room : Nat) :
    ofJson? j (.direct room) = capped (tagged tag (.array items)).nesting room (wrap a) := by
  refine ofJson?_of_shows_tagged ?_ hj room
  rintro _ ⟨items', rfl, hitems⟩ room
  rw [h]
  refine inside?_bind (fun room => ?_) room
  rw [hread items' hitems, capped_bind_some]

/-- The digits of an index denote it. -/
theorem indexOf?_ofInt (index : UInt64) :
    indexOf? (Decimal.ofInt (index.toNat : Int)) = some index := by
  have hrange : (0 : Int) ≤ index.toNat ∧ (index.toNat : Int).toNat < UInt64.size :=
    ⟨Int.natCast_nonneg _, index.toNat_lt_size⟩
  simp only [indexOf?, Json.intOf?_ofInt, Option.bind_eq_bind, Option.bind_some, if_pos hrange]
  simp

/-! ### Fields -/

/-- A field is looked up, then read. -/
theorem bind_field?_eq {α : Type} {field : String} {read : Json → Mode → Option α}
    {search : List (List Char × Json) → Mode → Option α}
    (hnil : ∀ mode, search [] mode = none)
    (hcons : ∀ name value rest mode, search ((name, value) :: rest) mode =
      if Json.textOf? name = some field then read value mode else search rest mode)
    (members : List (List Char × Json)) (mode : Mode) :
    search members mode = (field? field members).bind (read · mode) := by
  induction members with
  | nil => exact hnil mode
  | cons member more ih =>
    obtain ⟨name, value⟩ := member
    rw [hcons, ih]
    by_cases h : Json.textOf? name = some field <;> simp [field?, h]

/-- The bodies are the field `bodies`. -/
theorem bodiesField?_eq (members : List (List Char × Json)) (mode : Mode) :
    bodiesField? members mode = (field? "bodies" members).bind (envelopes? · mode) :=
  bind_field?_eq (fun _ => rfl) (fun _ _ _ _ => rfl) members mode

/-- The bindings are the field `env`. -/
theorem scopeField?_eq (members : List (List Char × Json)) (mode : Mode) :
    scopeField? members mode = (field? "env" members).bind (scope? · mode) :=
  bind_field?_eq (fun _ => rfl) (fun _ _ _ _ => rfl) members mode

/-- The slots are the field `refs`. -/
theorem slotsField?_eq (members : List (List Char × Json)) (mode : Mode) :
    slotsField? members mode = (field? "refs" members).bind (slotArray? · mode) :=
  bind_field?_eq (fun _ => rfl) (fun _ _ _ _ => rfl) members mode

/-- The parts of a closure are the field `lambda`. -/
theorem closureField?_eq (members : List (List Char × Json)) (mode : Mode) :
    closureField? members mode = (field? "lambda" members).bind (closure? · mode) :=
  bind_field?_eq (fun _ => rfl) (fun _ _ _ _ => rfl) members mode

/-- Texts in an array nest nothing inside it. -/
theorem nestingOfItems_texts (texts : List String) :
    Document.nestingOfItems (texts.map .string) = 0 := by
  induction texts with
  | nil => rfl
  | cons text more ih =>
    rw [List.map_cons, Document.nestingOfItems, ih]
    rfl

/-- **An array of texts is read.** -/
theorem texts?_of_shows {texts : List String} (h : (Document.array (texts.map .string)).Shows j)
    (room : Nat) :
    texts? (.direct room) j = capped (Document.array (texts.map .string)).nesting room texts := by
  obtain ⟨items', rfl, hitems⟩ := h
  have htexts : items'.mapM Json.text? = some texts := by
    induction texts generalizing items' with
    | nil =>
      obtain rfl := hitems
      rfl
    | cons text more ih =>
      obtain ⟨_, more', rfl, ⟨literal, rfl, htext⟩, hmore⟩ := hitems
      simp [Json.text?, htext, ih more' hmore]
  rw [Document.nesting, nestingOfItems_texts]
  exact inside?_bind (fun room => htexts) room

/-- What shows the parts of a closure is an object of three members. -/
theorem exists_of_shows_closure {params : List String} {bodies scope : List Document}
    (h : (closure params bodies scope).Shows j) :
    ∃ literal literal' literal'' params' bodies' scope',
      j = .object [(literal, params'), (literal', .array bodies'), (literal'', .array scope')] ∧
      Json.textOf? literal = some "params" ∧
      (Document.array (params.map .string)).Shows params' ∧
      Json.textOf? literal' = some "bodies" ∧ ShowsAll bodies bodies' ∧
      Json.textOf? literal'' = some "env" ∧ ShowsAll scope scope' := by
  obtain ⟨_, rfl, literal, params', _, rfl, ⟨_, heq, hname⟩, hparams, literal', _, _, rfl,
    ⟨_, heq', hname'⟩, ⟨bodies', rfl, hbodies⟩, literal'', _, _, rfl, ⟨_, heq'', hname''⟩,
    ⟨scope', rfl, hscope⟩, rfl⟩ := h
  obtain rfl := Document.string.inj heq
  obtain rfl := Document.string.inj heq'
  obtain rfl := Document.string.inj heq''
  exact ⟨literal, literal', literal'', params', bodies', scope', rfl, hname, hparams, hname',
    hbodies, hname'', hscope⟩

/-- The parts of a closure are read from its three fields. -/
theorem closure?_object {literal literal' literal'' : List Char} {params bodies scope : Json}
    (hparams : Json.textOf? literal = some "params")
    (hbodies : Json.textOf? literal' = some "bodies")
    (hscope : Json.textOf? literal'' = some "env") (mode : Mode) :
    closure? (.object [(literal, params), (literal', bodies), (literal'', scope)]) mode =
      mode.inside?.bind fun mode => (texts? mode params).bind fun params =>
        (envelopes? bodies mode).bind fun bodies =>
          (scope? scope mode).bind fun scope => some ⟨params, bodies, scope⟩ := by
  have hfields : closure? (.object [(literal, params), (literal', bodies), (literal'', scope)])
      mode = mode.inside?.bind fun mode =>
      let members := [(literal, params), (literal', bodies), (literal'', scope)]
      if hasFields ["params", "bodies", "env"] members then
        (field? "params" members).bind fun params => (texts? mode params).bind fun params =>
          (bodiesField? members mode).bind fun bodies =>
            (scopeField? members mode).bind fun scope => some ⟨params, bodies, scope⟩
      else none := rfl
  rw [hfields]
  simp [hasFields, names?, bodiesField?_eq, scopeField?_eq, field?, hparams, hbodies, hscope]

/-- **The parts of a closure are read.** -/
theorem closure?_of_shows (parts : Parts) {bodies scope : List Document}
    (hbodies : ∀ bodies', ShowsAll bodies bodies' → ∀ room, ofJsonAll? bodies' (.direct room) =
      capped (Document.nestingOfItems bodies) room parts.bodies)
    (hscope : ∀ scope', ShowsAll scope scope' → ∀ room, bindings? scope' (.direct room) =
      capped (Document.nestingOfItems scope) room parts.scope)
    (hj : (closure parts.params bodies scope).Shows j) (room : Nat) :
    closure? j (.direct room) =
      capped (closure parts.params bodies scope).nesting room parts := by
  have hnesting : (closure parts.params bodies scope).nesting =
      max (Document.array (parts.params.map .string)).nesting
        (max (Document.array bodies).nesting (Document.array scope).nesting) + 1 := by
    show max _ (max _ (max _ 0)) + 1 = _
    rw [Nat.max_zero]
  obtain ⟨literal, literal', literal'', params', bodies', scope', rfl, hname, hshows, hname',
    hshows', hname'', hshows''⟩ := exists_of_shows_closure hj
  rw [hnesting, closure?_object hname hname' hname'']
  refine inside?_bind (fun room => ?_) room
  rw [texts?_of_shows hshows]
  exact capped_bind (bind_pair (inside?_bind (hbodies bodies' hshows') room)
    (inside?_bind (hscope scope' hshows'') room) (Parts.mk parts.params))

/-- The content of a recursive closure is read from its two fields. -/
theorem payload?_lambdaRec {literal literal' : List Char} {name parts : Json}
    (hself : Json.textOf? literal = some "self") (hlambda : Json.textOf? literal' = some "lambda")
    (mode : Mode) :
    payload? (.object [(literal, name), (literal', parts)]) mode .lambdaRec =
      mode.inside?.bind fun mode => name.text?.bind fun name =>
        (closure? parts mode).bind fun parts =>
          some (.lambdaRec name parts.params parts.bodies parts.scope) := by
  have hfields : payload? (.object [(literal, name), (literal', parts)]) mode .lambdaRec =
      mode.inside?.bind fun mode =>
      let members := [(literal, name), (literal', parts)]
      if hasFields ["self", "lambda"] members then
        (field? "self" members).bind fun name => name.text?.bind fun name =>
          (closureField? members mode).bind fun parts =>
            some (.lambdaRec name parts.params parts.bodies parts.scope)
      else none := rfl
  rw [hfields]
  simp [hasFields, names?, closureField?_eq, field?, hself, hlambda]

/-- The content of a state is read from its two fields. -/
theorem payload?_state {literal literal' : List Char} {scope slots : Json}
    (henv : Json.textOf? literal = some "env") (hrefs : Json.textOf? literal' = some "refs")
    (mode : Mode) :
    payload? (.object [(literal, scope), (literal', slots)]) mode .state =
      mode.inside?.bind fun mode => (scope? scope mode).bind fun bindings =>
        (slotArray? slots mode).bind fun slots => some (.state bindings slots) := by
  have hfields : payload? (.object [(literal, scope), (literal', slots)]) mode .state =
      mode.inside?.bind fun mode =>
      let members := [(literal, scope), (literal', slots)]
      if hasFields ["env", "refs"] members then
        (scopeField? members mode).bind fun bindings =>
          (slotsField? members mode).bind fun slots => some (.state bindings slots)
      else none := rfl
  rw [hfields]
  simp [hasFields, names?, scopeField?_eq, slotsField?_eq, field?, henv, hrefs]

/-- An envelope without content is read from its tag. -/
theorem ofJson?_null (h : null.document.Shows j) (room : Nat) :
    ofJson? j (.direct room) = capped null.document.nesting room null := by
  obtain ⟨_, rfl, literal, _, _, rfl, ⟨_, heq, htype⟩, ⟨spelling, rfl, htag⟩, rfl⟩ := h
  obtain rfl := Document.string.inj heq
  have hlayout : ∀ mode, layout? mode [(literal, .string spelling)] = some (.null, false) :=
    fun mode => by simp [layout?, names?, field?, memberTag?, htype, htag, Tag.ofName?_name]
  rw [ofJson?_object]
  refine inside?_bind (fun room => ?_) room
  rw [hlayout, Option.bind_some, contentOf?, htype, if_neg (by decide)]
  rfl

/-! ### Envelopes -/

mutual

/-- **An envelope is read from what shows its document** exactly if that nests no
deeper than there is room for. -/
theorem ofJson?_of_shows (e : Envelope) {j : Json} (h : e.document.Shows j) (room : Nat) :
    ofJson? j (.direct room) = capped e.document.nesting room e := by
  -- Text contents cannot nest, so only the tag asks for room; arrays, closures and states are
  -- read with the room that is left inside the object.
  cases e with
  | atom name => exact ofJson?_text (fun _ _ => rfl) h room
  | keyword name => exact ofJson?_text (fun _ _ => rfl) h room
  | string text => exact ofJson?_text (fun _ _ => rfl) h room
  | primFn name => exact ofJson?_text (fun _ _ => rfl) h room
  | boolean b =>
    refine ofJson?_of_shows_tagged ?_ h room
    rintro _ rfl room
    rfl
  | number n =>
    refine ofJson?_of_shows_tagged ?_ h room
    rintro _ rfl room
    show (Json.intOf? _).bind (fun z => (Number.ofInt? z).bind fun n => some (number n)) = _
    rw [Json.intOf?_ofInt, Option.bind_some, Number.ofInt?_toInt]
    rfl
  | ref index =>
    refine ofJson?_of_shows_tagged ?_ h room
    rintro _ rfl room
    show (indexOf? _).map ref = _
    rw [indexOf?_ofInt]
    rfl
  | null => exact ofJson?_null h room
  | list items =>
    exact ofJson?_array (fun _ _ => rfl) (fun _ h => ofJsonAll?_of_shows items h) h room
  | vector items =>
    exact ofJson?_array (fun _ _ => rfl) (fun _ h => ofJsonAll?_of_shows items h) h room
  | dict entries =>
    exact ofJson?_array (fun _ _ => rfl) (fun _ h => entries?_of_shows entries h) h room
  | env bindings =>
    exact ofJson?_array (fun _ _ => rfl) (fun _ h => bindings?_of_shows bindings h) h room
  | lambda params bodies scope =>
    refine ofJson?_of_shows_tagged (fun content h room => ?_) h room
    have hparts := closure?_of_shows ⟨params, bodies, scope⟩
      (fun _ h => ofJsonAll?_of_shows bodies h) (fun _ h => bindings?_of_shows scope h) h room
    exact (congrArg (Option.map ofParts) hparts).trans (capped_map ofParts)
  | lambdaRec name params bodies scope =>
    refine ofJson?_of_shows_tagged (fun content h room => ?_) h room
    obtain ⟨_, _, _, parts, rfl, hself, ⟨literal, rfl, hname⟩, hlambda, hparts⟩ :=
      exists_of_shows_pair h
    have hclosure := closure?_of_shows ⟨params, bodies, scope⟩
      (fun _ h => ofJsonAll?_of_shows bodies h) (fun _ h => bindings?_of_shows scope h) hparts
    rw [payload?_lambdaRec hself hlambda, nesting_pair, nesting_string, Nat.zero_max]
    refine inside?_bind (fun room => ?_) room
    rw [Json.text?, hname, hclosure, Option.bind_some, capped_bind_some]
  | state bindings refs =>
    refine ofJson?_of_shows_tagged (fun content h room => ?_) h room
    obtain ⟨_, _, _, _, rfl, henv, ⟨scope, rfl, hscope⟩, hrefs, slots, rfl, hslots⟩ :=
      exists_of_shows_pair h
    rw [payload?_state henv hrefs, nesting_pair]
    exact inside?_bind (fun room =>
      bind_pair (inside?_bind (bindings?_of_shows bindings hscope) room)
        (inside?_bind (slots?_of_shows refs hslots) room) Envelope.state) room
termination_by structural e

/-- The elements are read one by one. -/
theorem ofJsonAll?_of_shows (items : List Envelope) {js : List Json}
    (h : ShowsAll (documents items) js) (room : Nat) :
    ofJsonAll? js (.direct room) =
      capped (Document.nestingOfItems (documents items)) room items := by
  cases items with
  | nil =>
    obtain rfl := h
    rfl
  | cons item more =>
    obtain ⟨item', more', rfl, hitem, hmore⟩ := h
    exact bind_pair (ofJson?_of_shows item hitem room) (ofJsonAll?_of_shows more hmore room)
      List.cons
termination_by structural items

/-- The entries are read one by one, each as a pair of envelopes. -/
theorem entries?_of_shows (entries : List (Envelope × Envelope)) {js : List Json}
    (h : ShowsAll (entryDocuments entries) js) (room : Nat) :
    entries? js (.direct room) =
      capped (Document.nestingOfItems (entryDocuments entries)) room entries := by
  cases entries with
  | nil =>
    obtain rfl := h
    rfl
  | cons entry more =>
    obtain ⟨key, value⟩ := entry
    obtain ⟨_, more', rfl, hentry, hmore⟩ := h
    obtain ⟨key', value', rfl, hkey, hvalue⟩ := exists_of_shows_arrayPair hentry
    have hread : entry? (.array [key', value']) (.direct room) =
        capped (Document.array [key.document, value.document]).nesting room (key, value) := by
      rw [nesting_arrayPair]
      exact inside?_bind (fun room => bind_pair (ofJson?_of_shows key hkey room)
        (ofJson?_of_shows value hvalue room) Prod.mk) room
    exact bind_pair hread (entries?_of_shows more hmore room) List.cons
termination_by structural entries

/-- The bindings are read one by one, each as a pair of a name and an envelope. -/
theorem bindings?_of_shows (bindings : List (String × Envelope)) {js : List Json}
    (h : ShowsAll (bindingDocuments bindings) js) (room : Nat) :
    bindings? js (.direct room) =
      capped (Document.nestingOfItems (bindingDocuments bindings)) room bindings := by
  cases bindings with
  | nil =>
    obtain rfl := h
    rfl
  | cons binding more =>
    obtain ⟨name, value⟩ := binding
    obtain ⟨_, more', rfl, hbinding, hmore⟩ := h
    obtain ⟨_, value', rfl, ⟨literal, rfl, hname⟩, hvalue⟩ := exists_of_shows_arrayPair hbinding
    have hread : binding? (.array [.string literal, value']) (.direct room) =
        capped (Document.array [.string name, value.document]).nesting room (name, value) := by
      rw [nesting_arrayPair]
      exact inside?_bind (fun room =>
        bind_pair hname (ofJson?_of_shows value hvalue room) Prod.mk) room
    exact bind_pair hread (bindings?_of_shows more hmore room) List.cons
termination_by structural bindings

/-- The slots are read one by one, each as a pair of an index and an envelope. -/
theorem slots?_of_shows (slots : List (UInt64 × Envelope)) {js : List Json}
    (h : ShowsAll (slotDocuments slots) js) (room : Nat) :
    slots? js (.direct room) =
      capped (Document.nestingOfItems (slotDocuments slots)) room slots := by
  cases slots with
  | nil =>
    obtain rfl := h
    rfl
  | cons slot more =>
    obtain ⟨index, value⟩ := slot
    obtain ⟨_, more', rfl, hslot, hmore⟩ := h
    obtain ⟨_, value', rfl, rfl, hvalue⟩ := exists_of_shows_arrayPair hslot
    have hread : slot? (.array [.number (Decimal.ofInt index.toNat), value']) (.direct room) =
        capped (Document.array [.number index.toNat, value.document]).nesting room
          (index, value) := by
      rw [nesting_arrayPair]
      exact inside?_bind (fun room =>
        bind_pair (indexOf?_ofInt index) (ofJson?_of_shows value hvalue room) Prod.mk) room
    exact bind_pair hread (slots?_of_shows more hmore room) List.cons
termination_by structural slots

end

end Envelope

namespace JsonLibrary

/-- **The library of the shipped program reads an envelope from every strict JSON text
of its document** exactly if that nests no deeper than is read. -/
theorem read_strict {e : Envelope} {text : String} (h : e.document.IsSpelledBy text) :
    strict.read text =
      if e.document.nesting ≤ maxNesting then .ok e else .error "malformed envelope" := by
  obtain ⟨j, hparse, hshows⟩ := Document.parse?_of_isSpelledBy h
  simp only [strict, hparse, Option.bind_some, Envelope.ofJson?_of_shows e hshows]
  by_cases hroom : e.document.nesting ≤ maxNesting
  · simp only [Envelope.capped, hroom, ↓reduceIte]
  · simp only [Envelope.capped, hroom, ↓reduceIte]

/-- **The library of the shipped program is as documented.** -/
theorem documented_strict : strict.Documented where
  writes _ _ := rfl
  reads e text h hnesting := by rw [read_strict h, if_pos hnesting]
  refuses e text h hnesting := ⟨_, by rw [read_strict h, if_neg (by omega)]⟩

end JsonLibrary
end CapLisp
