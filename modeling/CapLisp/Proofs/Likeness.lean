/-
# What operations tell apart

An operation looks at its arguments in a few ways.  It goes by their kind, takes
sequences apart, looks keys up in dicts, compares two values for equality and reads the
environment of a state.  `Likeness` lists these ways as relations between two sides, and
whoever gives such relations has that operations on related arguments end alike
(`outcome_run`).

| relation | what an operation does with it |
| --- | --- |
| `value` | compares for equality, goes by the kind and the parts (`LikeParts`) |
| `dict` | looks up, inserts |
| `env` | freezes |
| `state` | takes the environment, takes a snapshot of the bindings |
| `error` | fails |

Closures, environments and the values that are nothing but a name are passed on unseen.
-/

import CapLisp.Proofs.Arguments
import CapLisp.Proofs.Invariant.Basic
import CapLisp.Proofs.Pointwise

namespace CapLisp

/-- Two values of one kind with related parts, as far as operations take values apart. -/
inductive LikeParts (value : Value → Value → Prop) (dict : Dict → Dict → Prop)
    (state : State Value → State Value → Prop) : Value → Value → Prop
  | atom (name : String) : LikeParts value dict state (.atom name) (.atom name)
  | keyword (name other : String) : LikeParts value dict state (.keyword name) (.keyword other)
  | string (text : String) : LikeParts value dict state (.string text) (.string text)
  | number (n : Int64) : LikeParts value dict state (.number n) (.number n)
  | bool (b : Bool) : LikeParts value dict state (.bool b) (.bool b)
  | null : LikeParts value dict state .null .null
  | list {vs ws : List Value} (h : List.Forall₂ value vs ws) :
    LikeParts value dict state (.list vs) (.list ws)
  | vector {vs ws : List Value} (h : List.Forall₂ value vs ws) :
    LikeParts value dict state (.vector vs) (.vector ws)
  | dict {entries others : Dict} (h : dict entries others) :
    LikeParts value dict state (.dict entries) (.dict others)
  | lambda (f g : Closure Value) : LikeParts value dict state (.lambda f) (.lambda g)
  | lambdaRec (name other : String) (f g : Closure Value) :
    LikeParts value dict state (.lambdaRec name f) (.lambdaRec other g)
  | primFn (name other : String) : LikeParts value dict state (.primFn name) (.primFn other)
  | ref (index : UInt64) : LikeParts value dict state (.ref index) (.ref index)
  | env (e e' : Env Value) : LikeParts value dict state (.env e) (.env e')
  | state {s s' : State Value} (h : state s s') :
    LikeParts value dict state (.state s) (.state s')

/-- Relations that no operation tells the two sides of apart. -/
structure Likeness where
  value : Value → Value → Prop
  dict : Dict → Dict → Prop
  env : Env Value → Env Value → Prop
  state : State Value → State Value → Prop
  error : Error → Error → Prop
  -- What an operation sees of its arguments.
  parts : ∀ {v w}, value v w → LikeParts value dict state v w
  beq_eq : ∀ {v v' w w'}, value v v' → value w w' → (v == w) = (v' == w')
  find? : ∀ {entries others key key'}, dict entries others → value key key' →
    Option.Rel value (Dict.find? key entries) (Dict.find? key' others)
  state_env : ∀ {s s'}, state s s' → env s.env s'.env
  -- What it makes of them.
  string : ∀ text, value (.string text) (.string text)
  number : ∀ n, value (.number n) (.number n)
  bool : ∀ b, value (.bool b) (.bool b)
  ref : ∀ index, value (.ref index) (.ref index)
  list : ∀ {vs ws}, List.Forall₂ value vs ws → value (.list vs) (.list ws)
  vector : ∀ {vs ws}, List.Forall₂ value vs ws → value (.vector vs) (.vector ws)
  of_dict : ∀ {entries others}, dict entries others → value (.dict entries) (.dict others)
  of_env : ∀ {e e'}, env e e' → value (.env e) (.env e')
  of_state : ∀ {s s'}, state s s' → value (.state s) (.state s')
  dict_nil : dict [] []
  dict_insert : ∀ {entries others key key' v w}, dict entries others → value key key' →
    value v w → dict (Dict.insert key v entries) (Dict.insert key' w others)
  state_empty : state .empty .empty
  snapshot : ∀ {e e' refs refs'}, env e e' → List.Forall₂ value refs refs' →
    state ⟨.persistent e.freeze, refs⟩ ⟨.persistent e'.freeze, refs'⟩
  -- How it fails.
  plain : ∀ {e}, Error.values e = [] → error e e
  missingKey : ∀ {v w}, value v w → error (.failed (.missingKey v)) (.failed (.missingKey w))
  thrown : ∀ label {v w}, value v w → error (.thrown label v) (.thrown label w)

namespace Likeness

variable {L : Likeness}

/-- Two outcomes that end alike, with values that `R` relates. -/
inductive Outcome {α : Type} (L : Likeness) (R : α → α → Prop) :
    Except Error α → Except Error α → Prop
  | ok {a a' : α} (h : R a a') : Outcome L R (.ok a) (.ok a')
  | error {e e' : Error} (h : L.error e e') : Outcome L R (.error e) (.error e')

/-- An error without values is like itself. -/
theorem Outcome.of_values_eq_nil {α : Type} {R : α → α → Prop} {e : Error} (h : e.values = []) :
    L.Outcome R (.error e) (.error e) :=
  .error (L.plain h)

/-- Outcomes stay related when related functions are applied to their values. -/
theorem Outcome.map {α β : Type} {R : α → α → Prop} {Q : β → β → Prop}
    {outcome outcome' : Except Error α} (h : L.Outcome R outcome outcome') {f g : α → β}
    (hfg : ∀ a a', R a a' → Q (f a) (g a')) :
    L.Outcome Q (outcome.map f) (outcome'.map g) := by
  cases h with
  | ok ha => exact .ok (hfg _ _ ha)
  | error he => exact .error he

/-- Values that are alike have the same kind. -/
theorem kind_eq {v w : Value} (h : L.value v w) : v.kind = w.kind := by
  cases L.parts h <;> rfl

/-! ### Dicts -/

/-- Dicts stay related when related keys and values are put in in turn. -/
theorem dict_foldl_insert : {args args' : List Value} → {done done' : Dict} →
    L.dict done done' → List.Forall₂ L.value args args' →
    L.dict ((Dict.pairs args).foldl (fun dict entry => Dict.insert entry.1 entry.2 dict) done)
      ((Dict.pairs args').foldl (fun dict entry => Dict.insert entry.1 entry.2 dict) done')
  | _, _, _, _, hdone, .nil => hdone
  | _, _, _, _, hdone, .cons _ .nil => hdone
  | _, _, _, _, hdone, .cons hkey (.cons hvalue h) => by
    have hrest := dict_foldl_insert (L.dict_insert hdone hkey hvalue) h
    exact hrest

/-! ### Sequences -/

/-- Two sequences of one kind with related elements. -/
inductive LikeSequence (L : Likeness) : Sequence → Sequence → Prop
  | list {vs ws : List Value} (h : List.Forall₂ L.value vs ws) :
    LikeSequence L (.list vs) (.list ws)
  | vector {vs ws : List Value} (h : List.Forall₂ L.value vs ws) :
    LikeSequence L (.vector vs) (.vector ws)
  | text (characters : List Char) : LikeSequence L (.text characters) (.text characters)

/-- Values that are alike are both sequences, and alike as such, or neither is. -/
theorem rel_sequence? {v w : Value} (h : L.value v w) :
    Option.Rel L.LikeSequence v.sequence? w.sequence? := by
  cases L.parts h with
  | list hitems => exact .some (.list hitems)
  | vector hitems => exact .some (.vector hitems)
  | string text => exact .some (.text text.toList)
  | _ => exact .none

/-- Slices of elements that are alike are alike, or both are out of range. -/
theorem forall₂_slice? {vs ws : List Value} (h : List.Forall₂ L.value vs ws) (start stop : Nat) :
    Option.Rel (List.Forall₂ L.value) (slice? vs start stop) (slice? ws start stop) := by
  unfold slice?
  rw [h.length_eq]
  split
  · exact .some (List.forall₂_take _ (List.forall₂_drop _ h))
  · exact .none

namespace LikeSequence

variable {s s' : Sequence}

/-- Sequences that are alike have the same length. -/
theorem length_eq (h : L.LikeSequence s s') : s.length = s'.length := by
  cases h with
  | list h => exact h.length_eq
  | vector h => exact h.length_eq
  | text => rfl

/-- Elements at one position of sequences that are alike are alike. -/
theorem nth? (h : L.LikeSequence s s') (index : Nat) :
    Option.Rel L.value (s.nth? index) (s'.nth? index) := by
  cases h with
  | list h => exact forall₂_getElem? h index
  | vector h => exact forall₂_getElem? h index
  | text characters =>
    rw [Sequence.nth?]
    cases characters[index]? with
    | none => exact .none
    | some c => exact .some (L.string _)

/-- Slices of sequences that are alike are alike. -/
theorem slice? (h : L.LikeSequence s s') (start : Nat) (stop : Option Nat) :
    Option.Rel L.value (s.slice? start stop) (s'.slice? start stop) := by
  cases h with
  | @list vs ws h =>
    rw [Sequence.slice?, Sequence.slice?, sliceList?_eq, sliceList?_eq, h.length_eq]
    exact rel_map (forall₂_slice? h _ _) fun _ _ => L.list
  | @vector vs ws h =>
    rw [Sequence.slice?, Sequence.slice?, h.length_eq]
    exact rel_map (forall₂_slice? h _ _) fun _ _ => L.vector
  | text characters =>
    rw [Sequence.slice?]
    cases sliceText? characters start stop with
    | none => exact .none
    | some part => exact .some (L.string _)

end LikeSequence

/-! ### Results -/

/-- The first of elements that are alike are alike. -/
theorem outcome_firstOf {vs ws : List Value} (h : List.Forall₂ L.value vs ws) :
    L.Outcome L.value (Operation.firstOf vs) (Operation.firstOf ws) := by
  cases h with
  | nil => exact .of_values_eq_nil rfl
  | cons hv _ => exact .ok hv

/-- The rests of elements that are alike are alike. -/
theorem outcome_restOf {vs ws : List Value} (h : List.Forall₂ L.value vs ws)
    {wrap : List Value → Value}
    (hwrap : ∀ {vs ws}, List.Forall₂ L.value vs ws → L.value (wrap vs) (wrap ws)) :
    L.Outcome L.value ((Operation.restOf vs).map wrap)
      ((Operation.restOf ws).map wrap) := by
  cases h with
  | nil => exact .of_values_eq_nil rfl
  | cons _ h => exact .ok (hwrap h)

/-- An outcome that carries no value of a program. -/
theorem outcome_arithmetic (op : Operation) (operation : String)
    (result : Option Int64) :
    L.Outcome L.value (op.arithmetic operation result)
      (op.arithmetic operation result) := by
  cases result with
  | none => exact .of_values_eq_nil rfl
  | some n => exact .ok (L.number n)

/-- What an operation makes of related sequences. -/
theorem outcome_onSequence {op : Operation} {v w : Value} {s : Sequence}
    (hs : v.sequence? = some s) (h : L.value v w) {f : Sequence → Except Error Value}
    (hf : ∀ s', L.LikeSequence s s' → L.Outcome L.value (f s) (f s')) :
    L.Outcome L.value (op.onSequence v f) (op.onSequence w f) := by
  have hrel := rel_sequence? h
  cases hs' : w.sequence? with
  | some s' =>
    rw [hs, hs'] at hrel
    rw [Operation.onSequence_eq hs, Operation.onSequence_eq hs']
    cases hrel with
    | some hsame => exact hf _ hsame
  | none =>
    rw [hs, hs'] at hrel
    cases hrel

/-- What an operation makes of a position and of related sequences. -/
theorem outcome_position {op : Operation} {n : Int64} {v w : Value} {s : Sequence}
    (hs : v.sequence? = some s) (h : L.value v w) {f : Nat → Sequence → Except Error Value}
    (hf : ∀ index s', L.LikeSequence s s' →
      L.Outcome L.value (f index s) (f index s')) :
    L.Outcome L.value
      (do let index ← op.position n; op.onSequence v (f index))
      (do let index ← op.position n; op.onSequence w (f index)) := by
  unfold Operation.position
  by_cases hneg : n < 0
  · rw [if_pos hneg]
    exact .of_values_eq_nil rfl
  · rw [if_neg hneg]
    exact outcome_onSequence hs h (hf _)

/-- Texts that are alike join to the same text. -/
theorem outcome_appendTexts {vs ws : List Value} (h : List.Forall₂ L.value vs ws) :
    L.Outcome Eq (Operation.appendTexts vs) (Operation.appendTexts ws) := by
  induction h with
  | nil => exact .ok rfl
  | cons hv _ ih =>
    cases L.parts hv with
    | string text => exact ih.map fun _ _ => congrArg (text ++ ·)
    | _ => exact .of_values_eq_nil rfl

/-- **Operations on related arguments have related results.** -/
theorem outcome_result {op : Operation} {vs ws : List Value} (hfits : op.Fits vs)
    (h : List.Forall₂ L.value vs ws) :
    L.Outcome L.value (op.result vs) (op.result ws) := by
  cases hfits with
  | throw label payload =>
    obtain ⟨w, w', rfl, hlabel, hpayload⟩ := forall₂_two h
    cases L.parts hlabel
    exact .error (L.thrown label hpayload)
  | list => exact .ok (L.list h)
  | dict => exact .ok (L.of_dict (dict_foldl_insert L.dict_nil h))
  | eq a b =>
    obtain ⟨a', b', rfl, ha, hb⟩ := forall₂_two h
    rw [Operation.result_eq, Operation.result_eq, L.beq_eq ha hb]
    exact .ok (L.bool _)
  | cons_list head items =>
    obtain ⟨head', w, rfl, hhead, hw⟩ := forall₂_two h
    cases L.parts hw with
    | list hitems => exact .ok (L.list (.cons hhead hitems))
  | cons_vector head items =>
    obtain ⟨head', w, rfl, hhead, hw⟩ := forall₂_two h
    cases L.parts hw with
    | vector hitems => exact .ok (L.vector (.cons hhead hitems))
  | first_list items =>
    obtain ⟨w, rfl, hw⟩ := forall₂_one h
    cases L.parts hw with
    | list hitems => exact outcome_firstOf hitems
  | first_vector items =>
    obtain ⟨w, rfl, hw⟩ := forall₂_one h
    cases L.parts hw with
    | vector hitems => exact outcome_firstOf hitems
  | rest_list items =>
    obtain ⟨w, rfl, hw⟩ := forall₂_one h
    cases L.parts hw with
    | list hitems => exact outcome_restOf hitems L.list
  | rest_vector items =>
    obtain ⟨w, rfl, hw⟩ := forall₂_one h
    cases L.parts hw with
    | vector hitems => exact outcome_restOf hitems L.vector
  | @length v s hs =>
    obtain ⟨w, rfl, hw⟩ := forall₂_one h
    refine outcome_onSequence hs hw fun s' hsame => ?_
    rw [hsame.length_eq]
    generalize Number.ofInt? s'.length = count
    cases count with
    | some count => exact .ok (L.number count)
    | none => exact .of_values_eq_nil rfl
  | @take n v s hs =>
    obtain ⟨k, w, rfl, hn, hw⟩ := forall₂_two h
    cases L.parts hn
    refine outcome_position hs hw fun index s' hsame => ?_
    rw [hsame.length_eq]
    exact rel_cases (hsame.slice? 0 (some index)) (fun _ _ => .ok) (.of_values_eq_nil rfl)
  | @drop n v s hs =>
    obtain ⟨k, w, rfl, hn, hw⟩ := forall₂_two h
    cases L.parts hn
    refine outcome_position hs hw fun index s' hsame => ?_
    rw [hsame.length_eq]
    exact rel_cases (hsame.slice? index none) (fun _ _ => .ok) (.of_values_eq_nil rfl)
  | @nth n v s hs =>
    obtain ⟨k, w, rfl, hn, hw⟩ := forall₂_two h
    cases L.parts hn
    refine outcome_position hs hw fun index s' hsame => ?_
    rw [hsame.length_eq]
    exact rel_cases (hsame.nth? index) (fun _ _ => .ok) (.of_values_eq_nil rfl)
  | addRight items v =>
    obtain ⟨w, w', rfl, hw, hv⟩ := forall₂_two h
    cases L.parts hw with
    | vector hitems => exact .ok (L.vector (List.rel_append hitems (.cons hv .nil)))
  | lookup key entries =>
    obtain ⟨key', w, rfl, hkey, hw⟩ := forall₂_two h
    cases L.parts hw with
    | dict hentries =>
      rw [Operation.result_lookup, Operation.result_lookup]
      exact rel_cases (L.find? hentries hkey) (fun _ _ => .ok) (.error (L.missingKey hkey))
  | insert key value entries =>
    obtain ⟨key', value', w, rfl, hkey, hvalue, hw⟩ := forall₂_three h
    cases L.parts hw with
    | dict hentries => exact .ok (L.of_dict (L.dict_insert hentries hkey hvalue))
  | add m n | sub m n | mul m n =>
    obtain ⟨w, w', rfl, hm, hn⟩ := forall₂_two h
    cases L.parts hm
    cases L.parts hn
    exact outcome_arithmetic _ _ _
  | lt m n | gt m n =>
    obtain ⟨w, w', rfl, hm, hn⟩ := forall₂_two h
    cases L.parts hm
    cases L.parts hn
    exact .ok (L.bool _)
  | not b =>
    obtain ⟨w, rfl, hb⟩ := forall₂_one h
    cases L.parts hb
    exact .ok (L.bool _)
  | stringAppend =>
    refine (outcome_appendTexts h).map fun text _ ht => ?_
    subst ht
    exact L.string text
  | pureState =>
    obtain rfl := List.forall₂_nil_left_iff.1 h
    exact .ok (L.of_state L.state_empty)
  | stateEnv s =>
    obtain ⟨w, rfl, hw⟩ := forall₂_one h
    cases L.parts hw with
    | state hs => exact .ok (L.of_env (L.state_env hs))
  -- The rest needs the bindings; without them it refuses.
  | ref | readRef =>
    obtain ⟨w, rfl, _⟩ := forall₂_one h
    exact .of_values_eq_nil rfl
  | writeRef =>
    obtain ⟨w, w', rfl, _, _⟩ := forall₂_two h
    exact .of_values_eq_nil rfl
  | currentState =>
    obtain rfl := List.forall₂_nil_left_iff.1 h
    exact .of_values_eq_nil rfl

/-! ### Runs -/

/-- Writing the same slot of related stores gives related stores. -/
theorem rel_set? {refs refs' : Store Value} (h : List.Forall₂ L.value refs refs')
    {v w : Value} (hv : L.value v w) (index : UInt64) :
    Option.Rel (fun written written' => List.Forall₂ L.value written.2 written'.2)
      (Store.set? index v refs) (Store.set? index w refs') :=
  rel_map (forall₂_getElem? h index.toNat) fun _ _ _ => forall₂_set h hv index.toNat

/-- **What an operation leaves behind**: related values and related stores. -/
theorem outcome_run {op : Operation} {vs ws : List Value} (hfits : op.Fits vs)
    (h : List.Forall₂ L.value vs ws) {b b' : Bindings} (henv : L.env b.env b'.env)
    (hrefs : List.Forall₂ L.value b.refs b'.refs) :
    L.Outcome (fun r r' => L.value r.1 r'.1 ∧ List.Forall₂ L.value r.2 r'.2)
      (op.run b vs) (op.run b' ws) := by
  have hresult := (outcome_result hfits h).map
    (f := fun v => (v, b.refs)) (g := fun w => (w, b'.refs))
    (Q := fun r r' => L.value r.1 r'.1 ∧ List.Forall₂ L.value r.2 r'.2)
    fun v w hv => ⟨hv, hrefs⟩
  cases hfits with
  | ref v =>
    obtain ⟨w, rfl, hv⟩ := forall₂_one h
    rw [Operation.run_ref, Operation.run_ref, Store.insert, Store.insert, hrefs.length_eq]
    exact .ok ⟨L.ref _, List.rel_append hrefs (.cons hv .nil)⟩
  | readRef index =>
    obtain ⟨w, rfl, hindex⟩ := forall₂_one h
    cases L.parts hindex
    have hslot : Option.Rel L.value (Store.get? index b.refs) (Store.get? index b'.refs) :=
      forall₂_getElem? hrefs index.toNat
    rw [Operation.run_readRef, Operation.run_readRef]
    exact rel_cases hslot (fun _ _ hv => .ok ⟨hv, hrefs⟩) (.of_values_eq_nil rfl)
  | writeRef index v =>
    obtain ⟨w, w', rfl, hindex, hv⟩ := forall₂_two h
    cases L.parts hindex
    rw [Operation.run_writeRef, Operation.run_writeRef]
    exact rel_cases (rel_set? hrefs hv index) (fun _ _ hrefs' => .ok ⟨hv, hrefs'⟩)
      (.of_values_eq_nil rfl)
  | currentState =>
    obtain rfl := List.forall₂_nil_left_iff.1 h
    exact .ok ⟨L.of_state (L.snapshot henv hrefs), hrefs⟩
  | _ => exact hresult

end Likeness
end CapLisp
