/-
# Operations stay within the limit

The result of an operation is built from its arguments, from a slot or from a
snapshot of the bindings, so it is good when those are
(`goodOutcome_result`, `keeps_operation`).
-/

import CapLisp.Proofs.Arguments
import CapLisp.Proofs.Invariant.Basic

namespace CapLisp
namespace Invariant

variable {table : Table} {I : Invariant table} {n : Stage}

/-! ### Values built from good values -/

/-- Plain data without parts is good. -/
theorem good_of_isData {v : Value} (hd : v.isData = true) (hp : v.parts = []) : I.Good n v :=
  ⟨I.data hd, by simp [hp]⟩

/-- A list of good values is good. -/
theorem good_list {items : List Value} (h : ∀ v ∈ items, I.Good n v) : I.Good n (.list items) :=
  Value.everywhere_list.2 ⟨I.data rfl, h⟩

/-- A vector of good values is good. -/
theorem good_vector {items : List Value} (h : ∀ v ∈ items, I.Good n v) :
    I.Good n (.vector items) :=
  Value.everywhere_vector.2 ⟨I.data rfl, h⟩

/-- The empty dictionary is good. -/
theorem good_dict_nil : I.Good n (.dict []) :=
  Value.everywhere_dict.2 ⟨I.dict_nil, by simp⟩

/-- Inserting a good entry keeps a dictionary good. -/
theorem good_dict_insert {key item : Value} {entries : Dict} (hkey : I.Good n key)
    (hitem : I.Good n item) (h : I.Good n (.dict entries)) :
    I.Good n (.dict (Dict.insert key item entries)) := by
  obtain ⟨hd, hentries⟩ := Value.everywhere_dict.1 h
  exact Value.everywhere_dict.2
    ⟨I.dict_insert hd, Dict.forall_mem_insert (Q := I.Good n) hkey hitem hentries⟩

/-- Inserting good entries one by one keeps a dictionary good. -/
theorem good_foldl_insert {entries done : Dict}
    (h : ∀ entry ∈ entries, I.Good n entry.1 ∧ I.Good n entry.2) (hdone : I.Good n (.dict done)) :
    I.Good n (.dict
      (entries.foldl (fun dict entry => Dict.insert entry.1 entry.2 dict) done)) := by
  induction entries generalizing done with
  | nil => exact hdone
  | cons entry rest ih =>
    obtain ⟨hkey, hitem⟩ := h entry (List.mem_cons_self ..)
    exact ih (fun other hmem => h other (List.mem_cons_of_mem _ hmem))
      (good_dict_insert hkey hitem hdone)

/-- A dictionary made of good entries is good. -/
theorem good_ofEntries {entries : List (Value × Value)}
    (h : ∀ entry ∈ entries, I.Good n entry.1 ∧ I.Good n entry.2) :
    I.Good n (.dict (Dict.ofEntries entries)) :=
  good_foldl_insert h good_dict_nil

/-- A good environment is good as a value. -/
theorem good_env {e : Env Value} (h : I.GoodEnv n e) : I.Good n (.env e) :=
  Value.everywhere_env.2 ⟨I.env_value h.1, h.2⟩

/-- A snapshot of good bindings is good. -/
theorem Sound.good_toState {b : Bindings} (h : I.Sound b) :
    I.Good b.stage (.state b.toState) := by
  refine Value.everywhere_state.2 ⟨I.frozen, ?_, h.refs⟩
  intro v hv
  exact h.env.2 v (Env.mem_values_of_mem_freeze hv)

/-! ### Parts of good values -/

/-- The elements of a good list are good. -/
theorem Good.items_list {items : List Value} (h : I.Good n (.list items)) :
    ∀ v ∈ items, I.Good n v :=
  (Value.everywhere_list.1 h).2

/-- The elements of a good vector are good. -/
theorem Good.items_vector {items : List Value} (h : I.Good n (.vector items)) :
    ∀ v ∈ items, I.Good n v :=
  (Value.everywhere_vector.1 h).2

/-- A value found in a good dictionary is good. -/
theorem Good.find? {key value : Value} {entries : Dict} (h : I.Good n (.dict entries))
    (hf : Dict.find? key entries = some value) : I.Good n value := by
  obtain ⟨entry, hmem, _, rfl⟩ := Dict.exists_mem_of_find? hf
  exact ((Value.everywhere_dict.1 h).2 entry hmem).2

/-- A good value is good beside another store, where the limit does not depend on it. -/
theorem Good.detached (hd : Primitive.baseEval ∈ table) {m : Stage}
    (hserials : n.serials ≤ m.serials) {v : Value} (h : I.Good n v) : I.Good m v :=
  Value.Everywhere.mono (fun _ => I.detached hd hserials) h

/-- A state within the limit gives bindings within the limit, where the limit
does not depend on the store. -/
theorem Good.sound_ofState (hd : Primitive.baseEval ∈ table) {s : State Value}
    (h : I.Good n (.state s)) {fresh : Nat} (hserials : n.serials ≤ fresh)
    (hfirst : I.first ≤ fresh) : I.Sound (.ofState s fresh) := by
  obtain ⟨hs, henv, hrefs⟩ := Value.everywhere_state.1 h
  refine ⟨⟨I.state_env hs, ?_⟩, ?_, hfirst⟩
  · intro v hv
    exact Good.detached hd hserials (henv v hv)
  · intro v hv
    exact Good.detached hd hserials (hrefs v hv)

/-- The elements of a good value that is a sequence are good. -/
theorem Good.elements {v : Value} {s : Sequence} (h : I.Good n v) (hs : v.sequence? = some s) :
    ∀ item ∈ s.elements, I.Good n item := by
  cases v with
  | list items =>
    obtain rfl := Option.some.inj hs
    exact h.items_list
  | vector items =>
    obtain rfl := Option.some.inj hs
    exact h.items_vector
  | string text =>
    obtain rfl := Option.some.inj hs
    intro item hitem
    obtain ⟨c, _, rfl⟩ := List.mem_map.1 hitem
    exact good_of_isData rfl rfl
  | _ => cases hs

/-- An element picked from good ones is good. -/
theorem good_nth? {s : Sequence} (h : ∀ item ∈ s.elements, I.Good n item) {index : Nat}
    {item : Value} (hi : s.nth? index = some item) : I.Good n item := by
  rw [← Sequence.getElem?_elements] at hi
  exact h item (List.mem_of_getElem? hi)

/-- A slice has no elements of its own. -/
theorem mem_of_mem_slice? {α : Type} {xs part : List α} {start stop : Nat}
    (h : slice? xs start stop = some part) {x : α} (hx : x ∈ part) : x ∈ xs := by
  unfold slice? at h
  split at h
  · obtain rfl := Option.some.inj h
    exact List.mem_of_mem_drop (List.mem_of_mem_take hx)
  · cases h

/-- A slice of good elements is good. -/
theorem good_slice? {s : Sequence} (h : ∀ item ∈ s.elements, I.Good n item) {start : Nat}
    {stop : Option Nat} {part : Value} (hp : s.slice? start stop = some part) :
    I.Good n part := by
  cases s with
  | list items =>
    obtain ⟨chosen, hc, rfl⟩ := Option.map_eq_some_iff.1 hp
    rw [sliceList?_eq] at hc
    exact good_list fun v hv => h v (mem_of_mem_slice? hc hv)
  | vector items =>
    obtain ⟨chosen, hc, rfl⟩ := Option.map_eq_some_iff.1 hp
    exact good_vector fun v hv => h v (mem_of_mem_slice? hc hv)
  | text characters =>
    obtain ⟨chosen, _, rfl⟩ := Option.map_eq_some_iff.1 hp
    exact good_of_isData rfl rfl

/-! ### Results -/

/-- The first of good elements is good, and so is the error if there is none. -/
theorem goodOutcome_firstOf {items : List Value} (h : ∀ v ∈ items, I.Good n v) :
    I.GoodOutcome I.Good n (Operation.firstOf items) := by
  cases items with
  | nil => trivial
  | cons item rest => exact h item (List.mem_cons_self ..)

/-- The rest of good elements is good, and so is the error if there is none. -/
theorem goodOutcome_restOf {items : List Value} {wrap : List Value → Value}
    (hwrap : ∀ part : List Value, (∀ v ∈ part, I.Good n v) → I.Good n (wrap part))
    (h : ∀ v ∈ items, I.Good n v) :
    I.GoodOutcome I.Good n ((Operation.restOf items).map wrap) := by
  cases items with
  | nil => trivial
  | cons item rest => exact hwrap rest fun v hv => h v (List.mem_cons_of_mem _ hv)

/-- A number is good, and so is an overflow. -/
theorem goodOutcome_arithmetic (op : Operation) (operation : String) (result : Option Int64) :
    I.GoodOutcome I.Good n (op.arithmetic operation result) := by
  cases result with
  | none => trivial
  | some m => exact good_of_isData rfl rfl

/-- A joined text is good, and so is the error of an argument that is no text. -/
theorem goodOutcome_appendTexts (args : List Value) :
    I.GoodOutcome I.Good n ((Operation.appendTexts args).map .string) := by
  have herror : ∀ e, Operation.appendTexts args = .error e → I.GoodError n e := by
    intro e he
    fun_induction Operation.appendTexts args with
    | case1 => cases he
    | case2 text args ih =>
      cases hr : Operation.appendTexts args with
      | ok rest => rw [hr] at he; cases he
      | error e' =>
        rw [hr] at he
        cases he
        exact ih hr
    | case3 => cases he; trivial
  cases ht : Operation.appendTexts args with
  | ok text => exact good_of_isData rfl rfl
  | error e => exact herror e ht

/-- An operation on a sequence is good if what it does there is. -/
theorem goodOutcome_onSequence {op : Operation} {v : Value} {s : Sequence}
    (hs : v.sequence? = some s) {f : Sequence → Except Error Value}
    (hf : I.GoodOutcome I.Good n (f s)) : I.GoodOutcome I.Good n (op.onSequence v f) := by
  rw [Operation.onSequence_eq hs]
  exact hf

/-- The outcome of a function on a sequence, given that it is good at every position. -/
theorem goodOutcome_position {op : Operation} {count : Int64} {v : Value} {s : Sequence}
    (hs : v.sequence? = some s) {f : Nat → Sequence → Except Error Value}
    (hf : ∀ index, I.GoodOutcome I.Good n (f index s)) :
    I.GoodOutcome I.Good n (do
      let index ← op.position count
      op.onSequence v (f index)) := by
  unfold Operation.position
  by_cases hneg : count < 0
  · rw [if_pos hneg]
    trivial
  · rw [if_neg hneg]
    exact goodOutcome_onSequence hs (hf _)

/-- **The result of an operation on good arguments is good.** -/
theorem goodOutcome_result {op : Operation} {args : List Value} (hfits : op.Fits args)
    (hargs : ∀ v ∈ args, I.Good n v) : I.GoodOutcome I.Good n (op.result args) := by
  cases hfits with
  | throw label payload => exact hargs payload (by simp)
  | list => exact good_list hargs
  | dict =>
    refine good_ofEntries fun entry hmem => ?_
    obtain ⟨hkey, hitem⟩ := Dict.mem_of_mem_pairs hmem
    exact ⟨hargs _ hkey, hargs _ hitem⟩
  | eq a b => exact good_of_isData rfl rfl
  | cons_list head items =>
    have hitems : ∀ v ∈ items, I.Good n v := (hargs (.list items) (by simp)).items_list
    exact good_list (List.forall_mem_cons.2 ⟨hargs head (by simp), hitems⟩)
  | cons_vector head items =>
    have hitems : ∀ v ∈ items, I.Good n v := (hargs (.vector items) (by simp)).items_vector
    exact good_vector (List.forall_mem_cons.2 ⟨hargs head (by simp), hitems⟩)
  | first_list items => exact goodOutcome_firstOf (hargs (.list items) (by simp)).items_list
  | first_vector items =>
    exact goodOutcome_firstOf (hargs (.vector items) (by simp)).items_vector
  | rest_list items =>
    exact goodOutcome_restOf (fun _ => good_list) (hargs (.list items) (by simp)).items_list
  | rest_vector items =>
    exact goodOutcome_restOf (fun _ => good_vector)
      (hargs (.vector items) (by simp)).items_vector
  | @length v s hs =>
    refine goodOutcome_onSequence hs ?_
    generalize Number.ofInt? s.length = count
    cases count with
    | some count => exact good_of_isData rfl rfl
    | none => trivial
  | @take count v s hs =>
    have hitems := (hargs v (by simp)).elements hs
    refine goodOutcome_position hs fun index => ?_
    split
    · exact good_slice? hitems ‹_›
    · trivial
  | @drop count v s hs =>
    have hitems := (hargs v (by simp)).elements hs
    refine goodOutcome_position hs fun index => ?_
    split
    · exact good_slice? hitems ‹_›
    · trivial
  | @nth count v s hs =>
    have hitems := (hargs v (by simp)).elements hs
    refine goodOutcome_position hs fun index => ?_
    split
    · exact good_nth? hitems ‹_›
    · trivial
  | addRight items v =>
    have hitems : ∀ w ∈ items, I.Good n w := (hargs (.vector items) (by simp)).items_vector
    refine good_vector fun w hw => ?_
    rcases List.mem_append.1 hw with hw | hw
    · exact hitems w hw
    · obtain rfl := List.mem_singleton.1 hw
      exact hargs w (by simp)
  | lookup key entries =>
    have hdict : I.Good n (.dict entries) := hargs _ (by simp)
    rw [Operation.result_lookup]
    split
    · exact hdict.find? ‹_›
    · exact hargs key (by simp)
  | insert key item entries =>
    exact good_dict_insert (hargs key (by simp)) (hargs item (by simp)) (hargs _ (by simp))
  | add m k => exact goodOutcome_arithmetic _ _ _
  | sub m k => exact goodOutcome_arithmetic _ _ _
  | mul m k => exact goodOutcome_arithmetic _ _ _
  | lt m k => exact good_of_isData rfl rfl
  | gt m k => exact good_of_isData rfl rfl
  | not b => exact good_of_isData rfl rfl
  | stringAppend => exact goodOutcome_appendTexts args
  | pureState =>
    have henv : ∀ v ∈ State.empty.env.values, I.Good n v := List.forall_mem_nil _
    have hrefs : ∀ v ∈ State.empty.refs, I.Good n v := List.forall_mem_nil _
    exact Value.everywhere_state.2 ⟨I.frozen, henv, hrefs⟩
  | stateEnv s =>
    obtain ⟨hs, henv, _⟩ := Value.everywhere_state.1 (hargs (.state s) (by simp))
    exact Value.everywhere_env.2 ⟨I.env_value (I.state_env hs), henv⟩
  | ref v => trivial
  | readRef index => trivial
  | writeRef index v => trivial
  | currentState => trivial

/-! ### Runs -/

/-- A new slot makes the store one longer, and its index is in range. -/
theorem kept_ref {b : Bindings} (hs : I.Sound b) {v : Value} (hv : I.Good b.stage v) :
    I.Kept I.Good b
      (.ok (.ref (UInt64.ofNat b.refs.length)), { b with refs := b.refs ++ [v] }) := by
  have hlen : b.refs.length ≤ (b.refs ++ [v]).length := by simp
  have hstage : b.stage ≤ ⟨(b.refs ++ [v]).length, b.fresh⟩ := ⟨hlen, le_rfl⟩
  have hindex : (UInt64.ofNat b.refs.length).toNat < (b.refs ++ [v]).length := by
    have hmod : b.refs.length % 2 ^ 64 ≤ b.refs.length := Nat.mod_le ..
    simp only [UInt64.toNat_ofNat', List.length_append, List.length_singleton]
    omega
  have hrefs : ∀ w ∈ b.refs ++ [v], I.Good ⟨(b.refs ++ [v]).length, b.fresh⟩ w := by
    intro w hw
    rcases List.mem_append.1 hw with hw | hw
    · exact (hs.refs w hw).mono hstage
    · obtain rfl := List.mem_singleton.1 hw
      exact hv.mono hstage
  refine ⟨⟨⟨[], rfl⟩, hlen⟩, le_rfl, hs.withRefs hlen hrefs, ?_⟩
  exact Value.everywhere_ref.2 (I.ref hindex)

/-- Reading a slot gives a good value; there is none only past the end of the store. -/
theorem goodOutcome_readRef {b : Bindings} (hs : I.Sound b) {index : UInt64}
    (hindex : I.Good b.stage (.ref index)) (name : String) :
    I.GoodOutcome I.Good b.stage
      (match Store.get? index b.refs with
        | some v => .ok v
        | none => .error (.impossible (.danglingReference name index))) := by
  cases hg : Store.get? index b.refs with
  | some v => exact hs.refs v (List.mem_of_getElem? hg)
  | none => exact I.danglingReference (List.getElem?_eq_none_iff.1 hg) hindex.here

/-- Writing fails only at an index that is not below the length of the store. -/
theorem length_le_of_set?_eq_none {index : UInt64} {v : Value} {refs : Store Value}
    (h : Store.set? index v refs = none) : refs.length ≤ index.toNat :=
  List.getElem?_eq_none_iff.1 (Option.map_eq_none_iff.1 h)

/-- Writing a slot changes that slot only, so the store stays as long as it was. -/
theorem kept_writeRef {b : Bindings} (hs : I.Sound b) {index : UInt64} {v : Value}
    (hv : I.Good b.stage v) {written : Value × Store Value}
    (hset : Store.set? index v b.refs = some written) :
    I.Kept I.Good b (.ok v, { b with refs := written.2 }) := by
  have hlen : written.2.length = b.refs.length := Store.length_set? hset
  obtain ⟨old, _, rfl⟩ := Option.map_eq_some_iff.1 hset
  have hstage : b.stage ≤ ⟨(b.refs.set index.toNat v).length, b.fresh⟩ := ⟨hlen.ge, le_rfl⟩
  have hrefs : ∀ w ∈ b.refs.set index.toNat v,
      I.Good ⟨(b.refs.set index.toNat v).length, b.fresh⟩ w := by
    intro w hw
    rcases List.mem_or_eq_of_mem_set hw with hw | rfl
    · exact (hs.refs w hw).mono hstage
    · exact hv.mono hstage
  exact ⟨⟨⟨[], rfl⟩, hlen.ge⟩, le_rfl, hs.withRefs hlen.ge hrefs, hv.mono hstage⟩

/-- **Running an operation on good arguments stays within the limit.**  It does
not look at the context. -/
theorem coincide_operation {op : Operation} {args : List Value} (hfits : op.Fits args)
    (hargs : ∀ v ∈ args, I.Good n v) (eval : Evaluator) (ctx ctx' : Context) :
    I.Coincide n I.Good (Call.run eval ctx (.operation op args))
      (Call.run eval ctx' (.operation op args)) := by
  intro b hb hs
  refine ⟨?_, rfl⟩
  have hargs : ∀ v ∈ args, I.Good b.stage v := fun v hv => (hargs v hv).mono hb
  have hpure : (op.run b args = (op.result args).map fun v => (v, b.refs)) →
      I.Kept I.Good b ((Call.run eval ctx (.operation op args)).run b) := by
    intro hrun
    have hresult := goodOutcome_result hfits hargs
    simp only [Action.run, Call.run_operation, hrun]
    cases hr : op.result args with
    | ok v => exact .same hs (show I.GoodOutcome I.Good b.stage (.ok v) from hr ▸ hresult)
    | error e => exact .same hs (show I.GoodOutcome I.Good b.stage (.error e) from hr ▸ hresult)
  cases hfits with
  | ref v => exact kept_ref hs (hargs v (by simp))
  | readRef index =>
    have hread := goodOutcome_readRef hs (hargs (.ref index) (by simp)) Operation.readRef.name
    simp only [Action.run, Call.run_operation, Operation.run_readRef]
    cases hg : Store.get? index b.refs with
    | some v => exact .same hs (by simpa only [hg] using hread)
    | none => exact .same hs (by simpa only [hg] using hread)
  | writeRef index v =>
    simp only [Action.run, Call.run_operation, Operation.run_writeRef]
    cases hset : Store.set? index v b.refs with
    | some written => exact kept_writeRef hs (hargs v (by simp)) hset
    | none =>
      have hindex : I.Good b.stage (.ref index) := hargs (.ref index) (by simp)
      exact .same hs (I.danglingReference (length_le_of_set?_eq_none hset) hindex.here)
  | currentState => exact .same hs hs.good_toState
  | _ => exact hpure rfl

end Invariant
end CapLisp
