/-
# Equal arguments are indistinguishable

Equality forgets the order of dict entries, the scopes of closures and the variant and
order of environments, so two equal values may differ inside.  No operation sees the
difference (`Value.likeness`).  Three facts carry this.

* Equal keys find the same entry of a dict (`Dict.find?_congr`), and equal dicts bind
  what is found to equal values (`Value.Same.find?`).
* A look-up after an insertion finds what was inserted if the key is equal, and else what
  was there (`Dict.find?_insert`), so insertions into equal dicts leave equal dicts.
* A snapshot of an environment binds what the environment binds.

So calls from equal bindings on equal arguments end equally (`equal_calls_end_equally`).
-/

import CapLisp.Proofs.Applications
import CapLisp.Proofs.Equivalence
import CapLisp.Proofs.Likeness

namespace CapLisp

/-- Two values that are equal.  Both are well formed, as all values that are built. -/
structure Value.Same (v w : Value) : Prop where
  left : v.WellFormed
  right : w.WellFormed
  equal : (v == w) = true

/-- Bindings with equal environments and equal stores. -/
structure Bindings.Same (b b' : Bindings) : Prop where
  left : b.WellFormed
  right : b'.WellFormed
  env : (b.env == b'.env) = true
  refs : List.Forall₂ (fun v w : Value => (v == w) = true) b.refs b'.refs

/-- Equal values, or errors of one kind and label. -/
inductive EqualOutcome : Except Error Value → Except Error Value → Prop
  | ok {v w : Value} (h : (v == w) = true) : EqualOutcome (.ok v) (.ok w)
  | error {e e' : Error} (kind : e.kind = e'.kind) (label : e.label = e'.label) :
    EqualOutcome (.error e) (.error e')

/-- Two runs that end equally. -/
structure EqualEnd (r r' : Except Error Value × Bindings) : Prop where
  outcome : EqualOutcome r.1 r'.1
  bindings : r.2.Same r'.2

namespace Value
namespace Same

variable {u v w v' w' : Value}

/-- A well-formed value is the same as itself. -/
theorem refl (h : v.WellFormed) : v.Same v := ⟨h, h, by rw [beq_eq, beq_self]⟩

/-- The order of two values does not matter. -/
theorem symm (h : v.Same w) : w.Same v := by
  refine ⟨h.right, h.left, ?_⟩
  have hequal := h.equal
  rw [beq_eq] at hequal ⊢
  exact beq_symm h.left h.right hequal

/-- Being the same carries over a third value. -/
theorem trans (h : u.Same v) (h' : v.Same w) : u.Same w := by
  refine ⟨h.left, h'.right, ?_⟩
  have hequal := h.equal
  have hequal' := h'.equal
  rw [beq_eq] at hequal hequal' ⊢
  exact beq_trans hequal hequal'

/-- Equality does not tell equal values apart. -/
theorem beq_congr (hv : v.Same v') (hw : w.Same w') : (v == w) = (v' == w') := by
  refine Bool.eq_iff_iff.2 ⟨fun h => ?_, fun h => ?_⟩
  · exact (hv.symm.trans (trans ⟨hv.left, hw.left, h⟩ hw)).equal
  · exact (hv.trans (trans ⟨hv.right, hw.right, h⟩ hw.symm)).equal

end Same

/-- Values are the same one by one exactly if they are well formed and equal as lists. -/
theorem forall₂_same_iff {vs ws : List Value} :
    List.Forall₂ Same vs ws ↔
      (∀ v ∈ vs, v.WellFormed) ∧ (∀ w ∈ ws, w.WellFormed) ∧ beqAll vs ws = true := by
  constructor
  · intro h
    induction h with
    | nil => exact ⟨nofun, nofun, by rw [beqAll]⟩
    | cons hv _ ih =>
      obtain ⟨hleft, hright, hequal⟩ := ih
      refine ⟨List.forall_mem_cons.2 ⟨hv.left, hleft⟩,
        List.forall_mem_cons.2 ⟨hv.right, hright⟩, ?_⟩
      rw [beqAll, hequal, ← beq_eq, hv.equal]
      rfl
  · rintro ⟨hleft, hright, hequal⟩
    induction vs generalizing ws with
    | nil =>
      cases ws with
      | nil => exact .nil
      | cons w ws => simp [beqAll] at hequal
    | cons v vs ih =>
      cases ws with
      | nil => simp [beqAll] at hequal
      | cons w ws =>
        rw [beqAll, Bool.and_eq_true, ← beq_eq] at hequal
        obtain ⟨hv, hvs⟩ := List.forall_mem_cons.1 hleft
        obtain ⟨hw, hws⟩ := List.forall_mem_cons.1 hright
        exact .cons ⟨hv, hw, hequal.1⟩ (ih hvs hws hequal.2)

/-- Lists of the same elements are the same. -/
theorem Same.list {vs ws : List Value} (h : List.Forall₂ Same vs ws) :
    (Value.list vs).Same (.list ws) := by
  obtain ⟨hleft, hright, hequal⟩ := forall₂_same_iff.1 h
  refine ⟨everywhere_list.2 ⟨trivial, hleft⟩, everywhere_list.2 ⟨trivial, hright⟩, ?_⟩
  rw [beq_eq, beq, hequal]

/-- Vectors of the same elements are the same. -/
theorem Same.vector {vs ws : List Value} (h : List.Forall₂ Same vs ws) :
    (Value.vector vs).Same (.vector ws) := by
  obtain ⟨hleft, hright, hequal⟩ := forall₂_same_iff.1 h
  refine ⟨everywhere_vector.2 ⟨trivial, hleft⟩, everywhere_vector.2 ⟨trivial, hright⟩, ?_⟩
  rw [beq_eq, beq, hequal]

end Value

/-! ### Dicts -/

namespace Dict

variable {entries : Dict} {key key' value : Value}

/-- Equal keys find the same. -/
theorem find?_congr (h : key.Same key') (hkeys : ∀ entry ∈ entries, entry.1.WellFormed) :
    find? key entries = find? key' entries := by
  induction entries with
  | nil => rfl
  | cons entry rest ih =>
    obtain ⟨hentry, hrest⟩ := List.forall_mem_cons.1 hkeys
    rw [find?, find?, Value.Same.beq_congr h (.refl hentry), ih hrest]

/-- **A look-up after an insertion** finds what was inserted, if the key is equal. -/
theorem find?_insert (hkey : key.WellFormed) (hkey' : key'.WellFormed)
    (hkeys : ∀ entry ∈ entries, entry.1.WellFormed) :
    find? key' (insert key value entries) =
      if key' == key then some value else find? key' entries := by
  induction entries with
  | nil => rfl
  | cons entry rest ih =>
    obtain ⟨other, old⟩ := entry
    obtain ⟨hother, hrest⟩ := List.forall_mem_cons.1 hkeys
    rw [insert]
    by_cases h : (key == other) = true
    · -- The entry has an equal key and keeps its place.
      have hsame : (key' == other) = (key' == key) :=
        (Value.Same.beq_congr (.refl hkey') ⟨hkey, hother, h⟩).symm
      rw [if_pos h, find?, find?, hsame]
      split <;> rfl
    · rw [if_neg h, find?, find?, ih hrest]
      by_cases h' : (key' == other) = true
      · have hne : ¬ (key' == key) = true := fun hequal =>
          h (Value.Same.trans (.symm ⟨hkey', hkey, hequal⟩) ⟨hkey', hother, h'⟩).equal
        rw [if_pos h', if_pos h', if_neg hne]
      · rw [if_neg h', if_neg h']

/-- Inserting keeps a dictionary well formed. -/
theorem wellFormed_insert (h : (Value.dict entries).WellFormed) (hkey : key.WellFormed)
    (hvalue : value.WellFormed) : (Value.dict (insert key value entries)).WellFormed := by
  obtain ⟨hunequal, hparts⟩ := Value.everywhere_dict.1 h
  exact Value.everywhere_dict.2
    ⟨unequal_insert hunequal key value, forall_mem_insert hkey hvalue hparts⟩

/-- A value found in a well-formed dictionary is well formed. -/
theorem wellFormed_find? (h : (Value.dict entries).WellFormed)
    (hfind : find? key entries = some value) : value.WellFormed := by
  obtain ⟨entry, hmem, -, rfl⟩ := exists_mem_of_find? hfind
  exact ((Value.everywhere_dict.1 h).2 entry hmem).2

end Dict

namespace Value

variable {as bs : Dict} {key key' : Value}

/-- What equal keys find in equal dicts is equal. -/
theorem Same.find? (h : (dict as).Same (dict bs)) (hkey : key.Same key') :
    Option.Rel Same (Dict.find? key as) (Dict.find? key' bs) := by
  have hright : ∀ {as bs : Dict} {v : Value}, (dict as).Same (dict bs) →
      Dict.find? key as = some v → ∃ w, Dict.find? key bs = some w ∧ v.Same w := by
    intro as bs v h hfind
    have has := (everywhere_dict.1 h.left).2
    have hbs := (everywhere_dict.1 h.right).2
    obtain ⟨entry, hmem, hequal, rfl⟩ := Dict.exists_mem_of_find? hfind
    obtain ⟨w, hw, hwv⟩ := ((beq_dict_iff h.left h.right).1 h.equal).2 entry hmem
    have hwell := Dict.wellFormed_find? h.right hw
    rw [← Dict.find?_congr ⟨hkey.left, (has entry hmem).1, hequal⟩ fun e he => (hbs e he).1] at hw
    exact ⟨w, hw, .symm ⟨hwell, (has entry hmem).2, hwv⟩⟩
  rw [← Dict.find?_congr hkey fun entry hmem => ((everywhere_dict.1 h.right).2 entry hmem).1]
  cases hfind : Dict.find? key as with
  | some v =>
    obtain ⟨w, hw, hvw⟩ := hright h hfind
    rw [hw]
    exact .some hvw
  | none =>
    cases hfind' : Dict.find? key bs with
    | none => exact .none
    | some w =>
      obtain ⟨v, hv, -⟩ := hright h.symm hfind'
      rw [hfind] at hv
      cases hv

/-- Insertions of equal keys and values into equal dicts leave equal dicts. -/
theorem Same.insert {v w : Value} (h : (dict as).Same (dict bs)) (hkey : key.Same key')
    (hvalue : v.Same w) :
    (dict (Dict.insert key v as)).Same (dict (Dict.insert key' w bs)) := by
  have has := Dict.wellFormed_insert h.left hkey.left hvalue.left
  have hbs := Dict.wellFormed_insert h.right hkey.right hvalue.right
  refine ⟨has, hbs, (beq_dict_iff has hbs).2 ⟨?_, fun entry hmem => ?_⟩⟩
  · have hfound : (Dict.find? key as).isSome = (Dict.find? key' bs).isSome :=
      rel_cases (h.find? hkey) (fun _ _ _ => rfl) rfl
    rw [Dict.length_insert, Dict.length_insert, hfound, ((beq_dict_iff h.left h.right).1 h.equal).1]
  · -- An entry is what its own key finds, before and after.
    obtain ⟨hentry, hfound⟩ := (everywhere_dict.1 has).2 entry hmem
    have hleft : Dict.find? entry.1 (Dict.insert key v as) = some entry.2 :=
      Dict.find?_of_mem has.here ⟨hentry, hentry⟩ hmem (Same.refl hentry).equal
    rw [Dict.find?_insert hkey.left hentry fun e he => ((everywhere_dict.1 h.left).2 e he).1]
      at hleft
    rw [Dict.find?_insert hkey.right hentry fun e he => ((everywhere_dict.1 h.right).2 e he).1,
      ← Same.beq_congr (.refl hentry) hkey]
    split at hleft
    · next hequal =>
      cases hleft
      rw [if_pos hequal]
      exact ⟨w, rfl, hvalue.symm.equal⟩
    · next hne =>
      have hrel := h.find? (.refl hentry)
      rw [hleft] at hrel
      rw [if_neg hne]
      generalize Dict.find? entry.1 bs = found at hrel ⊢
      cases hrel with
      | some hsame => exact ⟨_, rfl, hsame.symm.equal⟩

/-! ### Environments -/

/-- Snapshots of equal environments and equal stores are equal. -/
theorem Same.snapshot {e e' : Env Value} {refs refs' : Store Value} (h : (env e).Same (env e'))
    (hrefs : List.Forall₂ Same refs refs') :
    (state ⟨.persistent e.freeze, refs⟩).Same (state ⟨.persistent e'.freeze, refs'⟩) := by
  obtain ⟨hleft, hright, hequal⟩ := forall₂_same_iff.1 hrefs
  obtain ⟨hdistinct, hvalues⟩ := everywhere_env.1 h.left
  obtain ⟨hdistinct', hvalues'⟩ := everywhere_env.1 h.right
  have hfrozen : ∀ e : Env Value, (Env.persistent e.freeze).Distinct := fun e =>
    Env.distinct_of_isImmutable rfl
  refine ⟨everywhere_state.2 ⟨hfrozen e, ?_, hleft⟩,
    everywhere_state.2 ⟨hfrozen e', ?_, hright⟩, ?_⟩
  · exact fun v hv => hvalues v (Env.mem_values_of_mem_freeze hv)
  · exact fun v hv => hvalues' v (Env.mem_values_of_mem_freeze hv)
  · have henv := h.equal
    rw [beq_eq, beq, beqEnv_iff_rel hdistinct hdistinct'] at henv
    rw [beq_eq, beq, beqState_iff]
    refine ⟨(beqEnv_iff_rel (hfrozen e) (hfrozen e')).2 fun name => ?_, hequal⟩
    change Option.Rel _ (List.lookup name e.freeze) (List.lookup name e'.freeze)
    rw [Env.lookup_freeze hdistinct, Env.lookup_freeze hdistinct']
    exact henv name

/-- The environments of the same states are the same. -/
theorem Same.state_env {s s' : State Value} (h : (state s).Same (state s')) :
    (env s.env).Same (env s'.env) := by
  obtain ⟨hdistinct, hvalues, -⟩ := everywhere_state.1 h.left
  obtain ⟨hdistinct', hvalues', -⟩ := everywhere_state.1 h.right
  refine ⟨everywhere_env.2 ⟨hdistinct, hvalues⟩, everywhere_env.2 ⟨hdistinct', hvalues'⟩, ?_⟩
  have hequal := h.equal
  rw [beq_eq, beq, beqState_iff] at hequal
  rw [beq_eq, beq, hequal.1]

/-! ### Operations -/

/-- Equal values have equal parts. -/
theorem Same.parts {v w : Value} (h : v.Same w) :
    LikeParts Same (fun as bs => (dict as).Same (dict bs)) (fun s s' => (state s).Same (state s'))
      v w := by
  have hequal := h.equal
  rw [beq_eq] at hequal
  -- Values of two kinds are unequal, so both are of one kind.
  cases v with
  | list vs =>
    cases w <;> simp only [beq, Bool.false_eq_true] at hequal
    exact .list (forall₂_same_iff.2
      ⟨(everywhere_list.1 h.left).2, (everywhere_list.1 h.right).2, hequal⟩)
  | vector vs =>
    cases w <;> simp only [beq, Bool.false_eq_true] at hequal
    exact .vector (forall₂_same_iff.2
      ⟨(everywhere_vector.1 h.left).2, (everywhere_vector.1 h.right).2, hequal⟩)
  | dict entries =>
    cases w <;> simp only [beq, Bool.false_eq_true] at hequal
    exact .dict h
  | state s =>
    cases w <;> simp only [beq, Bool.false_eq_true] at hequal
    exact .state h
  | atom name | string text | number n | bool b | ref index =>
    cases w <;> simp only [beq, Bool.false_eq_true, beq_iff_eq] at hequal
    subst hequal
    constructor
  | _ =>
    cases w <;> simp only [beq, Bool.false_eq_true] at hequal
    all_goals constructor

/-- **No operation sees more of a value than equality does.** -/
def likeness : Likeness where
  value := Same
  dict as bs := (Value.dict as).Same (.dict bs)
  env e e' := (Value.env e).Same (.env e')
  state s s' := (Value.state s).Same (.state s')
  error e e' := e.kind = e'.kind ∧ e.label = e'.label
  parts := Same.parts
  beq_eq := Same.beq_congr
  find? := Same.find?
  state_env := Same.state_env
  string text := .refl (everywhere_string.2 trivial)
  number n := .refl (everywhere_number.2 trivial)
  bool b := .refl (everywhere_bool.2 trivial)
  ref index := .refl (everywhere_ref.2 trivial)
  list := Same.list
  vector := Same.vector
  of_dict := id
  of_env := id
  of_state := id
  dict_nil := .refl (everywhere_dict.2 ⟨.nil, nofun⟩)
  dict_insert := Same.insert
  state_empty := by
    have hdistinct : (Env.empty : Env Value).Distinct := Env.distinct_of_isImmutable rfl
    exact .refl (everywhere_state.2 ⟨hdistinct, nofun, nofun⟩)
  snapshot := Same.snapshot
  plain _ := ⟨rfl, rfl⟩
  missingKey _ := ⟨rfl, rfl⟩
  thrown _ _ _ _ := ⟨rfl, rfl⟩

end Value

/-! ### Calls -/

namespace Bindings.Same

variable {b b' : Bindings}

/-- The environments of the same bindings are the same as values. -/
theorem value_env (h : b.Same b') : (Value.env b.env).Same (.env b'.env) := by
  refine ⟨Value.everywhere_env.2 ⟨h.left.distinct, h.left.env⟩,
    Value.everywhere_env.2 ⟨h.right.distinct, h.right.env⟩, ?_⟩
  have henv := h.env
  rw [Value.beq_env_eq] at henv
  rw [Value.beq_eq, Value.beq, henv]

/-- The slots of the same bindings are the same one by one. -/
theorem value_refs (h : b.Same b') : List.Forall₂ Value.Same b.refs b'.refs := by
  refine List.forall₂_iff_get.2 ⟨h.refs.length_eq, fun i hi hi' => ?_⟩
  exact ⟨h.left.refs _ (List.get_mem ..), h.right.refs _ (List.get_mem ..),
    (List.forall₂_iff_get.1 h.refs).2 i hi hi'⟩

/-- Exchanging the store for the same slots keeps bindings the same. -/
theorem withRefs (h : b.Same b') {refs refs' : Store Value}
    (hrefs : List.Forall₂ Value.Same refs refs') :
    Bindings.Same { b with refs := refs } { b' with refs := refs' } := by
  obtain ⟨hleft, hright, -⟩ := Value.forall₂_same_iff.1 hrefs
  exact ⟨⟨h.left.distinct, h.left.env, hleft⟩, ⟨h.right.distinct, h.right.env, hright⟩, h.env,
    hrefs.imp fun _ _ hslot => hslot.equal⟩

end Bindings.Same

/-- **An operation ends alike on the same arguments and bindings.** -/
theorem equal_calls_of_operation {table table' : Table} {op : Operation}
    (hgrant : table.Grants (.operation op)) (hgrant' : table'.Grants (.operation op))
    (eval eval' : Evaluator) (held held' : List Value) {args args' : List Value}
    (hargs : List.Forall₂ Value.Same args args') {b b' : Bindings} (hb : b.Same b') :
    EqualEnd ((op.call eval ⟨table, held⟩ args).run b)
      ((op.call eval' ⟨table', held'⟩ args').run b') := by
  have hcheck : (Primitive.operation op).check args = (Primitive.operation op).check args' :=
    Signature.check_congr _ _ (hargs.imp fun _ _ => Likeness.kind_eq (L := Value.likeness))
  cases hok : (Primitive.operation op).check args with
  | error e =>
    have hrefused : (op.call eval ⟨table, held⟩ args).run b = (.error e, b) :=
      run_call_refused hgrant hok
    have hrefused' : (op.call eval' ⟨table', held'⟩ args').run b' = (.error e, b') :=
      run_call_refused hgrant' (hcheck ▸ hok)
    rw [hrefused, hrefused']
    exact ⟨.error rfl rfl, hb⟩
  | ok _ =>
    have hrun := Likeness.outcome_run (L := Value.likeness) (Operation.fits_of_check hok) hargs
      hb.value_env hb.value_refs
    rw [run_call_operation hgrant hok, run_call_operation hgrant' (hcheck ▸ hok)]
    generalize op.run b args = outcome at hrun ⊢
    generalize op.run b' args' = outcome' at hrun ⊢
    cases hrun with
    | ok h => exact ⟨.ok h.1.equal, hb.withRefs h.2⟩
    | error h => exact ⟨.error h.1 h.2, hb⟩

/-- **Equal arguments are indistinguishable to primitives.**  Take any shipped primitive
but `apply` and `base-eval`, any two tables that grant it, and any two calls of it on
arguments that are equal one by one, from bindings with equal environments and equal
stores.  Both calls succeed with equal results or both fail with errors of one kind and
label, and the bindings that they leave are again equal. -/
theorem equal_calls_end_equally {p : Primitive} (hp : p ∈ Primitive.catalog) (happly : p ≠ .apply)
    (hbase : p ≠ .baseEval) {table table' : Table} (hgrant : table.Grants p)
    (hgrant' : table'.Grants p) (eval eval' : Evaluator) (held held' : List Value)
    {args args' : List Value} (hargs : List.Forall₂ Value.Same args args') {b b' : Bindings}
    (hb : b.Same b') :
    EqualEnd ((applyFunction eval ⟨table, held⟩ (.primFn p.name) args).run b)
      ((applyFunction eval' ⟨table', held'⟩ (.primFn p.name) args').run b') := by
  cases p with
  | operation op => exact equal_calls_of_operation hgrant hgrant' eval eval' held held' hargs hb
  | apply => exact absurd rfl happly
  | baseEval => exact absurd rfl hbase
  | host => simp [Primitive.catalog] at hp

/-- Equal keys that were built in different scopes, dicts in different orders and
environments of both variants. -/
theorem equal_calls_end_equally_reordered :
    let key : Value := .lambda ⟨1, ["x"], [.atom "x"], []⟩
    let key' : Value := .lambda ⟨2, ["x"], [.atom "x"], [("y", .null)]⟩
    let entries : Dict := [(.keyword "a", .number 1), (key', .null)]
    let entries' : Dict := [(key, .null), (.keyword "a", .number 1)]
    let args : List Value := [key, .number 5, .dict entries]
    let args' : List Value := [key', .number 5, .dict entries']
    let b : Bindings := ⟨.mutable [("r", .ref 0), ("k", key)], [.dict entries], 3⟩
    let b' : Bindings :=
      ⟨.persistent [("r", .ref 0), ("k", key'), ("r", .null)], [.dict entries'], 5⟩
    let r := (applyFunction (Eval.eval 4) ⟨Table.shipped, []⟩ (.primFn "insert") args).run b
    let r' := (applyFunction (Eval.eval 8) ⟨Table.shipped, []⟩ (.primFn "insert") args').run b'
    .operation .insert ∈ Primitive.catalog ∧ Table.shipped.Grants (.operation .insert) ∧
    List.Forall₂ Value.Same args args' ∧ b.Same b' ∧
    r.1 = .ok (.dict [(.keyword "a", .number 1), (key', .number 5)]) ∧
    r'.1 = .ok (.dict [(key, .number 5), (.keyword "a", .number 1)]) ∧ EqualEnd r r' := by
  intro key key' entries entries' args args' b b' r r'
  have hmem : Primitive.operation .insert ∈ Primitive.catalog :=
    List.mem_cons_of_mem _ (List.mem_cons_of_mem _
      (List.mem_map_of_mem (Operation.mem_all .insert)))
  have hgrant : Table.shipped.Grants (.operation .insert) := by rfl
  have hkey : key.WellFormed := by
    simp [key, Value.WellFormed, Value.isWellFormed, Value.EverywhereInClosure]
  have hkey' : key'.WellFormed := by
    simp [key', Value.WellFormed, Value.isWellFormed, Value.EverywhereInClosure]
  have hunequal : Dict.Unequal entries ∧ Dict.Unequal entries' := by
    constructor <;> exact List.pairwise_pair.2 (by decide +kernel)
  have hentries : (Value.dict entries).WellFormed := by
    refine Value.everywhere_dict.2 ⟨hunequal.1, ?_⟩
    simpa [entries, Value.WellFormed, Value.isWellFormed] using hkey'
  have hentries' : (Value.dict entries').WellFormed := by
    refine Value.everywhere_dict.2 ⟨hunequal.2, ?_⟩
    simpa [entries', Value.WellFormed, Value.isWellFormed] using hkey
  have hdict : (Value.dict entries).Same (.dict entries') :=
    ⟨hentries, hentries', by decide +kernel⟩
  have hargs : List.Forall₂ Value.Same args args' :=
    .cons ⟨hkey, hkey', by decide +kernel⟩ (.cons (Value.likeness.number 5) (.cons hdict .nil))
  have hb : b.Same b' := by
    refine ⟨⟨?_, ?_, ?_⟩, ⟨?_, ?_, ?_⟩, by decide +kernel, .cons hdict.equal .nil⟩
    · simp [b, Env.Distinct]
    · simpa [b, Env.values, Value.WellFormed, Value.isWellFormed] using hkey
    · simpa [b] using hentries
    · trivial
    · simpa [b', Env.values, Value.WellFormed, Value.isWellFormed] using hkey'
    · simpa [b'] using hentries'
  have happly : Primitive.operation .insert ≠ .apply := by rintro ⟨⟩
  have hbase : Primitive.operation .insert ≠ .baseEval := by rintro ⟨⟩
  exact ⟨hmem, hgrant, hargs, hb, by rfl, by rfl,
    equal_calls_end_equally hmem happly hbase hgrant hgrant (Eval.eval 4) (Eval.eval 8) [] [] hargs
      hb⟩

end CapLisp
