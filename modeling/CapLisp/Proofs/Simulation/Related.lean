/-
# Values up to the order of bindings

Two values are related if they are identical but for environments: the scopes of
closures, environments and the environments of states are compared as finite
maps.  Which variant an environment has, in which order it lists its names and
which frames are shadowed does not count.

This is finer than equality, which does not look at scopes, and coarser than the
views, which keep the order of names.  It is a simulation on values that name
`def-rec` nowhere (`Simulation.interchange`): look-ups are all that evaluation
does with an environment, next to snapshots, copies and definitions, and equality
compares environments as finite maps itself.
-/

import CapLisp.Proofs.Simulation.Evaluator
import CapLisp.Proofs.View.Equality
import CapLisp.Proofs.WellFormed

namespace CapLisp

/-- Two values that are identical but for the variant of environments, the order
of their bindings and shadowed frames, at any depth.  The serial number of a
closure tells objects apart and is no part of the value. -/
inductive Related : Value → Value → Prop
  | atom (name : String) : Related (.atom name) (.atom name)
  | keyword (name : String) : Related (.keyword name) (.keyword name)
  | string (text : String) : Related (.string text) (.string text)
  | number (n : Int64) : Related (.number n) (.number n)
  | bool (b : Bool) : Related (.bool b) (.bool b)
  | null : Related .null .null
  | list {vs ws : List Value} (h : List.Forall₂ Related vs ws) : Related (.list vs) (.list ws)
  | vector {vs ws : List Value} (h : List.Forall₂ Related vs ws) :
    Related (.vector vs) (.vector ws)
  | dict {entries others : Dict}
    (keys : List.Forall₂ Related (entries.map Prod.fst) (others.map Prod.fst))
    (values : List.Forall₂ Related (entries.map Prod.snd) (others.map Prod.snd)) :
    Related (.dict entries) (.dict others)
  | lambda {f g : Closure Value} (params : f.params = g.params)
    (bodies : List.Forall₂ Related f.bodies g.bodies)
    (scope : ∀ name, Option.Rel Related (f.scope.lookup name) (g.scope.lookup name)) :
    Related (.lambda f) (.lambda g)
  | lambdaRec {name : String} {f g : Closure Value} (params : f.params = g.params)
    (bodies : List.Forall₂ Related f.bodies g.bodies)
    (scope : ∀ name, Option.Rel Related (f.scope.lookup name) (g.scope.lookup name)) :
    Related (.lambdaRec name f) (.lambdaRec name g)
  | primFn (name : String) : Related (.primFn name) (.primFn name)
  | ref (index : UInt64) : Related (.ref index) (.ref index)
  | env {e e' : Env Value} (h : ∀ name, Option.Rel Related (e.lookup name) (e'.lookup name)) :
    Related (.env e) (.env e')
  | state {s s' : State Value}
    (env : ∀ name, Option.Rel Related (s.env.lookup name) (s'.env.lookup name))
    (refs : List.Forall₂ Related s.refs s'.refs) : Related (.state s) (.state s')

/-- What the same look-up finds is related to itself. -/
theorem rel_refl {found : Option Value} (h : ∀ v, found = some v → Related v v) :
    Option.Rel Related found found := by
  cases found with
  | none => exact .none
  | some v => exact .some (h v rfl)

/-- Look-ups that find related things find things that are related in another way, too. -/
theorem rel_imp_of_found {R Q : Value → Value → Prop} {found found' : Option Value}
    (h : Option.Rel R found found')
    (himp : ∀ v w, found = some v → found' = some w → R v w → Q v w) :
    Option.Rel Q found found' := by
  cases h with
  | some hvw => exact .some (himp _ _ rfl rfl hvw)
  | none => exact .none

/-- **Every value is related to itself.** -/
theorem Related.refl (v : Value) : Related v v := by
  induction v using Value.inductionOnParts with
  | step v ih =>
  -- Both kinds of closure are related part by part, and through what their scopes look up.
  have hclosure : ∀ fn : Closure Value, v.parts = Value.closureParts fn →
      List.Forall₂ Related fn.bodies fn.bodies ∧
      ∀ name, Option.Rel Related (fn.scope.lookup name) (fn.scope.lookup name) := by
    intro fn hparts
    rw [hparts] at ih
    refine ⟨List.forall₂_same.2 fun w hw => ih w (List.mem_append_left _ hw), ?_⟩
    exact fun name => rel_refl fun w hw =>
      ih w (List.mem_append_right _ (mem_values_of_lookup hw))
  cases v with
  | list items => exact .list (List.forall₂_same.2 ih)
  | vector items => exact .vector (List.forall₂_same.2 ih)
  | dict entries =>
    have hentry : ∀ entry ∈ entries, Related entry.1 entry.1 ∧ Related entry.2 entry.2 :=
      fun entry hmem => ⟨ih _ (Value.mem_entryParts.2 ⟨entry, hmem, Or.inl rfl⟩),
        ih _ (Value.mem_entryParts.2 ⟨entry, hmem, Or.inr rfl⟩)⟩
    refine .dict (List.forall₂_same.2 ?_) (List.forall₂_same.2 ?_)
    · exact List.forall_mem_map.2 fun entry hmem => (hentry entry hmem).1
    · exact List.forall_mem_map.2 fun entry hmem => (hentry entry hmem).2
  | lambda fn => exact .lambda rfl (hclosure fn rfl).1 (hclosure fn rfl).2
  | lambdaRec name fn => exact .lambdaRec rfl (hclosure fn rfl).1 (hclosure fn rfl).2
  | env e => exact .env fun name => rel_refl fun w hw => ih w (Env.mem_values_of_lookup hw)
  | state s =>
    refine .state (fun name => rel_refl fun w hw => ?_) (List.forall₂_same.2 fun w hw => ?_)
    · exact ih w (List.mem_append_left _ (Env.mem_values_of_lookup hw))
    · exact ih w (List.mem_append_right _ hw)
  | _ => constructor

/-! ### Tame values -/

/-- Tells that nothing in the value itself asks for more than look-ups: it is not
the atom `def-rec`, and an environment lists each name once. -/
def Value.isTame : Value → Prop
  | .atom name => name ≠ SpecialForm.defineRec.name
  | .env e => e.Distinct
  | .state s => s.env.Distinct
  | _ => True

/-- A value that asks for no more than look-ups, at any depth. -/
def Value.Tame (v : Value) : Prop := v.Everywhere Value.isTame

/-- An environment of tame values that lists each name once. -/
structure Env.Tame (e : Env Value) : Prop where
  distinct : e.Distinct
  values : ∀ v ∈ e.values, v.Tame

namespace Env.Tame

variable {e : Env Value}

/-- A definition of a tame value keeps an environment tame. -/
theorem define (h : e.Tame) (name : String) {v : Value} (hv : v.Tame) :
    (e.define name v).Tame := by
  refine ⟨Env.distinct_define h.distinct name v, ?_⟩
  intro u hu
  rcases Env.mem_values_of_mem_define hu with rfl | hu
  · exact hv
  · exact h.values u hu

/-- A frozen environment is tame. -/
theorem freeze (h : e.Tame) : (Env.persistent e.freeze).Tame :=
  ⟨trivial, fun v hv => h.values v (Env.mem_values_of_mem_freeze hv)⟩

/-- A thawed environment is tame. -/
theorem thaw (h : e.Tame) : (Env.mutable e.thaw).Tame :=
  ⟨Env.distinct_thaw h.distinct, fun v hv => h.values v (Env.mem_values_of_mem_thaw hv)⟩

end Env.Tame

/-- Two related values that are tame. -/
structure Interchange (v w : Value) : Prop where
  related : Related v w
  left : v.Tame
  right : w.Tame

/-- Two tame environments that are the same finite map, up to related values. -/
structure InterchangeEnv (e e' : Env Value) : Prop where
  lookup : ∀ name, Option.Rel Related (e.lookup name) (e'.lookup name)
  left : e.Tame
  right : e'.Tame

/-- Two scopes that make the same finite map, up to related values. -/
def InterchangeChain (frames others : Chain Value) : Prop :=
  InterchangeEnv (.persistent frames) (.persistent others)

/-- Two states with the same finite map and the same slots, up to related values. -/
structure InterchangeState (s s' : State Value) : Prop where
  env : InterchangeEnv s.env s'.env
  refs : List.Forall₂ Interchange s.refs s'.refs

/-- A tame value can be exchanged for itself. -/
theorem Interchange.refl {v : Value} (h : v.Tame) : Interchange v v := ⟨.refl v, h, h⟩

/-! ### Lists and entries -/

/-- Values can be exchanged one by one if they are related and all of them are tame. -/
theorem forall₂_interchange_iff {vs ws : List Value} :
    List.Forall₂ Interchange vs ws ↔
      List.Forall₂ Related vs ws ∧ (∀ v ∈ vs, v.Tame) ∧ ∀ w ∈ ws, w.Tame := by
  induction vs generalizing ws with
  | nil => cases ws <;> simp
  | cons v vs ih =>
    cases ws with
    | nil => simp
    | cons w ws =>
      rw [List.forall₂_cons, List.forall₂_cons, ih, List.forall_mem_cons, List.forall_mem_cons]
      constructor
      · rintro ⟨⟨hv, hleft, hright⟩, hvs, hlefts, hrights⟩
        exact ⟨⟨hv, hvs⟩, ⟨hleft, hlefts⟩, ⟨hright, hrights⟩⟩
      · rintro ⟨⟨hv, hvs⟩, ⟨hleft, hlefts⟩, ⟨hright, hrights⟩⟩
        exact ⟨⟨hv, hleft, hright⟩, hvs, hlefts, hrights⟩

/-- Entries are related key by key and value by value. -/
theorem forall₂_alikeEntry_iff {R : Value → Value → Prop} {entries others : Dict} :
    List.Forall₂ (AlikeEntry R) entries others ↔
      List.Forall₂ R (entries.map Prod.fst) (others.map Prod.fst) ∧
      List.Forall₂ R (entries.map Prod.snd) (others.map Prod.snd) := by
  induction entries generalizing others with
  | nil => cases others <;> simp
  | cons entry rest ih =>
    cases others with
    | nil => simp
    | cons other others =>
      simp only [List.map_cons, List.forall₂_cons, ih]
      constructor
      · rintro ⟨⟨hkey, hvalue⟩, hkeys, hvalues⟩
        exact ⟨⟨hkey, hkeys⟩, ⟨hvalue, hvalues⟩⟩
      · rintro ⟨⟨hkey, hkeys⟩, ⟨hvalue, hvalues⟩⟩
        exact ⟨⟨hkey, hvalue⟩, hkeys, hvalues⟩

/-- What holds of all keys and of all values holds of all entries. -/
theorem forall_mem_entries_iff {P : Value → Prop} {entries : Dict} :
    (∀ entry ∈ entries, P entry.1 ∧ P entry.2) ↔
      (∀ key ∈ entries.map Prod.fst, P key) ∧ ∀ value ∈ entries.map Prod.snd, P value := by
  rw [List.forall_mem_map, List.forall_mem_map, ← forall₂_and]

/-! ### Environments -/

namespace InterchangeEnv

variable {e e' : Env Value}

/-- A tame environment can be exchanged for itself. -/
theorem refl (h : e.Tame) : InterchangeEnv e e :=
  ⟨fun _ => rel_refl fun v _ => .refl v, h, h⟩

/-- Look-ups in both find interchangeable values. -/
theorem rel_lookup (h : InterchangeEnv e e') (name : String) :
    Option.Rel Interchange (e.lookup name) (e'.lookup name) :=
  rel_imp_of_found (h.lookup name) fun v w hl hr hvw =>
    ⟨hvw, h.left.values v (Env.mem_values_of_lookup hl),
      h.right.values w (Env.mem_values_of_lookup hr)⟩

/-- Defining exchangeable values under one name keeps environments exchangeable. -/
theorem define (h : InterchangeEnv e e') (name : String) {v w : Value} (hv : Interchange v w) :
    InterchangeEnv (e.define name v) (e'.define name w) := by
  refine ⟨?_, h.left.define name hv.left, h.right.define name hv.right⟩
  intro other
  rw [Env.lookup_define, Env.lookup_define]
  split
  · exact .some hv.related
  · exact h.lookup other

/-- Environments that bind the same names to the same values can take the place of both. -/
theorem congr {f f' : Env Value} (h : InterchangeEnv e e') (hf : f.Tame) (hf' : f'.Tame)
    (hsame : ∀ name, f.lookup name = e.lookup name)
    (hsame' : ∀ name, f'.lookup name = e'.lookup name) : InterchangeEnv f f' := by
  refine ⟨fun name => ?_, hf, hf'⟩
  rw [hsame, hsame']
  exact h.lookup name

/-- Exchangeable environments freeze to exchangeable scopes. -/
theorem freeze (h : InterchangeEnv e e') : InterchangeChain e.freeze e'.freeze :=
  h.congr h.left.freeze h.right.freeze (Env.lookup_freeze h.left.distinct)
    (Env.lookup_freeze h.right.distinct)

/-- Exchangeable environments thaw to exchangeable ones. -/
theorem thaw (h : InterchangeEnv e e') : InterchangeEnv (.mutable e.thaw) (.mutable e'.thaw) :=
  h.congr h.left.thaw h.right.thaw (Env.lookup_thaw h.left.distinct)
    (Env.lookup_thaw h.right.distinct)

/-- Both bind as many names. -/
theorem size_eq (h : InterchangeEnv e e') : e.size = e'.size := by
  have hnames : ∀ name, name ∈ e.bindings.map Prod.fst ↔ name ∈ e'.bindings.map Prod.fst := by
    intro name
    rw [Env.mem_names_bindings_iff h.left.distinct, Env.mem_names_bindings_iff h.right.distinct]
    exact rel_cases (h.lookup name) (fun _ _ _ => Iff.rfl) Iff.rfl
  have hperm := (List.perm_ext_iff_of_nodup (Env.nodup_names_bindings h.left.distinct)
    (Env.nodup_names_bindings h.right.distinct)).2 hnames
  simpa [Env.size] using hperm.length_eq

end InterchangeEnv

/-! ### Equality -/

namespace Value

variable {R : Value → Value → Prop}

/-- Two values are told from two others by equality no further than related ones are. -/
def BeqRespects (R : Value → Value → Prop) (v : Value) : Prop :=
  ∀ v' w w', R v v' → R w w' → beq v w = beq v' w'

/-- Equality tells related lists apart alike if it does so for their elements. -/
theorem beqAll_congr {as as' bs bs' : List Value} (has : List.Forall₂ R as as')
    (hbs : List.Forall₂ R bs bs') (h : ∀ a ∈ as, BeqRespects R a) :
    beqAll as bs = beqAll as' bs' := by
  induction has generalizing bs bs' with
  | nil => cases hbs <;> simp [beqAll]
  | cons ha _ ih =>
    obtain ⟨hhead, hrest⟩ := List.forall_mem_cons.1 h
    cases hbs with
    | nil => simp [beqAll]
    | cons hb hbs => rw [beqAll, beqAll, hhead _ _ _ ha hb, ih hbs hrest]

/-- Equality tells related closures apart alike if it does so for their bodies. -/
theorem beqClosure_congr {Q : Chain Value → Chain Value → Prop} {f f' g g' : Closure Value}
    (hf : AlikeClosure R Q f f') (hg : AlikeClosure R Q g g')
    (h : ∀ a ∈ f.bodies, BeqRespects R a) : beqClosure f g = beqClosure f' g' := by
  obtain ⟨serial, params, bodies, scope⟩ := f
  obtain ⟨serial', params', bodies', scope'⟩ := f'
  have hparams : params = params' := hf.params
  have hbodies : beqAll bodies g.bodies = beqAll bodies' g'.bodies :=
    beqAll_congr hf.bodies hg.bodies h
  rw [beqClosure, beqClosure, hparams, hg.params, hbodies]

/-- A test that treats related elements alike finds one in both lists or in neither. -/
theorem any_congr_of_forall₂ {α : Type} {Q : α → α → Prop} {as as' : List α} {p p' : α → Bool}
    (h : List.Forall₂ Q as as') (hp : ∀ a a', Q a a' → p a = p' a') : as.any p = as'.any p' := by
  induction h with
  | nil => rfl
  | cons ha _ ih => rw [List.any_cons, List.any_cons, hp _ _ ha, ih]

/-- Equality tells related dictionaries apart alike if it does so for their keys and values. -/
theorem beqEntries_congr {as as' bs bs' : Dict} (has : List.Forall₂ (AlikeEntry R) as as')
    (hbs : List.Forall₂ (AlikeEntry R) bs bs')
    (h : ∀ entry ∈ as, BeqRespects R entry.1 ∧ BeqRespects R entry.2) :
    beqEntries as bs = beqEntries as' bs' := by
  induction has with
  | nil => simp [beqEntries]
  | cons ha _ ih =>
    obtain ⟨⟨hkey, hvalue⟩, hrest⟩ := List.forall_mem_cons.1 h
    rw [beqEntries, beqEntries, ih hrest]
    congr 1
    refine any_congr_of_forall₂ hbs fun b b' hb => ?_
    rw [hkey _ _ _ ha.key hb.key, hvalue _ _ _ ha.value hb.value]

/-- **Environments agree with another one** name by name. -/
theorem all_agreesIn_iff {e : Env Value} (he : e.Distinct) (other : Env Value) :
    e.bindings.all (agreesIn other) = true ↔
      ∀ name v, e.lookup name = some v → (other.lookup name).any (beq v) = true := by
  rw [List.all_eq_true]
  constructor
  · intro h name v hfind
    rw [← Env.lookup_bindings e name he, lookup_eq_some_iff (Env.nodup_names_bindings he)] at hfind
    exact h (name, v) hfind
  · rintro h ⟨name, v⟩ hmem
    refine h name v ?_
    rw [← Env.lookup_bindings e name he, lookup_eq_some_iff (Env.nodup_names_bindings he)]
    exact hmem

/-- Equality tells exchangeable environments apart alike if it does so for their values. -/
theorem beqEnv_congr {e e' o o' : Env Value} (he : InterchangeEnv e e')
    (ho : InterchangeEnv o o') (h : ∀ v ∈ e.values, BeqRespects Interchange v) :
    beqEnv e o = beqEnv e' o' := by
  have hall : e.bindings.all (agreesIn o) = e'.bindings.all (agreesIn o') := by
    rw [Bool.eq_iff_iff, all_agreesIn_iff he.left.distinct, all_agreesIn_iff he.right.distinct]
    refine forall_congr' fun name => ?_
    have hvalues : ∀ v, e.lookup name = some v → BeqRespects Interchange v :=
      fun v hfind => h v (Env.mem_values_of_lookup hfind)
    have hfound := he.rel_lookup name
    have hother := ho.rel_lookup name
    generalize e.lookup name = found at hvalues hfound ⊢
    generalize e'.lookup name = found' at hfound ⊢
    generalize o.lookup name = other at hother ⊢
    generalize o'.lookup name = other' at hother ⊢
    cases hfound with
    | none => simp
    | some hv =>
      cases hother with
      | none => simp
      | some hw => simp [hvalues _ rfl _ _ _ hv hw]
  rw [beqEnv_eq_all he.left.distinct, beqEnv_eq_all he.right.distinct, hall, he.size_eq, ho.size_eq]

end Value

/-! ### Interchangeable values, kind by kind -/

namespace Interchange

/-- Closures with interchangeable bodies whose scopes make the same finite map. -/
theorem alikeClosure {f g : Closure Value} (params : f.params = g.params)
    (bodies : List.Forall₂ Related f.bodies g.bodies)
    (scope : ∀ name, Option.Rel Related (f.scope.lookup name) (g.scope.lookup name))
    (hleft : Value.EverywhereInClosure Value.isTame f)
    (hright : Value.EverywhereInClosure Value.isTame g) :
    AlikeClosure Interchange InterchangeChain f g :=
  ⟨params, forall₂_interchange_iff.2 ⟨bodies, hleft.1, hright.1⟩,
    ⟨scope, ⟨trivial, hleft.2⟩, ⟨trivial, hright.2⟩⟩⟩

/-- **Interchangeable values are of one kind and have interchangeable parts.** -/
theorem alike {v w : Value} (h : Interchange v w) :
    Alike Interchange InterchangeChain InterchangeEnv InterchangeState v w := by
  obtain ⟨hrelated, hleft, hright⟩ := h
  cases hrelated with
  | atom name => exact .atom hleft.here
  | list hitems =>
    exact .list (forall₂_interchange_iff.2
      ⟨hitems, (Value.everywhere_list.1 hleft).2, (Value.everywhere_list.1 hright).2⟩)
  | vector hitems =>
    exact .vector (forall₂_interchange_iff.2
      ⟨hitems, (Value.everywhere_vector.1 hleft).2, (Value.everywhere_vector.1 hright).2⟩)
  | dict keys values =>
    obtain ⟨hkeys, hvalues⟩ := forall_mem_entries_iff.1 (Value.everywhere_dict.1 hleft).2
    obtain ⟨hkeys', hvalues'⟩ := forall_mem_entries_iff.1 (Value.everywhere_dict.1 hright).2
    exact .dict (forall₂_alikeEntry_iff.2 ⟨forall₂_interchange_iff.2 ⟨keys, hkeys, hkeys'⟩,
      forall₂_interchange_iff.2 ⟨values, hvalues, hvalues'⟩⟩)
  | lambda params bodies scope =>
    exact .lambda (alikeClosure params bodies scope (Value.everywhere_lambda.1 hleft).2
      (Value.everywhere_lambda.1 hright).2)
  | lambdaRec params bodies scope =>
    exact .lambdaRec (alikeClosure params bodies scope (Value.everywhere_lambdaRec.1 hleft).2
      (Value.everywhere_lambdaRec.1 hright).2)
  | env hlookup =>
    obtain ⟨hdistinct, hvalues⟩ := Value.everywhere_env.1 hleft
    obtain ⟨hdistinct', hvalues'⟩ := Value.everywhere_env.1 hright
    exact .env ⟨hlookup, ⟨hdistinct, hvalues⟩, ⟨hdistinct', hvalues'⟩⟩
  | state hlookup hrefs =>
    obtain ⟨hdistinct, hvalues, hslots⟩ := Value.everywhere_state.1 hleft
    obtain ⟨hdistinct', hvalues', hslots'⟩ := Value.everywhere_state.1 hright
    exact .state ⟨⟨hlookup, ⟨hdistinct, hvalues⟩, ⟨hdistinct', hvalues'⟩⟩,
      forall₂_interchange_iff.2 ⟨hrefs, hslots, hslots'⟩⟩
  | _ => constructor

/-- What closures with interchangeable parts have in common. -/
theorem closure_parts {f g : Closure Value} (h : AlikeClosure Interchange InterchangeChain f g) :
    List.Forall₂ Related f.bodies g.bodies ∧
      (∀ name, Option.Rel Related (f.scope.lookup name) (g.scope.lookup name)) ∧
      Value.EverywhereInClosure Value.isTame f ∧ Value.EverywhereInClosure Value.isTame g := by
  obtain ⟨hbodies, hleft, hright⟩ := forall₂_interchange_iff.1 h.bodies
  exact ⟨hbodies, h.scope.lookup, ⟨hleft, h.scope.left.values⟩, ⟨hright, h.scope.right.values⟩⟩

/-- **Values of one kind with interchangeable parts are interchangeable.** -/
theorem of_alike {v w : Value}
    (h : Alike Interchange InterchangeChain InterchangeEnv InterchangeState v w) :
    Interchange v w := by
  cases h with
  | atom hname => exact .refl (Value.everywhere_atom.2 hname)
  | list hitems =>
    obtain ⟨hrelated, hleft, hright⟩ := forall₂_interchange_iff.1 hitems
    exact ⟨.list hrelated, Value.everywhere_list.2 ⟨trivial, hleft⟩,
      Value.everywhere_list.2 ⟨trivial, hright⟩⟩
  | vector hitems =>
    obtain ⟨hrelated, hleft, hright⟩ := forall₂_interchange_iff.1 hitems
    exact ⟨.vector hrelated, Value.everywhere_vector.2 ⟨trivial, hleft⟩,
      Value.everywhere_vector.2 ⟨trivial, hright⟩⟩
  | dict hentries =>
    obtain ⟨hkeys, hvalues⟩ := forall₂_alikeEntry_iff.1 hentries
    obtain ⟨hrelated, hleft, hright⟩ := forall₂_interchange_iff.1 hkeys
    obtain ⟨hrelated', hleft', hright'⟩ := forall₂_interchange_iff.1 hvalues
    exact ⟨.dict hrelated hrelated',
      Value.everywhere_dict.2 ⟨trivial, forall_mem_entries_iff.2 ⟨hleft, hleft'⟩⟩,
      Value.everywhere_dict.2 ⟨trivial, forall_mem_entries_iff.2 ⟨hright, hright'⟩⟩⟩
  | lambda hfn =>
    obtain ⟨hbodies, hscope, hleft, hright⟩ := closure_parts hfn
    exact ⟨.lambda hfn.params hbodies hscope, Value.everywhere_lambda.2 ⟨trivial, hleft⟩,
      Value.everywhere_lambda.2 ⟨trivial, hright⟩⟩
  | lambdaRec hfn =>
    obtain ⟨hbodies, hscope, hleft, hright⟩ := closure_parts hfn
    exact ⟨.lambdaRec hfn.params hbodies hscope, Value.everywhere_lambdaRec.2 ⟨trivial, hleft⟩,
      Value.everywhere_lambdaRec.2 ⟨trivial, hright⟩⟩
  | env he =>
    exact ⟨.env he.lookup, Value.everywhere_env.2 ⟨he.left.distinct, he.left.values⟩,
      Value.everywhere_env.2 ⟨he.right.distinct, he.right.values⟩⟩
  | state hs =>
    obtain ⟨⟨hlookup, hleft, hright⟩, hrefs⟩ := hs
    obtain ⟨hrelated, hslots, hslots'⟩ := forall₂_interchange_iff.1 hrefs
    exact ⟨.state hlookup hrelated,
      Value.everywhere_state.2 ⟨hleft.distinct, hleft.values, hslots⟩,
      Value.everywhere_state.2 ⟨hright.distinct, hright.values, hslots'⟩⟩
  | keyword name => exact .refl (Value.everywhere_keyword.2 trivial)
  | string text => exact .refl (Value.everywhere_string.2 trivial)
  | number n => exact .refl (Value.everywhere_number.2 trivial)
  | bool b => exact .refl (Value.everywhere_bool.2 trivial)
  | null => exact .refl (Value.everywhere_null.2 trivial)
  | primFn name => exact .refl (Value.everywhere_primFn.2 trivial)
  | ref index => exact .refl (Value.everywhere_ref.2 trivial)

/-- **Equality does not tell interchangeable values apart.** -/
theorem beqRespects (v : Value) : Value.BeqRespects Interchange v := by
  induction v using Value.inductionOnParts with
  | step v ih =>
  intro v' w w' hv hw
  have hclosure : ∀ {f f' g g' : Closure Value}, v.parts = Value.closureParts f →
      AlikeClosure Interchange InterchangeChain f f' →
      AlikeClosure Interchange InterchangeChain g g' →
      Value.beqClosure f g = Value.beqClosure f' g' :=
    fun hparts hf hg => Value.beqClosure_congr hf hg fun a ha =>
      ih a (hparts ▸ List.mem_append_left _ ha)
  -- Equality is false of values of two kinds, before and after.
  cases hv.alike with
  | list hitems =>
    cases hw.alike with
    | list hothers => simpa [Value.beq] using Value.beqAll_congr hitems hothers ih
    | _ => simp [Value.beq]
  | vector hitems =>
    cases hw.alike with
    | vector hothers => simpa [Value.beq] using Value.beqAll_congr hitems hothers ih
    | _ => simp [Value.beq]
  | @dict entries _ hentries =>
    cases hw.alike with
    | dict hothers =>
      have hparts : ∀ entry ∈ entries, Value.BeqRespects Interchange entry.1 ∧
          Value.BeqRespects Interchange entry.2 := fun entry hmem =>
        ⟨ih _ (Value.mem_entryParts.2 ⟨entry, hmem, Or.inl rfl⟩),
          ih _ (Value.mem_entryParts.2 ⟨entry, hmem, Or.inr rfl⟩)⟩
      simp [Value.beq, Value.beqEntries_congr hentries hothers hparts, hentries.length_eq,
        hothers.length_eq]
    | _ => simp [Value.beq]
  | lambda hfn =>
    cases hw.alike with
    | lambda hgn => simpa [Value.beq] using hclosure rfl hfn hgn
    | _ => simp [Value.beq]
  | lambdaRec hfn =>
    cases hw.alike with
    | lambdaRec hgn => simp [Value.beq, hclosure rfl hfn hgn]
    | _ => simp [Value.beq]
  | env he =>
    cases hw.alike with
    | env ho => simpa [Value.beq] using Value.beqEnv_congr he ho ih
    | _ => simp [Value.beq]
  | @state s s' hs =>
    cases hw.alike with
    | @state o o' ho =>
      have henv : Value.beqEnv s.env o.env = Value.beqEnv s'.env o'.env :=
        Value.beqEnv_congr hs.env ho.env fun a ha => ih a (List.mem_append_left _ ha)
      have hrefs : Value.beqAll s.refs o.refs = Value.beqAll s'.refs o'.refs :=
        Value.beqAll_congr hs.refs ho.refs fun a ha => ih a (List.mem_append_right _ ha)
      obtain ⟨e, refs⟩ := s
      obtain ⟨e', refs'⟩ := s'
      rw [Value.beq, Value.beq, Value.beqState, Value.beqState]
      exact congrArg₂ (· && ·) henv hrefs
    | _ => simp [Value.beq]
  | _ => cases hw.alike <;> simp [Value.beq]

/-- **Equality does not tell exchangeable values apart.** -/
theorem beq_eq {v v' w w' : Value} (hv : Interchange v v') (hw : Interchange w w') :
    (v == w) = (v' == w') := by
  rw [Value.beq_eq, Value.beq_eq]
  exact beqRespects v v' w w' hv hw

end Interchange

/-! ### Errors -/

/-- Two errors that are identical but for the values in them, which are related. -/
inductive RelatedError : Error → Error → Prop
  | plain {e : Error} (h : e.values = []) : RelatedError e e
  | notAFunction {v w : Value} (h : Related v w) : RelatedError (.notAFunction v) (.notAFunction w)
  | invalidDeclaration (fault : MetadataFault) {v w : Value} (h : Related v w) :
    RelatedError (.invalidDeclaration fault v) (.invalidDeclaration fault w)
  | missingKey {v w : Value} (h : Related v w) :
    RelatedError (.failed (.missingKey v)) (.failed (.missingKey w))
  | thrown (label : String) {v w : Value} (h : Related v w) :
    RelatedError (.thrown label v) (.thrown label w)

/-- Related errors have the same kind. -/
theorem RelatedError.kind_eq {e e' : Error} (h : RelatedError e e') : e.kind = e'.kind := by
  cases h <;> rfl

/-- Related errors have the same label. -/
theorem RelatedError.label_eq {e e' : Error} (h : RelatedError e e') : e.label = e'.label := by
  cases h <;> rfl

/-- Interchangeable values as a simulation. -/
def Simulation.interchange : Simulation where
  value := Interchange
  chain := InterchangeChain
  env := InterchangeEnv
  variant _ _ := True
  state := InterchangeState
  error := RelatedError
  alike := Interchange.alike
  of_alike := Interchange.of_alike
  beq_eq := Interchange.beq_eq
  chain_nil := .refl ⟨trivial, List.forall_mem_nil _⟩
  chain_cons name _ _ h hv := InterchangeEnv.define h name hv
  env_chain h := h
  variant_refl _ := trivial
  lookup := InterchangeEnv.rel_lookup
  define name _ _ h _ hv := h.define name hv
  freeze := InterchangeEnv.freeze
  thaw := InterchangeEnv.thaw
  state_env := InterchangeState.env
  state_variant _ := trivial
  state_refs := InterchangeState.refs
  snapshot h hrefs := ⟨h, hrefs⟩
  continued _ _ _ he hrefs := ⟨he, hrefs⟩
  plain := .plain
  notAFunction h := .notAFunction h.related
  invalidDeclaration fault _ _ h := .invalidDeclaration fault h.related
  missingKey h := .missingKey h.related
  thrown label _ _ h := .thrown label h.related

end CapLisp
