/-
# Similar values

Two values are similar if they have the same view and are plain.  Plain leaves
out what could tell similar values apart in a run:

| left out | because |
| --- | --- |
| the atom `def-rec` | the form asks which closures are held elsewhere |
| under `visible`, a mutable environment with a name twice | a look-up finds one of them only |
| under `visible`, a state with a mutable environment | a persistent one orders names otherwise |

Plainness is a limit that evaluation keeps (`Invariant.plainness`).  Similar
values are of one kind and have similar parts (`Similar.matched`); environments
stay similar through definitions, snapshots and copies.
-/

import CapLisp.Proofs.Invariant.Evaluator
import CapLisp.Proofs.View.Equality

namespace CapLisp

/-- Tells that nothing in the value itself shows more than its view. -/
def Value.isPlain (d : Detail) : Value → Prop
  | .atom name => name ≠ SpecialForm.defineRec.name
  | .env e => d = .visible → e.Distinct
  | .state s => d = .visible → s.env.isImmutable = true
  | _ => True

/-- A value that shows no more than its view, at any depth. -/
def Value.Plain (d : Detail) (v : Value) : Prop := v.Everywhere (Value.isPlain d)

/-- An environment that shows no more than its view. -/
structure Env.Plain (d : Detail) (e : Env Value) : Prop where
  distinct : d = .visible → e.Distinct
  values : ∀ v ∈ e.values, v.Plain d

namespace Env.Plain

variable {d : Detail} {e : Env Value}

/-- A definition of a plain value keeps an environment plain. -/
theorem define (h : e.Plain d) (name : String) {v : Value} (hv : v.Plain d) :
    (e.define name v).Plain d := by
  refine ⟨fun hd => Env.distinct_define (h.distinct hd) name v, ?_⟩
  intro u hu
  rcases Env.mem_values_of_mem_define hu with rfl | hu
  · exact hv
  · exact h.values u hu

/-- A thawed environment is plain. -/
theorem thaw (h : e.Plain d) : (Env.mutable e.thaw).Plain d := by
  refine ⟨fun hd => Env.distinct_thaw (h.distinct hd), ?_⟩
  intro u hu
  exact h.values u (Env.mem_values_of_mem_thaw hu)

end Env.Plain

namespace Invariant

/-- The limit that plainness sets. -/
def plainness (d : Detail) (table : Table) : Invariant table where
  value _ v := v.isPlain d
  env e := d = .visible → e.Distinct
  breach _ := True
  mono _ h := h
  detached _ _ _ _ _ h := h
  data {_ v} hd := by cases v <;> trivial
  lambda _ _ _ := trivial
  lambdaRec _ := trivial
  quote := by simp [Value.isPlain, SpecialForm.name]
  primFn _ := trivial
  ref _ := trivial
  dict_nil := trivial
  dict_insert _ := trivial
  env_value h := h
  state_env h := fun hd => Env.distinct_of_isImmutable (h hd)
  frozen := fun _ => rfl
  continued definitions h := fun hd => (Env.isImmutable_defineAll definitions _).trans (h hd)
  persistent := fun _ => trivial
  define h := fun hd => Env.distinct_define (h hd) _ _
  thaw h := fun hd => Env.distinct_thaw (h hd)
  unknownPrimitive _ _ := trivial
  danglingReference _ _ := trivial

end Invariant

namespace Value

/-- What is plain is regular. -/
theorem isRegular_of_isPlain {d : Detail} {v : Value} (h : v.isPlain d) : v.isRegular d := by
  cases v with
  | env e => exact h
  | state s => exact fun hd => Env.distinct_of_isImmutable (h hd)
  | _ => trivial

/-- What is plain everywhere is regular everywhere. -/
theorem Plain.regular {d : Detail} {v : Value} (h : v.Plain d) : v.Regular d :=
  Everywhere.mono (fun _ => isRegular_of_isPlain) h

end Value

variable {d : Detail}

/-- Two plain values with the same view. -/
structure Similar (d : Detail) (v w : Value) : Prop where
  view : v.view d = w.view d
  left : v.Plain d
  right : w.Plain d

/-- Two entries with similar keys and values. -/
structure SimilarEntry (d : Detail) (a b : Value × Value) : Prop where
  key : Similar d a.1 b.1
  value : Similar d a.2 b.2

/-- Two chains of plain values with the same view. -/
structure SimilarChain (d : Detail) (frames others : Chain Value) : Prop where
  view : d.chain (mapFrames (Value.view d) frames) = d.chain (mapFrames (Value.view d) others)
  left : ∀ v ∈ frames.map Prod.snd, v.Plain d
  right : ∀ v ∈ others.map Prod.snd, v.Plain d

/-- Two closures with the same parameters, similar bodies and similar scopes. -/
structure SimilarClosure (d : Detail) (f g : Closure Value) : Prop where
  params : f.params = g.params
  bodies : List.Forall₂ (Similar d) f.bodies g.bodies
  scope : SimilarChain d f.scope g.scope

/-- Two plain environments with the same view. -/
structure SimilarEnv (d : Detail) (e e' : Env Value) : Prop where
  view : Value.viewEnv d e = Value.viewEnv d e'
  left : e.Plain d
  right : e'.Plain d

namespace Similar

/-- A plain value is similar to itself. -/
theorem refl {v : Value} (h : v.Plain d) : Similar d v v := ⟨rfl, h, h⟩

/-- Similar values have the same kind. -/
theorem kind_eq {v w : Value} (h : Similar d v w) : v.kind = w.kind := by
  rw [← Value.kind_view d v, h.view, Value.kind_view]

/-- **Equality does not tell similar values apart.** -/
theorem beq_eq {v v' w w' : Value} (h : Similar d v v') (hw : Similar d w w') :
    (v == w) = (v' == w') := by
  rw [Value.beq_eq, Value.beq_eq, ← Value.beq_view h.left.regular hw.left.regular, h.view, hw.view,
    Value.beq_view h.right.regular hw.right.regular]

end Similar

/-! ### Lists of similar values -/

/-- Values are similar one by one exactly if they are plain and look the same. -/
theorem forall₂_similar_iff {vs ws : List Value} :
    List.Forall₂ (Similar d) vs ws ↔ vs.map (Value.view d) = ws.map (Value.view d) ∧
      (∀ v ∈ vs, v.Plain d) ∧ ∀ w ∈ ws, w.Plain d := by
  induction vs generalizing ws with
  | nil => cases ws <;> simp
  | cons v vs ih =>
    cases ws with
    | nil => simp
    | cons w ws =>
      rw [List.forall₂_cons, ih, List.map_cons, List.map_cons, List.cons.injEq,
        List.forall_mem_cons, List.forall_mem_cons]
      constructor
      · rintro ⟨h, hview, hleft, hright⟩
        exact ⟨⟨h.view, hview⟩, ⟨h.left, hleft⟩, ⟨h.right, hright⟩⟩
      · rintro ⟨⟨hv, hview⟩, hleft, hright⟩
        exact ⟨⟨hv, hleft.1, hright.1⟩, hview, hleft.2, hright.2⟩

/-- Entries are similar one by one exactly if they are plain and look the same. -/
theorem forall₂_similarEntry_iff {entries others : Dict} :
    List.Forall₂ (SimilarEntry d) entries others ↔
      entries.map (Value.viewEntry d) = others.map (Value.viewEntry d) ∧
      (∀ entry ∈ entries, entry.1.Plain d ∧ entry.2.Plain d) ∧
      ∀ entry ∈ others, entry.1.Plain d ∧ entry.2.Plain d := by
  induction entries generalizing others with
  | nil => cases others <;> simp
  | cons entry rest ih =>
    cases others with
    | nil => simp
    | cons other others =>
      rw [List.forall₂_cons, ih, List.map_cons, List.map_cons, List.cons.injEq,
        List.forall_mem_cons, List.forall_mem_cons, Value.viewEntry, Value.viewEntry,
        Prod.mk.injEq]
      constructor
      · rintro ⟨h, hview, hleft, hright⟩
        exact ⟨⟨⟨h.key.view, h.value.view⟩, hview⟩, ⟨⟨h.key.left, h.value.left⟩, hleft⟩,
          ⟨⟨h.key.right, h.value.right⟩, hright⟩⟩
      · rintro ⟨⟨⟨hkey, hvalue⟩, hview⟩, hleft, hright⟩
        exact ⟨⟨⟨hkey, hleft.1.1, hright.1.1⟩, ⟨hvalue, hleft.1.2, hright.1.2⟩⟩, hview,
          hleft.2, hright.2⟩

/-! ### Similar chains and environments -/

namespace SimilarChain

variable {frames others : Chain Value}

/-- A chain is as good as the persistent environment that it makes. -/
theorem env (h : SimilarChain d frames others) :
    SimilarEnv d (.persistent frames) (.persistent others) := by
  refine ⟨?_, ⟨fun _ => trivial, h.left⟩, ⟨fun _ => trivial, h.right⟩⟩
  rw [Value.viewEnv_eq, Value.viewEnv_eq]
  cases d with
  | full => exact congrArg Env.persistent h.view
  | visible => exact congrArg Env.persistent h.view

/-- Similar chains stay similar with a frame in front. -/
theorem cons (h : SimilarChain d frames others) (name : String) {v w : Value}
    (hv : Similar d v w) : SimilarChain d ((name, v) :: frames) ((name, w) :: others) := by
  refine ⟨?_, List.forall_mem_cons.2 ⟨hv.left, h.left⟩,
    List.forall_mem_cons.2 ⟨hv.right, h.right⟩⟩
  rw [mapFrames_cons, mapFrames_cons, hv.view]
  have hview := h.view
  cases d with
  | full => exact congrArg _ hview
  | visible =>
    rw [Detail.chain, Detail.chain, Chain.newest_cons_eq_filter, Chain.newest_cons_eq_filter]
    exact congrArg (fun frames => _ :: List.filter _ frames) hview

end SimilarChain

namespace SimilarEnv

variable {e e' : Env Value}

/-- A plain environment is similar to itself. -/
theorem refl (h : e.Plain d) : SimilarEnv d e e := ⟨rfl, h, h⟩

/-- Similar environments bind the same names to similar values, in the same order. -/
theorem bindings (h : SimilarEnv d e e') :
    mapFrames (Value.view d) e.bindings = mapFrames (Value.view d) e'.bindings := by
  have hview := congrArg Env.bindings h.view
  rw [Value.viewEnv_eq, Value.viewEnv_eq,
    Detail.bindings_env fun hd => Env.distinct_map _ (h.left.distinct hd),
    Detail.bindings_env fun hd => Env.distinct_map _ (h.right.distinct hd)] at hview
  rw [Env.mapFrames_bindings, Env.mapFrames_bindings, hview]

/-- Similar environments give similar values for a name, or both give none. -/
theorem lookup (h : SimilarEnv d e e') (name : String) :
    Option.Rel (Similar d) (e.lookup name) (e'.lookup name) := by
  have hview := congrArg (Env.lookup name) h.view
  rw [Value.viewEnv_eq, Value.viewEnv_eq,
    Detail.lookup_env fun hd => Env.distinct_map _ (h.left.distinct hd),
    Detail.lookup_env fun hd => Env.distinct_map _ (h.right.distinct hd),
    Env.lookup_map, Env.lookup_map] at hview
  cases hl : e.lookup name with
  | none =>
    rw [hl] at hview
    rw [Option.map_eq_none_iff.1 hview.symm]
    exact .none
  | some v =>
    rw [hl] at hview
    obtain ⟨w, hr, hw⟩ := Option.map_eq_some_iff.1 hview.symm
    rw [hr]
    exact .some ⟨hw.symm, h.left.values v (Env.mem_values_of_lookup hl),
      h.right.values w (Env.mem_values_of_lookup hr)⟩

/-- The snapshots of similar environments are similar. -/
theorem freeze (h : SimilarEnv d e e') : SimilarChain d e.freeze e'.freeze := by
  refine ⟨?_, fun v hv => h.left.values v (Env.mem_values_of_mem_freeze hv),
    fun v hv => h.right.values v (Env.mem_values_of_mem_freeze hv)⟩
  have hview := h.view
  rw [Value.viewEnv_eq, Value.viewEnv_eq] at hview
  rw [Env.mapFrames_freeze, Env.mapFrames_freeze]
  cases d with
  | full => exact congrArg Env.freeze hview
  | visible => exact Env.persistent.inj hview

/-- The mutable copies of similar environments are similar. -/
theorem thaw (h : SimilarEnv d e e') : SimilarEnv d (.mutable e.thaw) (.mutable e'.thaw) := by
  refine ⟨?_, h.left.thaw, h.right.thaw⟩
  rw [Value.viewEnv_eq, Value.viewEnv_eq, Env.map, Env.map, e.thaw_eq_bindings,
    e'.thaw_eq_bindings, h.bindings]

end SimilarEnv

/-- Environments of one variant that look alike still do after the same definition. -/
theorem Detail.env_define_congr {α : Type} {e e' : Env α} (h : d.env e = d.env e')
    (hvariant : e.isImmutable = e'.isImmutable) (he : d = .visible → e.Distinct)
    (he' : d = .visible → e'.Distinct) (name : String) (value : α) :
    d.env (e.define name value) = d.env (e'.define name value) := by
  cases d with
  | full => exact congrArg (Env.define name value) h
  | visible =>
    have hframes : Chain.newest [] e.freeze = Chain.newest [] e'.freeze := Env.persistent.inj h
    cases e with
    | persistent frames =>
      cases e' with
      | persistent others =>
        refine congrArg Env.persistent ?_
        show Chain.newest [] ((name, value) :: frames) = Chain.newest [] ((name, value) :: others)
        rw [Chain.newest_cons_eq_filter, Chain.newest_cons_eq_filter]
        exact congrArg (fun frames => _ :: List.filter _ frames) hframes
      | mutable others => cases hvariant
    | mutable bindings =>
      cases e' with
      | persistent others => cases hvariant
      | mutable others =>
        rw [Env.newest_freeze (he rfl), Env.newest_freeze (he' rfl)] at hframes
        have hsame : bindings = others := List.reverse_inj.1 hframes
        rw [hsame]

/-- **Similar environments stay similar** when a name is bound to similar values. -/
theorem SimilarEnv.define {e e' : Env Value} (h : SimilarEnv d e e')
    (hvariant : e.isImmutable = e'.isImmutable) (name : String) {v w : Value}
    (hv : Similar d v w) : SimilarEnv d (e.define name v) (e'.define name w) := by
  refine ⟨?_, h.left.define name hv.left, h.right.define name hv.right⟩
  have hview := h.view
  rw [Value.viewEnv_eq, Value.viewEnv_eq] at hview ⊢
  rw [Env.map_define, Env.map_define, hv.view]
  refine Detail.env_define_congr hview ?_ (fun hd => Env.distinct_map _ (h.left.distinct hd))
    (fun hd => Env.distinct_map _ (h.right.distinct hd)) name _
  rw [Env.isImmutable_map, Env.isImmutable_map, hvariant]

/-- Similar environments that may stand in a state are of one variant. -/
theorem SimilarEnv.variant {e e' : Env Value} (h : SimilarEnv d e e')
    (hplain : d = .visible → e.isImmutable = true)
    (hplain' : d = .visible → e'.isImmutable = true) : e.isImmutable = e'.isImmutable := by
  cases d with
  | full =>
    have hview := congrArg Env.isImmutable h.view
    rwa [Value.viewEnv_eq, Value.viewEnv_eq, Detail.env, Detail.env, Env.isImmutable_map,
      Env.isImmutable_map] at hview
  | visible => exact (hplain rfl).trans (hplain' rfl).symm

/-! ### Similar values, kind by kind -/

namespace Similar

/-- Lists of similar elements are similar. -/
theorem list {vs ws : List Value} (h : List.Forall₂ (Similar d) vs ws) :
    Similar d (.list vs) (.list ws) := by
  obtain ⟨hview, hleft, hright⟩ := forall₂_similar_iff.1 h
  refine ⟨?_, Value.everywhere_list.2 ⟨trivial, hleft⟩, Value.everywhere_list.2 ⟨trivial, hright⟩⟩
  rw [Value.view_list, Value.view_list, hview]

/-- Vectors of similar elements are similar. -/
theorem vector {vs ws : List Value} (h : List.Forall₂ (Similar d) vs ws) :
    Similar d (.vector vs) (.vector ws) := by
  obtain ⟨hview, hleft, hright⟩ := forall₂_similar_iff.1 h
  refine ⟨?_, Value.everywhere_vector.2 ⟨trivial, hleft⟩,
    Value.everywhere_vector.2 ⟨trivial, hright⟩⟩
  rw [Value.view_vector, Value.view_vector, hview]

/-- Dictionaries of similar entries are similar. -/
theorem dict {entries others : Dict} (h : List.Forall₂ (SimilarEntry d) entries others) :
    Similar d (.dict entries) (.dict others) := by
  obtain ⟨hview, hleft, hright⟩ := forall₂_similarEntry_iff.1 h
  refine ⟨?_, Value.everywhere_dict.2 ⟨trivial, hleft⟩, Value.everywhere_dict.2 ⟨trivial, hright⟩⟩
  rw [Value.view_dict, Value.view_dict, hview]

end Similar

namespace SimilarClosure

variable {f g : Closure Value}

/-- Similar closures look the same. -/
theorem view (h : SimilarClosure d f g) : Value.viewClosure d f = Value.viewClosure d g := by
  rw [Value.viewClosure_eq, Value.viewClosure_eq, h.params, h.scope.view,
    (forall₂_similar_iff.1 h.bodies).1]

/-- The first of two similar closures is plain. -/
theorem left (h : SimilarClosure d f g) : Value.EverywhereInClosure (Value.isPlain d) f :=
  ⟨(forall₂_similar_iff.1 h.bodies).2.1, h.scope.left⟩

/-- The second of two similar closures is plain. -/
theorem right (h : SimilarClosure d f g) : Value.EverywhereInClosure (Value.isPlain d) g :=
  ⟨(forall₂_similar_iff.1 h.bodies).2.2, h.scope.right⟩

/-- Plain closures that look the same are similar. -/
theorem of_view (h : Value.viewClosure d f = Value.viewClosure d g)
    (hf : Value.EverywhereInClosure (Value.isPlain d) f)
    (hg : Value.EverywhereInClosure (Value.isPlain d) g) : SimilarClosure d f g := by
  rw [Value.viewClosure_eq, Value.viewClosure_eq, Closure.mk.injEq] at h
  obtain ⟨_, hparams, hbodies, hscope⟩ := h
  exact ⟨hparams, forall₂_similar_iff.2 ⟨hbodies, hf.1, hg.1⟩, hscope, hf.2, hg.2⟩

end SimilarClosure

namespace Similar

/-- Similar closures are similar as values. -/
theorem lambda {f g : Closure Value} (h : SimilarClosure d f g) :
    Similar d (.lambda f) (.lambda g) := by
  refine ⟨?_, Value.everywhere_lambda.2 ⟨trivial, h.left⟩,
    Value.everywhere_lambda.2 ⟨trivial, h.right⟩⟩
  rw [Value.view_lambda, Value.view_lambda, h.view]

/-- Similar closures are similar as recursive ones of one name. -/
theorem lambdaRec {name : String} {f g : Closure Value} (h : SimilarClosure d f g) :
    Similar d (.lambdaRec name f) (.lambdaRec name g) := by
  refine ⟨?_, Value.everywhere_lambdaRec.2 ⟨trivial, h.left⟩,
    Value.everywhere_lambdaRec.2 ⟨trivial, h.right⟩⟩
  rw [Value.view_lambdaRec, Value.view_lambdaRec, h.view]

/-- Similar environments are similar as values. -/
theorem env {e e' : Env Value} (h : SimilarEnv d e e') : Similar d (.env e) (.env e') := by
  refine ⟨?_, Value.everywhere_env.2 ⟨h.left.distinct, h.left.values⟩,
    Value.everywhere_env.2 ⟨h.right.distinct, h.right.values⟩⟩
  rw [Value.view_env, Value.view_env, h.view]

/-- States are similar if their environments and slots are, in environments of
one variant that may stand in a state. -/
theorem state {s s' : State Value} (henv : SimilarEnv d s.env s'.env)
    (hrefs : List.Forall₂ (Similar d) s.refs s'.refs)
    (hvariant : s.env.isImmutable = s'.env.isImmutable)
    (hplain : d = .visible → s.env.isImmutable = true) : Similar d (.state s) (.state s') := by
  obtain ⟨hview, hleft, hright⟩ := forall₂_similar_iff.1 hrefs
  have hplain' : d = .visible → s'.env.isImmutable = true :=
    fun hd => hvariant.symm.trans (hplain hd)
  refine ⟨?_, Value.everywhere_state.2 ⟨hplain, henv.left.values, hleft⟩,
    Value.everywhere_state.2 ⟨hplain', henv.right.values, hright⟩⟩
  rw [Value.view_state, Value.view_state, Value.viewState_eq, Value.viewState_eq, henv.view, hview]

end Similar

/-- Similar values kind by kind. -/
inductive Matched (d : Detail) : Value → Value → Prop
  | atom {name : String} (h : name ≠ SpecialForm.defineRec.name) :
    Matched d (.atom name) (.atom name)
  | keyword (name : String) : Matched d (.keyword name) (.keyword name)
  | string (text : String) : Matched d (.string text) (.string text)
  | number (n : Int64) : Matched d (.number n) (.number n)
  | bool (b : Bool) : Matched d (.bool b) (.bool b)
  | null : Matched d .null .null
  | list {vs ws : List Value} (h : List.Forall₂ (Similar d) vs ws) :
    Matched d (.list vs) (.list ws)
  | vector {vs ws : List Value} (h : List.Forall₂ (Similar d) vs ws) :
    Matched d (.vector vs) (.vector ws)
  | dict {entries others : Dict} (h : List.Forall₂ (SimilarEntry d) entries others) :
    Matched d (.dict entries) (.dict others)
  | lambda {f g : Closure Value} (h : SimilarClosure d f g) : Matched d (.lambda f) (.lambda g)
  | lambdaRec {name : String} {f g : Closure Value} (h : SimilarClosure d f g) :
    Matched d (.lambdaRec name f) (.lambdaRec name g)
  | primFn (name : String) : Matched d (.primFn name) (.primFn name)
  | ref (index : UInt64) : Matched d (.ref index) (.ref index)
  | env {e e' : Env Value} (h : SimilarEnv d e e') : Matched d (.env e) (.env e')
  | state {s s' : State Value} (henv : SimilarEnv d s.env s'.env)
    (hrefs : List.Forall₂ (Similar d) s.refs s'.refs)
    (hvariant : s.env.isImmutable = s'.env.isImmutable)
    (hplain : d = .visible → s.env.isImmutable = true) : Matched d (.state s) (.state s')

/-- **Similar values are of one kind and have similar parts.** -/
theorem Similar.matched {v w : Value} (h : Similar d v w) : Matched d v w := by
  obtain ⟨hview, hleft, hright⟩ := h
  cases v with
  | atom name =>
    cases w <;> simp at hview
    subst hview
    exact .atom hleft.here
  | list vs =>
    cases w <;> simp at hview
    exact .list (forall₂_similar_iff.2
      ⟨hview, (Value.everywhere_list.1 hleft).2, (Value.everywhere_list.1 hright).2⟩)
  | vector vs =>
    cases w <;> simp at hview
    exact .vector (forall₂_similar_iff.2
      ⟨hview, (Value.everywhere_vector.1 hleft).2, (Value.everywhere_vector.1 hright).2⟩)
  | dict entries =>
    cases w <;> simp at hview
    exact .dict (forall₂_similarEntry_iff.2
      ⟨hview, (Value.everywhere_dict.1 hleft).2, (Value.everywhere_dict.1 hright).2⟩)
  | lambda f =>
    cases w <;> simp at hview
    exact .lambda (.of_view hview (Value.everywhere_lambda.1 hleft).2
      (Value.everywhere_lambda.1 hright).2)
  | lambdaRec name f =>
    cases w <;> simp at hview
    obtain ⟨rfl, hview⟩ := hview
    exact .lambdaRec (.of_view hview (Value.everywhere_lambdaRec.1 hleft).2
      (Value.everywhere_lambdaRec.1 hright).2)
  | env e =>
    cases w <;> simp at hview
    obtain ⟨hdistinct, hvalues⟩ := Value.everywhere_env.1 hleft
    obtain ⟨hdistinct', hvalues'⟩ := Value.everywhere_env.1 hright
    exact .env ⟨hview, ⟨hdistinct, hvalues⟩, ⟨hdistinct', hvalues'⟩⟩
  | state s =>
    cases w <;> simp [Value.viewState_eq] at hview
    obtain ⟨hplain, hvalues, hrefs⟩ := Value.everywhere_state.1 hleft
    obtain ⟨hplain', hvalues', hrefs'⟩ := Value.everywhere_state.1 hright
    have hdistinct := fun hd => Env.distinct_of_isImmutable (hplain hd)
    have hdistinct' := fun hd => Env.distinct_of_isImmutable (hplain' hd)
    have henv : SimilarEnv d s.env _ := ⟨hview.1, ⟨hdistinct, hvalues⟩, ⟨hdistinct', hvalues'⟩⟩
    exact .state henv (forall₂_similar_iff.2 ⟨hview.2, hrefs, hrefs'⟩)
      (henv.variant hplain hplain') hplain
  | null =>
    cases w <;> simp at hview
    exact .null
  | _ =>
    cases w <;> simp at hview
    subst hview
    constructor

end CapLisp
