/-
# Equality sees the view only

Structural equality looks at neither serial numbers nor shadowed frames nor
the variant of an environment, so two values are equal exactly if their views
are (`beq_view`).  Values with the same view are equal to the same values.
-/

import CapLisp.Proofs.View.Basic
import CapLisp.Value.Comparison

namespace CapLisp
namespace Value

/-! ### Equality piece by piece -/

/-- A change that keeps the equality of elements keeps that of lists. -/
theorem beqAll_map {f : Value → Value} {as bs : List Value}
    (h : ∀ a ∈ as, ∀ b ∈ bs, beq (f a) (f b) = beq a b) :
    beqAll (as.map f) (bs.map f) = beqAll as bs := by
  induction as generalizing bs with
  | nil => cases bs <;> simp [beqAll]
  | cons a as ih =>
    cases bs with
    | nil => simp [beqAll]
    | cons b bs =>
      have hrest : beqAll (as.map f) (bs.map f) = beqAll as bs :=
        ih fun x hx y hy => h x (List.mem_cons_of_mem _ hx) y (List.mem_cons_of_mem _ hy)
      simp only [List.map_cons, beqAll, hrest]
      rw [h a (List.mem_cons_self ..) b (List.mem_cons_self ..)]

/-- A change that keeps the equality of keys and values keeps that of dictionaries. -/
theorem beqEntries_map {f : Value × Value → Value × Value} {as bs : List (Value × Value)}
    (h : ∀ a ∈ as, ∀ b ∈ bs,
      beq (f a).1 (f b).1 = beq a.1 b.1 ∧ beq (f a).2 (f b).2 = beq a.2 b.2) :
    beqEntries (as.map f) (bs.map f) = beqEntries as bs := by
  induction as with
  | nil => simp [beqEntries]
  | cons a as ih =>
    have hhead : ∀ b ∈ bs, (beq (f a).1 (f b).1 && beq (f a).2 (f b).2) =
        (beq a.1 b.1 && beq a.2 b.2) := fun b hb => by
      obtain ⟨hkey, hvalue⟩ := h a (List.mem_cons_self ..) b hb
      rw [hkey, hvalue]
    rw [List.map_cons, beqEntries, beqEntries, ih fun x hx => h x (List.mem_cons_of_mem _ hx),
      List.any_map]
    congr 1
    rw [Bool.eq_iff_iff, List.any_eq_true, List.any_eq_true]
    exact exists_congr fun b => and_congr_right fun hb => by
      rw [← Bool.eq_iff_iff]
      exact hhead b hb

/-- Tells whether a binding is bound to an equal value in another environment. -/
def agreesIn (other : Env Value) (frame : String × Value) : Bool :=
  (other.lookup frame.1).any (beq frame.2)

/-- A scope is compared by its frames that are not shadowed. -/
theorem beqScope_eq_all (frames : List (String × Value)) (seen : List String)
    (other : Env Value) :
    beqScope frames seen other = (Chain.newest seen frames).all (agreesIn other) := by
  induction frames generalizing seen with
  | nil => simp [beqScope, Chain.newest]
  | cons frame rest ih =>
    obtain ⟨name, value⟩ := frame
    by_cases h : name ∈ seen
    · simp only [beqScope, Chain.newest, h, ↓reduceIte, ih]
    · simp only [beqScope, Chain.newest, h, ↓reduceIte, ih, List.all_cons, agreesIn]
      cases other.lookup name <;> rfl

/-- **Environments are equal** if they bind as many names and each name to equal values. -/
theorem beqEnv_eq_all {e : Env Value} (he : e.Distinct) (other : Env Value) :
    beqEnv e other = (e.size == other.size && e.bindings.all (agreesIn other)) := by
  cases e with
  | persistent frames =>
    rw [beqEnv, beqScope_eq_all, Env.bindings, Chain.visible, List.all_reverse]
  | mutable bindings =>
    rw [beqEnv, beqScope_eq_all, Chain.newest_nil_eq_self he]
    rfl

/-- A change that keeps equality keeps whether a frame agrees with an environment. -/
theorem agreesIn_map {f : Value → Value} {e : Env Value} {frame : String × Value}
    (h : ∀ w ∈ e.values, beq (f frame.2) (f w) = beq frame.2 w) :
    agreesIn (e.map f) (frame.1, f frame.2) = agreesIn e frame := by
  rw [agreesIn, agreesIn, Env.lookup_map]
  cases hl : e.lookup frame.1 with
  | none => rfl
  | some found => exact h found (Env.mem_values_of_lookup hl)

/-- A change that keeps equality keeps whether a scope is found in an environment. -/
theorem beqScope_map {f : Value → Value} {frames : List (String × Value)} {e : Env Value}
    (h : ∀ v ∈ frames.map Prod.snd, ∀ w ∈ e.values, beq (f v) (f w) = beq v w) :
    beqScope (mapFrames f frames) [] (e.map f) = beqScope frames [] e := by
  rw [beqScope_eq_all, beqScope_eq_all, Chain.newest_map, mapFrames, List.all_map,
    Bool.eq_iff_iff, List.all_eq_true, List.all_eq_true]
  refine forall₂_congr fun frame hframe => ?_
  have hmem : frame.2 ∈ frames.map Prod.snd :=
    List.mem_map_of_mem (Chain.newest_subset [] frames hframe)
  rw [Function.comp, agreesIn_map (h frame.2 hmem)]

/-- A change that keeps equality keeps that of environments. -/
theorem beqEnv_map {f : Value → Value} {e other : Env Value}
    (h : ∀ v ∈ e.values, ∀ w ∈ other.values, beq (f v) (f w) = beq v w) :
    beqEnv (e.map f) (other.map f) = beqEnv e other := by
  cases e with
  | persistent frames =>
    have hsize := Env.size_map f (Env.persistent frames)
    rw [beqEnv, ← beqScope_map h, ← hsize, ← Env.size_map f other]
    rfl
  | mutable bindings =>
    rw [beqEnv, ← beqScope_map h, ← length_mapFrames f bindings, ← Env.size_map f other]
    rfl

/-- The normal form of an environment is equal to what the environment is equal to. -/
theorem beqEnv_env {d : Detail} {e other : Env Value} (he : d = .visible → e.Distinct)
    (hother : d = .visible → other.Distinct) :
    beqEnv (d.env e) (d.env other) = beqEnv e other := by
  cases d with
  | full => rfl
  | visible =>
    have hn : (Detail.visible.env e).Distinct := trivial
    have hagrees : agreesIn (Detail.visible.env other) = agreesIn other := by
      funext frame
      rw [agreesIn, agreesIn, Detail.lookup_env hother]
    rw [beqEnv_eq_all hn, beqEnv_eq_all (he rfl), Detail.size_env he, Detail.size_env hother,
      Detail.bindings_env he, hagrees]

/-! ### Views -/

/-- Equality of closures does not depend on what is looked at, if that of their bodies does not. -/
theorem beqClosure_viewClosure {d : Detail} {f g : Closure Value}
    (h : ∀ v ∈ f.bodies, ∀ w ∈ g.bodies, beq (v.view d) (w.view d) = beq v w) :
    beqClosure (viewClosure d f) (viewClosure d g) = beqClosure f g := by
  obtain ⟨_, params, bodies, _⟩ := f
  rw [viewClosure_eq, viewClosure_eq, beqClosure, beqClosure, beqAll_map h]

/-- Equality of environments does not depend on what is looked at, if that of their values does
not. -/
theorem beqEnv_viewEnv {d : Detail} {e other : Env Value} (he : d = .visible → e.Distinct)
    (hother : d = .visible → other.Distinct)
    (h : ∀ v ∈ e.values, ∀ w ∈ other.values, beq (v.view d) (w.view d) = beq v w) :
    beqEnv (viewEnv d e) (viewEnv d other) = beqEnv e other := by
  rw [viewEnv_eq, viewEnv_eq, beqEnv_env (fun hd => Env.distinct_map _ (he hd))
    (fun hd => Env.distinct_map _ (hother hd)), beqEnv_map h]

/-- **Two values are equal exactly if their views are.** -/
theorem beq_view {d : Detail} {v w : Value} (hv : v.Regular d) (hw : w.Regular d) :
    beq (v.view d) (w.view d) = beq v w := by
  induction v using inductionOnParts generalizing w with
  | step v ih =>
  have hparts : ∀ a ∈ v.parts, ∀ b ∈ w.parts, beq (a.view d) (b.view d) = beq a b :=
    fun a ha b hb => ih a ha (hv.inside a ha) (hw.inside b hb)
  -- Only values of one kind can be equal, and a view keeps the kind.
  cases v with
  | list items =>
    cases w with
    | list others => simpa [beq, parts] using beqAll_map hparts
    | _ => simp [beq]
  | vector items =>
    cases w with
    | vector others => simpa [beq, parts] using beqAll_map hparts
    | _ => simp [beq]
  | dict entries =>
    cases w with
    | dict others =>
      have hentries : beqEntries (entries.map (viewEntry d)) (others.map (viewEntry d)) =
          beqEntries entries others := beqEntries_map fun a ha b hb =>
        ⟨hparts _ (mem_entryParts.2 ⟨a, ha, Or.inl rfl⟩) _ (mem_entryParts.2 ⟨b, hb, Or.inl rfl⟩),
          hparts _ (mem_entryParts.2 ⟨a, ha, Or.inr rfl⟩) _
            (mem_entryParts.2 ⟨b, hb, Or.inr rfl⟩)⟩
      simp [beq, hentries]
    | _ => simp [beq]
  | lambda fn =>
    cases w with
    | lambda other =>
      have hbodies := fun a ha b hb =>
        hparts a (List.mem_append_left _ ha) b (List.mem_append_left _ hb)
      simpa [beq] using beqClosure_viewClosure hbodies
    | _ => simp [beq]
  | lambdaRec name fn =>
    cases w with
    | lambdaRec other gn =>
      have hbodies := fun a ha b hb =>
        hparts a (List.mem_append_left _ ha) b (List.mem_append_left _ hb)
      simp [beq, beqClosure_viewClosure hbodies]
    | _ => simp [beq]
  | env e =>
    cases w with
    | env other => simpa [beq] using beqEnv_viewEnv hv.here hw.here hparts
    | _ => simp [beq]
  | state s =>
    cases w with
    | state other =>
      obtain ⟨e, refs⟩ := s
      have henv : beqEnv (viewEnv d e) (viewEnv d other.env) = beqEnv e other.env :=
        beqEnv_viewEnv hv.here hw.here fun a ha b hb =>
          hparts a (List.mem_append_left _ ha) b (List.mem_append_left _ hb)
      have hrefs : beqAll (refs.map (view d)) (other.refs.map (view d)) =
          beqAll refs other.refs := beqAll_map fun a ha b hb =>
        hparts a (List.mem_append_right _ ha) b (List.mem_append_right _ hb)
      simp [beq, viewState_eq, beqState, henv, hrefs]
    | _ => simp [beq]
  | _ => cases w <;> simp [beq]

end Value
end CapLisp
