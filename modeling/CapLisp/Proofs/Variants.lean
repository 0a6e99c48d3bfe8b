/-
# The variants of environments are interchangeable

A persistent environment puts a frame in front, a mutable one replaces the value
in its place.  A program sees neither: it looks names up, and both variants bind
the same names to the same values at every moment.  So a program goes the same
way in bindings whose environment is replaced by its snapshot or by a mutable
copy, form by form, up to the environments that it takes along.

One form is left out.  `def-rec` asks which closures are still held somewhere,
and the shadowed frames of a chain hold values that an overwritten binding does
not.
-/

import CapLisp.Proofs.Isolation
import CapLisp.Proofs.Simulation.Related

namespace CapLisp

/-- Evaluates forms in order, each in the bindings that the one before it left,
whether that one failed or not.  The result lists how each of them ended. -/
def evalEach (eval : Evaluator) (ctx : Context) :
    List Value → Bindings → List (Except Error Value × Bindings)
  | [], _ => []
  | form :: rest, b =>
    let r := (eval (ctx.hold form) form).run b
    r :: evalEach eval ctx rest r.2

/-- Tells that an atom occurs nowhere in the environment, shadowed frames
included, nor in the store. -/
structure Bindings.Without (name : String) (b : Bindings) : Prop where
  env : ∀ v ∈ b.env.values, v.Without name
  refs : ∀ v ∈ b.refs, v.Without name

/-- Bindings without `def-rec` are within the limit that keeps it out. -/
theorem Bindings.Without.sound {b : Bindings} (h : b.Without "def-rec") (table : Table) :
    (Invariant.plainness .full table).Sound b := by
  refine ⟨⟨?_, ?_⟩, ?_, Nat.zero_le _⟩
  · rintro ⟨⟩
  · intro v hv
    exact (h.env v hv).plain
  · intro v hv
    exact (h.refs v hv).plain

/-- Two outcomes: related values, or errors of one kind with one label. -/
inductive RelatedOutcome : Except Error Value → Except Error Value → Prop
  | ok {v w : Value} (h : Related v w) : RelatedOutcome (.ok v) (.ok w)
  | error {e e' : Error} (kind : e.kind = e'.kind) (label : e.label = e'.label) :
    RelatedOutcome (.error e) (.error e')

/-- Two ends of runs: related outcomes, environments that make the same finite map
up to related values, and related slots. -/
structure RelatedEnd (r r' : Except Error Value × Bindings) : Prop where
  outcome : RelatedOutcome r.1 r'.1
  env : ∀ name, Option.Rel Related (r.2.env.lookup name) (r'.2.env.lookup name)
  refs : List.Forall₂ Related r.2.refs r'.2.refs

namespace Simulation

/-- Ends of exchangeable runs are related. -/
theorem End.related {b : CapLisp.Bindings} {r r' : Except Error Value × CapLisp.Bindings}
    (h : interchange.End Interchange b r r') : RelatedEnd r r' := by
  obtain ⟨_, ⟨_, henv, hrefs⟩, houtcome⟩ := h
  refine ⟨?_, henv.lookup, (forall₂_interchange_iff.1 hrefs).1⟩
  generalize r.1 = outcome at houtcome ⊢
  generalize r'.1 = outcome' at houtcome ⊢
  cases houtcome with
  | ok hv => exact .ok hv.related
  | error he => exact .error he.kind_eq he.label_eq

/-- **Forms in order end alike**, one by one, from interchangeable bindings. -/
theorem related_evalEach {table : Table} (htable : table ⊆ Table.shipped) (room : Nat)
    {held held' forms : List Value} (hforms : ∀ form ∈ forms, form.Tame)
    {b b' : CapLisp.Bindings} (hb : interchange.Bindings b b') :
    List.Forall₂ RelatedEnd (evalEach (Eval.eval room) ⟨table, held⟩ forms b)
      (evalEach (Eval.eval room) ⟨table, held'⟩ forms b') := by
  induction forms generalizing b b' with
  | nil => exact .nil
  | cons form rest ih =>
    obtain ⟨hform, hrest⟩ := List.forall_mem_cons.1 hforms
    have heval : interchange.AgreeEval table (Eval.eval room) :=
      agreeEval_eval (fun _ _ => agreeHosts_of_subset htable _) room
    have hend := heval (form :: held) (form :: held') form form (.refl hform) b b' hb
    exact .cons hend.related (ih hrest hend.bindings)

end Simulation

/-- Well-formed values without `def-rec` are tame. -/
theorem Value.WellFormed.tame {v : Value} (h : v.WellFormed) (hwithout : v.Without "def-rec") :
    v.Tame := by
  refine Everywhere.mono (fun w hw => ?_) (h.and hwithout)
  obtain ⟨hwell, hatom⟩ := hw
  cases w with
  | atom name => exact fun he => hatom (congrArg Value.atom he)
  | env e => exact hwell
  | state s => exact hwell
  | _ => trivial

/-- Bindings are interchangeable with those that differ in the environment only,
if that is the same finite map. -/
theorem Bindings.WellFormed.interchange {b : Bindings} (hb : b.WellFormed)
    (hwithout : b.Without "def-rec") {e : Env Value} (he : b.env.Tame → InterchangeEnv b.env e) :
    Simulation.interchange.Bindings b { b with env := e } := by
  have henv : b.env.Tame :=
    ⟨hb.distinct, fun v hv => (hb.env v hv).tame (hwithout.env v hv)⟩
  have hrefs : ∀ v ∈ b.refs, Interchange v v :=
    fun v hv => .refl ((hb.refs v hv).tame (hwithout.refs v hv))
  exact ⟨trivial, he henv, List.forall₂_same.2 hrefs⟩

/-- **The variants of environments are interchangeable.**  Under any part of the
shipped catalog, at any depth, for well-formed bindings and forms without the
atom `def-rec`: evaluated in order, the forms end alike, one by one, in the
bindings as they are and with the environment replaced by its snapshot, and so
they do with the environment replaced by a mutable copy. -/
theorem variants_interchangeable {table : Table} (htable : table ⊆ Table.shipped) (room : Nat)
    (held held' : List Value) {b : Bindings} (hb : b.WellFormed) (hwithout : b.Without "def-rec")
    {forms : List Value} (hforms : ∀ form ∈ forms, form.WellFormed ∧ form.Without "def-rec") :
    List.Forall₂ RelatedEnd (evalEach (Eval.eval room) ⟨table, held⟩ forms b)
      (evalEach (Eval.eval room) ⟨table, held'⟩ forms
        { b with env := .persistent b.env.freeze }) ∧
    List.Forall₂ RelatedEnd (evalEach (Eval.eval room) ⟨table, held⟩ forms b)
      (evalEach (Eval.eval room) ⟨table, held'⟩ forms { b with env := .mutable b.env.thaw }) := by
  have htame : ∀ form ∈ forms, form.Tame :=
    fun form hmem => (hforms form hmem).1.tame (hforms form hmem).2
  constructor
  · refine Simulation.related_evalEach htable room htame (hb.interchange hwithout fun henv => ?_)
    exact (InterchangeEnv.refl henv).congr henv henv.freeze (fun _ => rfl)
      (Env.lookup_freeze henv.distinct)
  · refine Simulation.related_evalEach htable room htame (hb.interchange hwithout fun henv => ?_)
    exact (InterchangeEnv.refl henv).congr henv henv.thaw (fun _ => rfl)
      (Env.lookup_thaw henv.distinct)

/-- The second form takes the environment along, the third one rebinds a name in it, and
the last one gives the environment and the store back as a value.  The mutable
environment still lists `x` first, the persistent one last. -/
theorem variants_interchangeable_rebound :
    let b : Bindings := ⟨.mutable [("x", .number 1), ("y", .number 2)], [.null], 0⟩
    let forms : List Value := [
      .list [.atom "def", .atom "x", .number 5],
      .list [.atom "def", .atom "f", .list [.atom "fn", .vector [.atom "z"],
        .list [.atom "+", .atom "x", .atom "z"]]],
      .list [.atom "def", .atom "x", .list [.atom "f", .number 3]],
      .list [.atom "get-current-state"]]
    let ends := evalEach (Eval.eval 8) ⟨Table.shipped, []⟩ forms b
    b.WellFormed ∧ b.Without "def-rec" ∧
    (∀ form ∈ forms, form.WellFormed ∧ form.Without "def-rec") ∧
    (ends.map fun r => r.2.env.bindings.map Prod.fst) =
      [["x", "y"], ["x", "y", "f"], ["x", "y", "f"], ["x", "y", "f"]] ∧
    (ends.map fun r => r.1.toOption.map Value.kind) =
      [some .null, some .null, some .null, some .state] ∧
    List.Forall₂ RelatedEnd ends (evalEach (Eval.eval 8) ⟨Table.shipped, []⟩ forms
      { b with env := .persistent b.env.freeze }) ∧
    List.Forall₂ RelatedEnd ends (evalEach (Eval.eval 8) ⟨Table.shipped, []⟩ forms
      { b with env := .mutable b.env.thaw }) := by
  intro b forms ends
  have hb : b.WellFormed := by
    constructor <;> simp [b, Env.Distinct, Env.values, Value.WellFormed, Value.isWellFormed]
  have hwithout : b.Without "def-rec" := by
    constructor <;> simp [b, Env.values, Value.Without]
  have hforms : ∀ form ∈ forms, form.WellFormed ∧ form.Without "def-rec" := by
    simp [forms, Value.WellFormed, Value.isWellFormed, Value.Without]
  have hnames : (ends.map fun r => r.2.env.bindings.map Prod.fst) =
      [["x", "y"], ["x", "y", "f"], ["x", "y", "f"], ["x", "y", "f"]] := by decide +kernel
  have hkinds : (ends.map fun r => r.1.toOption.map Value.kind) =
      [some .null, some .null, some .null, some .state] := by decide +kernel
  exact ⟨hb, hwithout, hforms, hnames, hkinds,
    variants_interchangeable (List.Subset.refl Table.shipped) 8 [] [] hb hwithout hforms⟩

end CapLisp
