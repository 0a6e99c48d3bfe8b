/-
# Modules from end to end

A `module` form evaluates its metadata in the caller's environment and its body in a
mutable copy of that environment, which then goes into the result.  The caller gets its
environment back as the metadata left it, however the body ends; the store is one, so
what the body wrote stays.

| metadata | body | the form ends with |
| --- | --- | --- |
| fails | is not evaluated | the error of the metadata |
| says something else | is not evaluated | `InvalidDeclaration` |
| valid | fails | the error of the body |
| valid | leaves exports unbound | `UndefinedExports`, which lists them in order |
| valid | binds every export | the module, whose `:env` is what the body built |

A `do` with the same forms, in the caller's own environment, binds the same names to the
same values: the variant of an environment does not show, nor does which values are
dropped on the way (`Simulation.interchange`).
-/

import CapLisp.Proofs.Headroom
import CapLisp.Proofs.Threading
import CapLisp.Proofs.Variants

namespace CapLisp

namespace Action

variable {α : Type}

/-- Drops the value that an action ends with. -/
def drop (x : Action α) : Action Unit := x >>= fun _ => pure ()

/-- Dropping a result keeps the bindings and the error. -/
theorem run_drop (x : Action α) (b : Bindings) :
    x.drop.run b = ((x.run b).1.map fun _ => (), (x.run b).2) := by
  rw [drop, run_bind]
  rcases x.run b with ⟨_ | a, b'⟩ <;> rfl

end Action

namespace SpecialForm

/-- A `module` form. -/
def declaration (metadata : Value) (body : List Value) : Value :=
  .list (.atom module.name :: metadata :: body)

/-- The run of a module's body: in a mutable copy of the environment, while the metadata
and the environment are held. -/
def runInside (eval : Evaluator) (ctx : Context) (metadata : Value) (body : List Value)
    (b : Bindings) : Except Error Unit × Bindings :=
  (runForms eval (ctx.holdAll [metadata, .env b.env]) body).run
    { b with env := .mutable b.env.thaw }

/-- What a module comes to once its body has ended. -/
def Metadata.conclusion (info : Metadata) : Except Error Unit × Bindings → Except Error Value
  | (.error e, _) => .error e
  | (.ok (), b) =>
    match info.missing b.env with
    | [] => .ok (info.toValue b.env)
    | names => .error (.undefinedExports names)

/-- **The body's error is the module's.** -/
theorem Metadata.conclusion_of_error (info : Metadata) {inside : Except Error Unit × Bindings}
    {e : Error} (h : inside.1 = .error e) : info.conclusion inside = .error e := by
  obtain ⟨_, b⟩ := inside
  cases h
  rfl

/-- The body leaves its environment to the result and the caller's to the caller. -/
theorem run_within_body (eval : Evaluator) (ctx : Context) (metadata : Value) (body : List Value)
    (b : Bindings) :
    (Action.within (.mutable b.env.thaw) do
        runForms eval (ctx.holdAll [metadata, .env b.env]) body
        return (← Action.get).env).run b =
      let inside := runInside eval ctx metadata body b
      (inside.1.map fun _ => inside.2.env, { inside.2 with env := b.env }) := by
  have hwithin : ∀ x : Action (Env Value), (Action.within (.mutable b.env.thaw) x).run b =
      ((x.run { b with env := .mutable b.env.thaw }).1,
        { (x.run { b with env := .mutable b.env.thaw }).2 with env := b.env }) := fun _ => rfl
  rw [hwithin, Action.run_bind, runInside]
  rcases (runForms eval _ body).run _ with ⟨_ | _, c⟩ <;> rfl

/-- **A `module` form** evaluates its metadata, runs its body inside and puts the caller's
environment back. -/
theorem eval_declaration (room : Nat) (ctx : Context) (metadata : Value) (body : List Value)
    (b : Bindings) :
    (Eval.eval (room + 1) ctx (declaration metadata body)).run b =
      match (Eval.eval room ctx metadata).run b with
      | (.error e, b₁) => (.error e, b₁)
      | (.ok value, b₁) =>
        match Metadata.ofValue value with
        | .error fault => (.error (.invalidDeclaration fault value), b₁)
        | .ok info =>
          let inside := runInside (Eval.eval room) ctx value body b₁
          (info.conclusion inside, { inside.2 with env := b₁.env }) := by
  have hrun : (Eval.eval (room + 1) ctx (declaration metadata body)).run b = _ :=
    Action.run_bind (Eval.eval room ctx metadata) _ b
  rw [hrun]
  rcases (Eval.eval room ctx metadata).run b with ⟨e | value, b₁⟩
  · rfl
  simp only []
  cases Metadata.ofValue value with
  | error fault => rfl
  | ok info =>
    refine (Action.run_bind (Action.within _ _) _ b₁).trans ?_
    rw [run_within_body]
    rcases runInside (Eval.eval room) ctx value body b₁ with ⟨e | _, c⟩
    · rfl
    · simp only [Metadata.conclusion, Except.map]
      cases info.missing c.env <;> rfl

/-- **The caller's environment is what the metadata left.** -/
theorem env_declaration (room : Nat) (ctx : Context) (metadata : Value) (body : List Value)
    (b : Bindings) :
    ((Eval.eval (room + 1) ctx (declaration metadata body)).run b).2.env =
      ((Eval.eval room ctx metadata).run b).2.env := by
  rw [eval_declaration]
  rcases (Eval.eval room ctx metadata).run b with ⟨e | value, b₁⟩
  · rfl
  · simp only []
    cases Metadata.ofValue value <;> rfl

end SpecialForm

open SpecialForm

/-! ### The body and a `do` -/

/-- How a module ends, given how a `do` with the forms of its body does: with the body's
error, with the exports that it left unbound, or with a dict that states the metadata and
whose `:env` binds the same names to the same values. -/
inductive ModuleEnd (info : Metadata) (done : Except Error Value × Bindings) :
    Except Error Value → Prop
  | failed {e e' : Error} (hdone : done.1 = .error e') (h : RelatedError e e') :
    ModuleEnd info done (.error e)
  | unbound {v : Value} (hdone : done.1 = .ok v) (hne : info.missing done.2.env ≠ []) :
    ModuleEnd info done (.error (.undefinedExports (info.missing done.2.env)))
  | module {v : Value} {entries : Dict} {exposed : Env Value} (hdone : done.1 = .ok v)
    (hbound : ∀ name ∈ info.exports, (done.2.env.lookup name).isSome = true)
    (hstates : Metadata.ofValue (.dict entries) = .ok info)
    (henv : Dict.find? (.keyword "env") entries = some (.env exposed))
    (hexposed : ∀ name, Option.Rel Related (exposed.lookup name) (done.2.env.lookup name)) :
    ModuleEnd info done (.ok (.dict entries))

/-- A mutable copy can take the place of an environment. -/
theorem InterchangeEnv.thaw_left {e e' : Env Value} (h : InterchangeEnv e e') :
    InterchangeEnv (.mutable e.thaw) e' :=
  h.congr h.left.thaw h.right (Env.lookup_thaw h.left.distinct) fun _ => rfl

namespace Simulation

/-- The forms of a body and a `do` with them agree. -/
theorem agree_runForms_evalBody {S : Simulation} {table : Table} {eval : Evaluator}
    (heval : S.AgreeEval table eval) {held held' forms forms' : List Value}
    (h : List.Forall₂ S.value forms forms') (last : Value) :
    S.Agree (fun _ _ => True) (runForms eval ⟨table, held⟩ forms)
      (evalBody eval ⟨table, held'⟩ last forms').drop := by
  induction h generalizing last with
  | nil => exact .pure trivial
  | cons hform _ ih =>
    rw [evalBody, Action.drop, Action.bind_assoc]
    exact .bind (heval _ _ _ _ hform) fun _ value _ => ih value

/-- A module ends as the run of its body and one that agrees with it say. -/
theorem End.moduleEnd {b : CapLisp.Bindings} {inside : Except Error Unit × CapLisp.Bindings}
    {done : Except Error Value × CapLisp.Bindings}
    (h : interchange.End (fun _ _ => True) b inside (done.1.map fun _ => (), done.2))
    (info : Metadata) : ModuleEnd info done (info.conclusion inside) := by
  obtain ⟨-, ⟨-, henv, -⟩, houtcome⟩ := h
  have henv : InterchangeEnv inside.2.env done.2.env := henv
  obtain ⟨outcome, c⟩ := inside
  rcases done with ⟨e | v, c'⟩ <;> cases houtcome
  · next he => exact .failed rfl he
  · next hv =>
    have hmissing : info.missing c.env = info.missing c'.env :=
      alike_missing (S := interchange) info henv
    rw [Metadata.conclusion]
    split
    · next hnone =>
      obtain ⟨entries, hvalue, hstates, hentry⟩ := info.exists_toValue c.env
      rw [hvalue]
      refine .module rfl ?_ hstates hentry henv.thaw_left.lookup
      intro name hname
      have hfilter := List.filter_eq_nil_iff.1 (hmissing.symm.trans hnone) name hname
      simpa [Option.isSome_iff_ne_none] using hfilter
    · next hsome =>
      rw [hmissing]
      exact .unbound rfl (hmissing ▸ hsome)

end Simulation

section

variable {table : Table} {room : Nat} {held : List Value} {b b₁ : Bindings} {metadata value : Value}
  {body : List Value}

/-- A module ends as a `do` with its body does, and leaves the same slots. -/
theorem moduleEnd_of_run (htable : table ⊆ Table.shipped) (hb : b.WellFormed)
    (hwithout : b.Without "def-rec") (hmetadata : metadata.WellFormed ∧ metadata.Without "def-rec")
    (hbody : ∀ form ∈ body, form.WellFormed ∧ form.Without "def-rec")
    (hstart : (Eval.eval room ⟨table, held⟩ metadata).run b = (.ok value, b₁)) (info : Metadata)
    (held' : List Value) :
    let inside := runInside (Eval.eval room) ⟨table, held⟩ value body b₁
    let done := (evalBody (Eval.eval room) ⟨table, held'⟩ .null body).run b₁
    ModuleEnd info done (info.conclusion inside) ∧
      List.Forall₂ Related inside.2.refs done.2.refs := by
  intro inside done
  have heval : Simulation.interchange.AgreeEval table (Eval.eval room) :=
    Simulation.agreeEval_eval (fun _ _ => Simulation.agreeHosts_of_subset htable _) room
  -- The metadata, run beside itself, leaves bindings that ask for look-ups only.
  have hb₁ : Simulation.interchange.Bindings b₁ b₁ := by
    have hself := heval held held metadata metadata (.refl (hmetadata.1.tame hmetadata.2)) b b
      (hb.interchange hwithout InterchangeEnv.refl)
    rw [hstart] at hself
    exact hself.bindings
  have henv : InterchangeEnv b₁.env b₁.env := hb₁.env
  have hcopy : Simulation.interchange.Bindings { b₁ with env := .mutable b₁.env.thaw } b₁ :=
    ⟨trivial, henv.thaw_left, hb₁.refs⟩
  have hforms : List.Forall₂ Interchange body body := List.forall₂_same.2 fun form hmem =>
    .refl ((hbody form hmem).1.tame (hbody form hmem).2)
  have hend : Simulation.interchange.End (fun _ _ => True)
      { b₁ with env := .mutable b₁.env.thaw } inside (done.1.map fun _ => (), done.2) := by
    rw [← Action.run_drop]
    exact Simulation.agree_runForms_evalBody heval hforms .null _ _ hcopy
  exact ⟨hend.moduleEnd info, (forall₂_interchange_iff.1 hend.bindings.refs).1⟩

/-- **A module from end to end.**  Under any part of the shipped catalog, at any depth, for
all bindings, metadata and bodies:

* the environment is afterwards what the metadata left, whatever the outcome; evaluated by
  itself, where the form stands, the metadata leaves the same unless the form meets the depth
  limit in it;
* metadata that fails, or that says something else, ends the form with its error;
* else the store is afterwards what the body left when it ended, well or not, and an error
  of the body is that of the form;
* without `def-rec`, in well-formed bindings, the form ends as a `do` with the body says that
  is evaluated where the metadata left off (`ModuleEnd`), and the slots are related to those
  that the `do` leaves. -/
theorem moduleEnd_of_declaration (htable : table ⊆ Table.shipped) (room : Nat)
    (held : List Value) (b : Bindings) (metadata : Value) (body : List Value) :
    let start := (Eval.eval room ⟨table, held⟩ metadata).run b
    let whole := (Eval.eval (room + 1) ⟨table, held⟩ (declaration metadata body)).run b
    (whole.2.env = start.2.env ∧
      (start.1 ≠ .error .depthLimit →
        (Eval.eval (room + 1) ⟨table, held⟩ metadata).run b = start)) ∧
    (∀ e, start.1 = .error e → whole = (.error e, start.2)) ∧
    ∀ value, start.1 = .ok value →
      (∀ fault, Metadata.ofValue value = .error fault →
        whole = (.error (.invalidDeclaration fault value), start.2)) ∧
      ∀ info, Metadata.ofValue value = .ok info →
        let inside := runInside (Eval.eval room) ⟨table, held⟩ value body start.2
        whole.2.refs = inside.2.refs ∧
        (∀ e, inside.1 = .error e → whole.1 = .error e) ∧
        (b.WellFormed → b.Without "def-rec" →
          metadata.WellFormed ∧ metadata.Without "def-rec" →
          (∀ form ∈ body, form.WellFormed ∧ form.Without "def-rec") → ∀ held',
            let done := (Eval.eval (room + 1) ⟨table, held'⟩ (.list (.atom "do" :: body))).run
              start.2
            ModuleEnd info done whole.1 ∧ List.Forall₂ Related whole.2.refs done.2.refs) := by
  intro start whole
  have hmore : start.1 ≠ .error .depthLimit →
      (Eval.eval (room + 1) ⟨table, held⟩ metadata).run b = start :=
    headroom_eval htable (Nat.le_succ room) held metadata b
  have hwhole := eval_declaration room ⟨table, held⟩ metadata body b
  -- The metadata fails, or comes to a value that is refused, or the body is run.
  refine ⟨⟨env_declaration room _ metadata body b, hmore⟩, ?_, ?_⟩
  · intro e he
    have hstart : (Eval.eval room ⟨table, held⟩ metadata).run b = (.error e, start.2) :=
      Prod.ext he rfl
    rw [hstart] at hwhole
    exact hwhole
  · intro value hvalue
    have hstart : (Eval.eval room ⟨table, held⟩ metadata).run b = (.ok value, start.2) :=
      Prod.ext hvalue rfl
    rw [hstart] at hwhole
    constructor
    · intro fault hfault
      simp only [hfault] at hwhole
      exact hwhole
    · intro info hinfo inside
      simp only [hinfo] at hwhole
      have houtcome : whole.1 = info.conclusion inside := congrArg Prod.fst hwhole
      have hrefs : whole.2.refs = inside.2.refs := congrArg (·.2.refs) hwhole
      refine ⟨hrefs, ?_, ?_⟩
      · intro e he
        exact houtcome.trans (info.conclusion_of_error he)
      -- Only here does the `do` come in.  It runs the body in the environment itself, the module
      -- in a mutable copy, so that what they come to is related and need not be equal.
      · intro hb hwithout hmetadata hbody held' done
        rw [houtcome, hrefs]
        exact moduleEnd_of_run htable hb hwithout hmetadata hbody hstart info held'

end

/-- The metadata defines a name that the body uses; the body writes a slot and defines the
export, or leaves that out. -/
theorem moduleEnd_of_declaration_counter :
    let b : Bindings := ⟨.persistent [("r", .ref 0)], [.null], 0⟩
    let info : Metadata := ⟨"counter", "", ["next"]⟩
    let value : Value := .dict [(.keyword "module", .atom "counter"), (.keyword "doc", .string ""),
      (.keyword "exports", .vector [.atom "next"])]
    let metadata : Value := .list [.atom "do", .list [.atom "def", .atom "n", .number 41],
      .list [.atom "quote", value]]
    let write : Value := .list [.atom "write-ref", .atom "r", .atom "n"]
    let next : Value := .list [.atom "def", .atom "next",
      .list [.atom "fn", .vector [.atom "x"], .list [.atom "+", .atom "x", .atom "n"]]]
    let start := (Eval.eval 8 ⟨Table.shipped, []⟩ metadata).run b
    let whole := fun body => (Eval.eval 9 ⟨Table.shipped, []⟩ (declaration metadata body)).run b
    let done := fun body =>
      (Eval.eval 9 ⟨Table.shipped, []⟩ (.list (.atom "do" :: body))).run start.2
    b.WellFormed ∧ b.Without "def-rec" ∧ (metadata.WellFormed ∧ metadata.Without "def-rec") ∧
    (∀ form ∈ [write, next], form.WellFormed ∧ form.Without "def-rec") ∧
    start.1 = .ok value ∧ Metadata.ofValue value = .ok info ∧
    (whole [write, next]).2.env = start.2.env ∧ (whole [write]).2.env = start.2.env ∧
    ModuleEnd info (done [write, next]) (whole [write, next]).1 ∧
    ModuleEnd info (done [write]) (whole [write]).1 ∧
    (whole [write, next]).1.isOk = true ∧ (whole [write]).1 = .error (.undefinedExports ["next"]) ∧
    (whole [write]).2.refs = [.number 41] := by
  intro b info value metadata write next start whole done
  have hb : b.WellFormed := by
    constructor <;> simp [b, Env.Distinct, Env.values, Value.WellFormed, Value.isWellFormed]
  have hwithout : b.Without "def-rec" := by
    constructor <;> simp [b, Env.values, Value.Without]
  have hmetadata : metadata.WellFormed ∧ metadata.Without "def-rec" := by
    simp [metadata, value, Value.WellFormed, Value.isWellFormed, Value.Without, Dict.Unequal,
      Value.beq_eq, Value.beq]
  have hbody : ∀ form ∈ [write, next], form.WellFormed ∧ form.Without "def-rec" := by
    simp [write, next, Value.WellFormed, Value.isWellFormed, Value.Without]
  have hstart : start.1 = .ok value := by rfl
  have hinfo : Metadata.ofValue value = .ok info := by rfl
  have hok : (whole [write, next]).1.isOk = true := by decide +kernel
  have hunbound : (whole [write]).1 = .error (.undefinedExports ["next"]) := by rfl
  have hrefs : (whole [write]).2.refs = [.number 41] := by rfl
  have hshipped : Table.shipped ⊆ Table.shipped := List.Subset.refl _
  obtain ⟨⟨henv, -⟩, -, hvalid⟩ :=
    moduleEnd_of_declaration hshipped 8 [] b metadata [write, next]
  obtain ⟨⟨henv', -⟩, -, hvalid'⟩ := moduleEnd_of_declaration hshipped 8 [] b metadata [write]
  obtain ⟨-, -, hend⟩ := (hvalid value hstart).2 info hinfo
  obtain ⟨-, -, hend'⟩ := (hvalid' value hstart).2 info hinfo
  have hwrite : ∀ form ∈ [write], form.WellFormed ∧ form.Without "def-rec" :=
    fun form hmem => hbody form (List.mem_of_mem_take (i := 1) hmem)
  exact ⟨hb, hwithout, hmetadata, hbody, hstart, hinfo, henv, henv',
    (hend hb hwithout hmetadata hbody []).1, (hend' hb hwithout hmetadata hwrite []).1,
    hok, hunbound, hrefs⟩

end CapLisp
