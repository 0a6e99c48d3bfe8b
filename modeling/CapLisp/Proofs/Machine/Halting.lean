/-
# Every program stops

A machine runs call trees with an explicit stack and a depth counter.  A request for an
evaluation pushes the rest of the tree and raises the counter, unless the counter is at
the limit; the end of an evaluation pops and lowers it.  An application is carried out
one level at a time, and one of `apply` goes over into the application that its
arguments state, with nothing pushed.

Nothing in the machine says that it stops.  It does, from every start
(`Machine.haltsWith_evaluator`): the counter bounds the stack, a tree has finitely many
nodes on each path, and an application of `apply` passes on a list that stands in its
own arguments.  The measure is the room below the limit, then the size of the argument
list, then the place in the tree, and each is an induction here: `answers_eval`,
`reaches_apply`, `reaches_andThen`.  Where it stops, it has the result of the evaluator.
-/

import Mathlib.Logic.Relation
import CapLisp.Proofs.Machine.CallTree

namespace CapLisp

namespace Call

/-- What one level of an application comes to: a call, or another application. -/
inductive Level where
  | call (call : Call)
  | apply (func : Value) (args : List Value)

/-- One level of an application. -/
def resolveOnce (table : Table) (args : List Value) : (func : Value) → Except Error Level
  | .lambda fn => (enter fn.scope fn args).map .call
  | .lambdaRec name fn => (enter ((name, .lambdaRec name fn) :: fn.scope) fn args).map .call
  | .primFn name =>
    match table.find? name with
    | none => .error (.impossible (.unknownPrimitive name))
    | some p =>
      match p.check args with
      | .error e => .error e
      | .ok () =>
        match p, args with
        | .apply, [func, .list args] => .ok (.apply func args)
        | .apply, [func, .vector args] => .ok (.apply func args)
        | .apply, [_, other] => .error (.wrongKind Primitive.apply.name .listLike other.kind)
        | .baseEval, [expr, .state s] => .ok (.call (.nested expr s))
        | .operation op, args => .ok (.call (.operation op args))
        | .host _ _ steps, args => .ok (.call (.procedure (steps args) args))
        | p, args => .error (refusal p args)
  | func => .error (.notAFunction func)

/-- **Level by level an application comes to the call that it resolves to.** -/
theorem resolve_eq_once (table : Table) (args : List Value) (func : Value) :
    resolve table args func =
      match resolveOnce table args func with
      | .error e => .error e
      | .ok (.call call) => .ok call
      | .ok (.apply func args) => resolve table args func := by
  have hresolves := resolves table args func
  generalize resolve table args func = outcome at hresolves ⊢
  cases hresolves with
  | lambda fn args | lambdaRec name fn args =>
    rw [resolveOnce]
    cases enter _ fn args <;> rfl
  | unknown args hfind => simp only [resolveOnce, hfind]
  | refused hfind hcheck => simp only [resolveOnce, hfind, hcheck]
  | nested hfind expr s =>
    simp only [resolveOnce, hfind]
    rfl
  | operation hfind hcheck _ => simp only [resolveOnce, hfind, hcheck]
  | procedure hfind hcheck => simp only [resolveOnce, hfind, hcheck]
  | apply_list hfind h | apply_vector hfind h =>
    simp only [resolveOnce, hfind]
    exact h.resolve_eq.symm
  | notAFunction args h =>
    cases func with
    | lambda | lambdaRec | primFn => cases h
    | _ => rfl

/-- **What `apply` passes on stands in its arguments.** -/
theorem mem_of_resolveOnce {table : Table} {args args' : List Value} {func func' : Value}
    (h : resolveOnce table args func = .ok (.apply func' args')) :
    .list args' ∈ args ∨ .vector args' ∈ args := by
  cases func with
  | lambda fn =>
    rw [resolveOnce] at h
    cases henter : enter fn.scope fn args <;> rw [henter] at h <;> cases h
  | lambdaRec name fn =>
    rw [resolveOnce] at h
    cases henter : enter ((name, .lambdaRec name fn) :: fn.scope) fn args <;> rw [henter] at h <;>
      cases h
  | primFn name =>
    rw [resolveOnce] at h
    cases hfind : table.find? name with
    | none => simp only [hfind] at h; cases h
    | some p =>
      cases hcheck : p.check args with
      | error e => simp only [hfind, hcheck] at h; cases h
      | ok _ =>
        simp only [hfind, hcheck] at h
        cases Primitive.fits_of_check hcheck with
        | apply_list func args => cases h; simp
        | apply_vector func args => cases h; simp
        | _ => cases h
  | _ => cases h

/-- The arguments inside a list are smaller together than arguments that have it among them. -/
theorem sizeAll_lt_of_mem {args args' : List Value}
    (h : .list args' ∈ args ∨ .vector args' ∈ args) :
    Value.sizeAll args' < Value.sizeAll args := by
  -- A list or vector counts one more than its elements.
  rcases h with h | h <;> exact Nat.lt_of_succ_le (Value.size_le_sizeAll h)

end Call

namespace CallTree

/-- Nothing is left to do after a tree. -/
theorem andThen_done {α : Type} (x : CallTree α) : x.andThen done = x := by
  induction x with
  | done outcome => rfl
  | get more ih => exact congrArg get (funext ih)
  | put b more ih => exact congrArg (put b) ih
  | eval ctx expr more ih => exact congrArg (eval ctx expr) (funext ih)

/-- A tree that ends with its value leaves no application. -/
theorem toTail_ne_apply (x : CallTree Value) {ctx : Context} {func : Value} {args : List Value} :
    toTail x ≠ done (.ok (.apply ctx func args)) := by
  cases x with
  | done outcome => cases outcome <;> rintro ⟨⟩
  | _ => rintro ⟨⟩

/-- The tree of one level of an application. -/
def ofApplication (ctx : Context) (func : Value) (args : List Value) : CallTree Tail :=
  match Call.resolveOnce ctx.table args func with
  | .error e => fail e
  | .ok (.call call) => toTail (ofCall ctx call)
  | .ok (.apply func args) => pure (.apply ctx func args)

end CallTree

open CallTree

/-- The trees that wait for an evaluation to end, the innermost one first. -/
abbrev Stack : Type := List (Except Error Value → CallTree Tail)

/-- A machine: the depth counter, the tree that it runs, the bindings, and the trees
that wait. -/
structure Machine where
  depth : Nat
  tree : CallTree Tail
  bindings : Bindings
  stack : Stack

namespace Machine

/-- Goes back to the tree that waits for an outcome, if there is one. -/
def leave (m : Machine) (outcome : Except Error Value) : Option Machine :=
  match m.stack with
  | [] => none
  | next :: stack => some ⟨m.depth - 1, next outcome, m.bindings, stack⟩

/-- One step, unless the machine stands still. -/
def step (m : Machine) : Option Machine :=
  match m.tree with
  | .get next => some { m with tree := next m.bindings }
  | .put b next => some { m with tree := next, bindings := b }
  | .eval ctx expr next =>
    if m.depth < maxEvalDepth then
      some ⟨m.depth + 1, ofExpr ctx expr, m.bindings, next :: m.stack⟩
    else some { m with tree := next (.error (.failed (.depthLimit maxEvalDepth))) }
  | .done (.ok (.apply ctx func args)) => some { m with tree := ofApplication ctx func args }
  | .done (.ok (.value v)) => m.leave (.ok v)
  | .done (.error e) => m.leave (.error e)

/-- Below the limit a request is taken up. -/
theorem step_eval {depth : Nat} (h : depth < maxEvalDepth) {ctx : Context} {expr : Value}
    {next : Except Error Value → CallTree Tail} {b : Bindings} {stack : Stack} :
    step ⟨depth, .eval ctx expr next, b, stack⟩ =
      some ⟨depth + 1, ofExpr ctx expr, b, next :: stack⟩ := by
  rw [step]
  exact if_pos h

/-- Tells that a machine comes to another one after finitely many steps. -/
def Reaches : Machine → Machine → Prop :=
  Relation.ReflTransGen fun m m' => m.step = some m'

/-- A machine about to end its tree with an outcome. -/
def ending (depth : Nat) (stack : Stack) (r : Except Error Value × Bindings) : Machine :=
  ⟨depth, .done (r.1.map .value), r.2, stack⟩

variable {depth : Nat} {evaluator : Evaluator}

/-- Tells that an evaluator and the machine at a depth find the same answers to a
request, whatever the machine does next. -/
def Answers (depth : Nat) (evaluator : Evaluator) : Prop :=
  ∀ ctx expr next b stack,
    Reaches ⟨depth, .eval ctx expr next, b, stack⟩
      ⟨depth, next ((evaluator ctx expr).run b).1, ((evaluator ctx expr).run b).2, stack⟩

/-- **A tree is run to its end**: on each path it has finitely many nodes. -/
theorem reaches_andThen {α : Type} (h : Answers depth evaluator) (x : CallTree α)
    (next : Except Error α → CallTree Tail) (b : Bindings) (stack : Stack) :
    Reaches ⟨depth, x.andThen next, b, stack⟩
      ⟨depth, next ((x.run evaluator).run b).1, ((x.run evaluator).run b).2, stack⟩ := by
  induction x generalizing b with
  | done outcome => exact .refl
  | get more ih => exact .head rfl (ih b b)
  | put b' more ih => exact .head rfl (ih b')
  | eval ctx expr more ih => exact (h ctx expr _ b stack).trans (ih _ _)

/-- The same for a tree that leaves nothing to do. -/
theorem reaches_toTail (h : Answers depth evaluator) (x : CallTree Value) (b : Bindings)
    (stack : Stack) :
    Reaches ⟨depth, toTail x, b, stack⟩ (ending depth stack ((x.run evaluator).run b)) :=
  reaches_andThen h x _ b stack

/-- **An application is carried out**, level by level: what `apply` passes on is smaller
than its arguments. -/
theorem reaches_apply (h : Answers depth evaluator) (ctx : Context) (func : Value)
    (args : List Value) (b : Bindings) (stack : Stack) :
    Reaches ⟨depth, .done (.ok (.apply ctx func args)), b, stack⟩
      (ending depth stack ((Tail.run evaluator (.apply ctx func args)).run b)) := by
  induction hsize : Value.sizeAll args using Nat.strongRecOn generalizing func args with
  | _ size ih =>
  subst hsize
  refine .head rfl ?_
  have hresolve := Call.resolve_eq_once ctx.table args func
  cases honce : Call.resolveOnce ctx.table args func with
  | error e =>
    rw [honce] at hresolve
    simp only [ofApplication, Tail.run, honce, hresolve]
    exact .refl
  | ok level =>
    rw [honce] at hresolve
    cases level with
    | call call =>
      have hcall := reaches_toTail h (ofCall ctx call) b stack
      rw [run_ofCall] at hcall
      simp only [ofApplication, Tail.run, honce, hresolve]
      exact hcall
    | apply func' args' =>
      have hlt := Call.sizeAll_lt_of_mem (Call.mem_of_resolveOnce honce)
      have hinner := ih _ hlt func' args' rfl
      simp only [Tail.run] at hinner
      simp only [ofApplication, Tail.run, honce, hresolve]
      exact hinner

/-- A tree and what it leaves to do are run to their end. -/
theorem reaches_ending (h : Answers depth evaluator) (x : CallTree Tail) (b : Bindings)
    (stack : Stack) :
    Reaches ⟨depth, x, b, stack⟩
      (ending depth stack ((x.run evaluator >>= Tail.run evaluator).run b)) := by
  have hend := reaches_andThen h x .done b stack
  rw [andThen_done] at hend
  rw [Action.run_bind]
  rcases hx : (x.run evaluator).run b with ⟨e | v | ⟨ctx, func, args⟩, b'⟩ <;> rw [hx] at hend
  · exact hend
  · exact hend
  · exact hend.trans (reaches_apply h ctx func args b' stack)

/-- **Every request is answered**, at every depth, as the evaluator answers it with the
room that is left. -/
theorem answers_eval {room : Nat} (hroom : room = maxEvalDepth - depth) :
    Answers depth (Eval.eval room) := by
  induction room generalizing depth with
  | zero =>
    intro ctx expr next b stack
    have hlimit : ¬ depth < maxEvalDepth := by omega
    refine .single ?_
    rw [step]
    exact if_neg hlimit
  | succ room ih =>
    intro ctx expr next b stack
    have hbelow : depth < maxEvalDepth := by omega
    have hinner : Answers (depth + 1) (Eval.eval room) := ih (by omega)
    have hbody := reaches_ending hinner (ofExpr ctx expr) b (next :: stack)
    rw [run_ofExpr] at hbody
    refine .head (step_eval hbelow) (hbody.tail ?_)
    change step (ending _ _ ((Eval.eval (room + 1) ctx expr).run b)) = _
    rcases (Eval.eval (room + 1) ctx expr).run b with ⟨e | v, b'⟩ <;> rfl

/-- The machine that evaluates an expression. -/
def ofEval (depth : Nat) (ctx : Context) (expr : Value) (b : Bindings) : Machine :=
  ⟨depth, .eval ctx expr fun outcome => .done (outcome.map .value), b, []⟩

/-- The machine that applies a function to arguments. -/
def ofApply (depth : Nat) (ctx : Context) (func : Value) (args : List Value) (b : Bindings) :
    Machine :=
  ⟨depth, .done (.ok (.apply (ctx.forCall func args) func args)), b, []⟩

/-- Tells that a machine stands still after finitely many steps, with the given outcome
and bindings, and that up to there the depth counter counts the evaluations that are
open and stays within the limit. -/
structure HaltsWith (start : Machine) (r : Except Error Value × Bindings) : Prop where
  reaches : start.Reaches (ending start.depth [] r)
  stands : (ending start.depth [] r).step = none
  depth : ∀ m, start.Reaches m →
    m.depth = start.depth + m.stack.length ∧ m.depth ≤ max start.depth maxEvalDepth

/-- **What a step does to the depth counter.**  A request raises it by one and waits on
the stack, or it is refused at the limit; the end of an evaluation lowers it; no other
step changes it. -/
theorem depth_of_step {m m' : Machine} (h : m.step = some m') :
    (m.depth < maxEvalDepth ∧ m'.depth = m.depth + 1 ∧ m'.stack.length = m.stack.length + 1) ∨
      (m'.depth = m.depth - 1 ∧ m'.stack.length + 1 = m.stack.length) ∨
      (m'.depth = m.depth ∧ m'.stack = m.stack) := by
  have hleave : ∀ outcome, m.leave outcome = some m' →
      m'.depth = m.depth - 1 ∧ m'.stack.length + 1 = m.stack.length := by
    intro outcome hm
    unfold leave at hm
    split at hm
    · cases hm
    · next hstack =>
      cases hm
      exact ⟨rfl, by rw [hstack]; rfl⟩
  unfold step at h
  split at h
  · cases h
    exact .inr (.inr ⟨rfl, rfl⟩)
  · cases h
    exact .inr (.inr ⟨rfl, rfl⟩)
  · split at h
    · next hbelow =>
      cases h
      exact .inl ⟨hbelow, rfl, rfl⟩
    · cases h
      exact .inr (.inr ⟨rfl, rfl⟩)
  · cases h
    exact .inr (.inr ⟨rfl, rfl⟩)
  · exact .inr (.inl (hleave _ h))
  · exact .inr (.inl (hleave _ h))

/-- **Along a run the depth counter counts the open evaluations** and stays within the
limit. -/
theorem depth_of_reaches {start m : Machine} (hstart : start.stack = []) (h : start.Reaches m) :
    m.depth = start.depth + m.stack.length ∧ m.depth ≤ max start.depth maxEvalDepth := by
  induction h with
  | refl => exact ⟨by simp [hstart], Nat.le_max_left _ _⟩
  | @tail m m' _ hstep ih =>
    rcases depth_of_step hstep with ⟨hbelow, hdepth, hlength⟩ | ⟨hdepth, hlength⟩ | ⟨hdepth, hstack⟩
    · omega
    · omega
    · rw [hdepth, hstack]
      exact ih

/-- A machine that starts with an empty stack halts with the ending it reaches. -/
theorem haltsWith {start : Machine} (hstart : start.stack = []) {r : Except Error Value × Bindings}
    (h : start.Reaches (ending start.depth [] r)) : start.HaltsWith r where
  reaches := h
  stands := by
    obtain ⟨e | v, b⟩ := r <;> rfl
  depth _ hm := depth_of_reaches hstart hm

/-- **What is passed on by an application of `apply`** stands in the arguments of the
application.  The depth counter stays as it is. -/
theorem smaller_of_step {m m' : Machine} {ctx ctx' : Context} {func func' : Value}
    {args args' : List Value} (h : m.step = some m')
    (hm : m.tree = .done (.ok (.apply ctx func args)))
    (hm' : m'.tree = .done (.ok (.apply ctx' func' args'))) :
    m'.depth = m.depth ∧ (.list args' ∈ args ∨ .vector args' ∈ args) := by
  rw [step, hm] at h
  cases h
  refine ⟨rfl, ?_⟩
  change ofApplication ctx func args = _ at hm'
  unfold ofApplication at hm'
  cases honce : Call.resolveOnce ctx.table args func with
  | error e =>
    rw [honce] at hm'
    cases hm'
  | ok level =>
    rw [honce] at hm'
    cases level with
    | call call => exact absurd hm' (toTail_ne_apply _)
    | apply func args =>
      cases hm'
      exact Call.mem_of_resolveOnce honce

/-- **Every program stops.**  Under any table, in any context, from any bindings and at
any depth: the machine that evaluates an expression, and the one that applies a function
to arguments, stand still after finitely many steps, with the outcome and the bindings
that the evaluator gives with the room left at that depth.  Up to there the depth counter
counts the open evaluations, within the limit.  Each request for an evaluation raises it
by one, or is refused at the limit with the error that says so; and where `apply` is
applied, the step leaves it as it is and passes on a list that stands in the arguments
and so is smaller. -/
theorem haltsWith_evaluator (depth : Nat) (ctx : Context) (b : Bindings) :
    (∀ expr, (ofEval depth ctx expr b).HaltsWith
      ((Eval.eval (maxEvalDepth - depth) ctx expr).run b)) ∧
    (∀ func args, (ofApply depth ctx func args b).HaltsWith
      ((applyFunction (Eval.eval (maxEvalDepth - depth)) ctx func args).run b)) ∧
    ∀ m m' : Machine, m.step = some m' →
      (∀ ctx expr next, m.tree = .eval ctx expr next →
        (m'.depth = m.depth + 1 ∧ m'.depth ≤ maxEvalDepth ∧ m'.stack = next :: m.stack) ∨
        (maxEvalDepth ≤ m.depth ∧ m'.depth = m.depth ∧ m'.stack = m.stack ∧
          m'.tree = next (.error (.failed (.depthLimit maxEvalDepth))))) ∧
      (∀ ctx ctx' func func' args args', m.tree = .done (.ok (.apply ctx func args)) →
        m'.tree = .done (.ok (.apply ctx' func' args')) →
        m'.depth = m.depth ∧ (.list args' ∈ args ∨ .vector args' ∈ args) ∧
          Value.sizeAll args' < Value.sizeAll args) := by
  have hanswers : Answers depth (Eval.eval (maxEvalDepth - depth)) := answers_eval rfl
  -- The room that is left at the start answers every request, so the machine gets past it;
  -- a call of the host starts at the same depth, without a request of its own.
  refine ⟨fun expr => haltsWith rfl ?_, fun func args => haltsWith rfl ?_, fun m m' hstep => ?_⟩
  · exact hanswers ctx expr _ b []
  · have happly := reaches_apply hanswers (ctx.forCall func args) func args b []
    rwa [Tail.run_apply_forCall] at happly
  · refine ⟨fun ctx expr next hm => ?_, fun ctx ctx' func func' args args' hm hm' => ?_⟩
    · rw [step, hm] at hstep
      by_cases hbelow : m.depth < maxEvalDepth
      · simp only [if_pos hbelow, Option.some.injEq] at hstep
        subst hstep
        exact .inl ⟨rfl, hbelow, rfl⟩
      · simp only [if_neg hbelow, Option.some.injEq] at hstep
        subst hstep
        exact .inr ⟨Nat.le_of_not_lt hbelow, rfl, rfl, rfl⟩
    · obtain ⟨hdepth, hmem⟩ := smaller_of_step hstep hm hm'
      exact ⟨hdepth, hmem, Call.sizeAll_lt_of_mem hmem⟩

/-- A closure that applies itself uses up the room that is left. -/
example :
    let twice : Value := .list [.atom "fn", .vector [.atom "f"], .list [.atom "f", .atom "f"]]
    ((Eval.eval (maxEvalDepth - 250) ⟨Table.shipped, []⟩ (.list [twice, twice])).run .empty).1 =
      .error (.failed (.depthLimit maxEvalDepth)) := by
  rfl

end Machine
end CapLisp
