/-
# A form that is read nests no deeper than evaluations may

The reader counts how deep lists, vectors and dicts nest, and refuses what nests too
deep.  The evaluator counts how many evaluations are open, and refuses one too many.
The limits are apart, and nothing compares a form with the second one before it is
evaluated.

They agree because of what the evaluator asks for.  Whatever a special form, an operand
list or a container evaluates is a part of it (`CallTree.asks_ofExpr`), and a part nests
one level less.  So the nesting of the expression that is asked for and the number of
evaluations that are open never come to more than the nesting of the whole form
(`Machine.Shallow`).  Two things are evaluated that are no part of an expression: the
body of a closure, and the expression that `base-eval` is given.  Up to the first of them
(`Machine.ReachesQuietly`) a form that was read is never refused for its depth.
-/

import CapLisp.Proofs.Machine.Requests
import CapLisp.Proofs.Syntax

namespace CapLisp

namespace Call

/-- What one level of an application under a shipped table can come to: an operation has
arguments that it reads, and there are no procedures. -/
def Level.Shipped : Level → Prop
  | .call (.operation op args) => op.Fits args
  | .call (.procedure _ _) => False
  | _ => True

/-- Tells whether a level of an application evaluates something: the body of a closure or
the expression of `base-eval`. -/
def Level.evaluates : Level → Bool
  | .call (.body _ _) => true
  | .call (.nested _ _) => true
  | _ => false

/-- Entering a closure gives its body or an error, but not that of an evaluation at the limit. -/
theorem belowLimit_enter (scope : Chain Value) (fn : Closure Value) (args : List Value) :
    BelowLimit Level.Shipped ((enter scope fn args).map .call) := by
  rw [enter]
  split
  · trivial
  · rintro ⟨⟩

/-- **An application is resolved below the limit.** -/
theorem belowLimit_resolveOnce {table : Table} (htable : table ⊆ Table.shipped)
    (args : List Value) (func : Value) :
    BelowLimit Level.Shipped (resolveOnce table args func) := by
  cases func with
  | lambda fn => exact belowLimit_enter fn.scope fn args
  | lambdaRec name fn => exact belowLimit_enter ((name, .lambdaRec name fn) :: fn.scope) fn args
  | primFn name =>
    rw [resolveOnce]
    cases hfind : table.find? name with
    | none => rintro ⟨⟩
    | some p =>
      cases hcheck : p.check args with
      | error e =>
        simp only [hcheck]
        rcases Signature.check_eq_error hcheck with ⟨_, _, rfl⟩ | ⟨_, _, rfl⟩ <;> rintro ⟨⟩
      | ok _ =>
        simp only [hcheck]
        cases Primitive.fits_of_check hcheck with
        | baseEval | apply_list | apply_vector => trivial
        | operation hfits => exact hfits
        | host =>
          exact absurd (List.mem_of_find?_eq_some hfind) (Table.host_not_mem_of_subset htable)
  | _ => rintro ⟨⟩

end Call

namespace CallTree

/-- **An application that evaluates nothing asks for nothing.** -/
theorem asks_ofApplication {table : Table} {Good : Value → Prop} {ctx : Context}
    (htable : ctx.table = table) (hshipped : table ⊆ Table.shipped) {func : Value}
    {args : List Value}
    (hquiet : ∀ level, Call.resolveOnce ctx.table args func = .ok level →
      level.evaluates = false) :
    (ofApplication ctx func args).Asks table Good (· ≠ .depthLimit) (Tail.Under table) := by
  subst htable
  have hresolve := Call.belowLimit_resolveOnce hshipped args func
  unfold ofApplication
  cases honce : Call.resolveOnce ctx.table args func with
  | error e =>
    rw [honce] at hresolve
    exact .fail hresolve
  | ok level =>
    rw [honce] at hresolve
    have hlevel := hquiet level honce
    -- What is left of the levels are operations and further applications.
    match level with
    | .apply func args => exact .pure rfl
    | .call (.operation op args) => exact (asks_operation (fun _ he => he) hresolve).toTail
    | .call (.procedure p args) => exact hresolve.elim
    | .call (.body scope bodies) => cases hlevel
    | .call (.nested expr s) => cases hlevel

end CallTree

namespace Value

/-- Tells that an expression stands inside a form, and that with `depth` levels above it
it nests no deeper than the form. -/
structure Below (form : Value) (depth : Nat) (expr : Value) : Prop where
  inside : Inside expr form
  nesting_le : expr.nesting + depth ≤ form.nesting

variable {form expr : Value} {depth : Nat}

/-- What stands below a form stands at a depth less than its nesting. -/
theorem Below.depth_lt (h : form.Below depth expr) : depth < form.nesting := by
  have hpos := one_le_nesting expr
  have hle := h.nesting_le
  omega

/-- The parts of an expression stand a level further down. -/
theorem Below.parts (hform : form.Syntactic) (h : form.Below depth expr) :
    ∀ v ∈ expr.parts, form.Below (depth + 1) v := by
  intro v hv
  refine ⟨h.inside.trans (.part hv .here), ?_⟩
  have hsyntax : expr.isSyntax = true := everywhere_iff_inside.1 hform expr h.inside
  have hpos := Nat.one_le_iff_ne_zero.1 (one_le_nesting expr)
  obtain ⟨n, hn⟩ := Nat.exists_eq_add_one_of_ne_zero hpos
  have hpart := (nesting_le_succ_iff hsyntax).1 hn.le v hv
  have hle := h.nesting_le
  omega

end Value

namespace Machine

open CallTree

/-- Tells whether a machine is about to evaluate what is no part of the expression that is
being evaluated: the body of a closure or the expression of `base-eval`. -/
def enters (m : Machine) : Bool :=
  match m.tree with
  | .done (.ok (.apply ctx func args)) =>
    match Call.resolveOnce ctx.table args func with
    | .ok level => level.evaluates
    | .error _ => false
  | _ => false

/-- Tells that a machine comes to another one, and up to there calls no closure and
evaluates nothing for `base-eval`. -/
def ReachesQuietly : Machine → Machine → Prop :=
  Relation.ReflTransGen fun m m' => m.enters = false ∧ m.step = some m'

/-- Tells that the waiting trees ask for nothing but what stands below their own depth. -/
def Waits (table : Table) (form : Value) : Stack → Prop
  | [] => True
  | next :: stack =>
    (∀ outcome, BelowLimit (fun _ => True) outcome →
      (next outcome).Asks table (form.Below stack.length) (· ≠ .depthLimit) (Tail.Under table)) ∧
    Waits table form stack

/-- Tells that a machine asks for nothing but what stands so far down in a form as there
are evaluations open, now or when it goes on with the trees that wait. -/
structure Shallow (table : Table) (form : Value) (m : Machine) : Prop where
  depth_eq : m.depth = m.stack.length
  tree : m.tree.Asks table (form.Below m.depth) (· ≠ .depthLimit) (Tail.Under table)
  stack : Waits table form m.stack

section

variable {table : Table} {form : Value} {m m' : Machine}

/-- The machine that evaluates a form starts out shallow. -/
theorem shallow_ofEval (table : Table) (held : List Value) (form : Value) (b : Bindings) :
    (ofEval 0 ⟨table, held⟩ form b).Shallow table form where
  depth_eq := rfl
  tree := ⟨rfl, ⟨.here, le_rfl⟩, fun
    | .ok _, _ => trivial
    | .error _, he => he⟩
  stack := trivial

/-- An evaluation that ends below the limit goes back to a tree that waits. -/
theorem Shallow.leave {outcome : Except Error Value} (h : m.Shallow table form)
    (houtcome : BelowLimit (fun _ => True) outcome) (hleave : m.leave outcome = some m') :
    m'.Shallow table form := by
  obtain ⟨depth, tree, b, stack⟩ := m
  cases stack with
  | nil => cases hleave
  | cons next stack =>
    cases hleave
    have hdepth : depth - 1 = stack.length := by
      have := h.depth_eq
      simp only [List.length_cons] at this
      omega
    refine ⟨hdepth, ?_, h.stack.2⟩
    rw [hdepth]
    exact h.stack.1 outcome houtcome

/-- **A step asks for nothing further up**, unless it enters something. -/
theorem Shallow.step (hshipped : table ⊆ Table.shipped) (hform : form.Syntactic)
    (hlimit : form.nesting ≤ maxEvalDepth) (h : m.Shallow table form) (hquiet : m.enters = false)
    (hstep : m.step = some m') : m'.Shallow table form := by
  obtain ⟨depth, tree, b, stack⟩ := m
  have htree := h.tree
  match tree with
  | .get next =>
    cases hstep
    exact ⟨h.depth_eq, htree b, h.stack⟩
  | .put b' next =>
    cases hstep
    exact ⟨h.depth_eq, htree, h.stack⟩
  | .eval ctx expr next =>
    -- The request is taken up: the expression nests, so it stands below the limit.
    obtain ⟨htable, hexpr, hnext⟩ := htree
    have hbelow : depth < maxEvalDepth := hexpr.depth_lt.trans_le hlimit
    rw [step_eval hbelow] at hstep
    cases hstep
    refine ⟨congrArg (· + 1) h.depth_eq,
      asks_ofExpr (fun _ he => he) htable (hexpr.parts hform), ?_, h.stack⟩
    rw [← show depth = stack.length from h.depth_eq]
    exact hnext
  | .done (.ok (.apply ctx func args)) =>
    cases hstep
    refine ⟨h.depth_eq, asks_ofApplication htree hshipped fun level honce => ?_, h.stack⟩
    simpa only [enters, honce] using hquiet
  | .done (.ok (.value v)) =>
    have hvalue : BelowLimit (fun _ => True) (.ok v : Except Error Value) := trivial
    exact h.leave hvalue hstep
  | .done (.error e) =>
    have herror : BelowLimit (fun _ => True) (.error e : Except Error Value) := htree
    exact h.leave herror hstep

/-- **A run asks for nothing further up**, as long as it enters nothing. -/
theorem Shallow.reachesQuietly (hshipped : table ⊆ Table.shipped) (hform : form.Syntactic)
    (hlimit : form.nesting ≤ maxEvalDepth) (h : m.Shallow table form)
    (hreach : m.ReachesQuietly m') : m'.Shallow table form := by
  induction hreach with
  | refl => exact h
  | tail _ hstep ih => exact ih.step hshipped hform hlimit hstep.1 hstep.2

/-- A run that never enters anything is quiet. -/
theorem Reaches.quietly (h : m.Reaches m') (hquiet : ∀ m', m.Reaches m' → m'.enters = false) :
    m.ReachesQuietly m' := by
  induction h with
  | refl => exact .refl
  | tail hreach hstep ih => exact ih.tail ⟨hquiet _ hreach, hstep⟩

/-- Runs a machine and tells whether it stands still within the given number of steps and
has entered nothing up to there. -/
def isQuiet : (steps : Nat) → Machine → Bool
  | 0, _ => false
  | steps + 1, m => !m.enters && m.step.all (isQuiet steps)

/-- A run that was checked to be quiet enters nothing on its way. -/
theorem enters_of_isQuiet (steps : Nat) (h : isQuiet steps m = true) (hreach : m.Reaches m') :
    m'.enters = false := by
  induction steps generalizing m with
  | zero => cases h
  | succ steps ih =>
    rw [isQuiet, Bool.and_eq_true, Bool.not_eq_true'] at h
    rcases Relation.ReflTransGen.cases_head hreach with rfl | ⟨next, hstep, hreach⟩
    · exact h.1
    · exact ih (by simpa [hstep] using h.2) hreach

end
end Machine

/-- A form that a text is read as, alone or among others, is spelled within the limits. -/
theorem spelledWithin_of_read {config : Reader.Config} {source : String} {form : Value}
    (h : readWith config source = .ok form ∨
      ∃ forms, readProgramWith config source = .ok forms ∧ form ∈ forms) :
    form.SpelledWithin config.maxDepth := by
  rcases h with h | ⟨forms, h, hmem⟩
  · exact spelled_readWith h
  · exact spelled_readProgramWith h form hmem

/-- **Readable code never exhausts the depth by itself.**  Take a form that is read with a
limit on its nesting that is no higher than the limit on the depth of evaluations, any
table of shipped primitives and any bindings, and evaluate the form from depth zero.  As
long as no closure is called and `base-eval` evaluates nothing, what is evaluated stands
inside the form, at a depth below the nesting of the form.  If that is never done, the
evaluation does not end with the error of the depth limit. -/
theorem read_form_stays_shallow {config : Reader.Config} (hdepth : config.maxDepth ≤ maxEvalDepth)
    {source : String} {form : Value}
    (hread : readWith config source = .ok form ∨
      ∃ forms, readProgramWith config source = .ok forms ∧ form ∈ forms)
    {table : Table} (hshipped : table ⊆ Table.shipped) (held : List Value) (b : Bindings) :
    let start := Machine.ofEval 0 ⟨table, held⟩ form b
    let r := (Eval.eval maxEvalDepth ⟨table, held⟩ form).run b
    form.nesting ≤ config.maxDepth ∧ start.HaltsWith r ∧
    (∀ m, start.ReachesQuietly m → ∀ ctx expr next, m.tree = .eval ctx expr next →
      m.depth < form.nesting ∧ form.Below m.depth expr) ∧
    ((∀ m, start.Reaches m → m.enters = false) → r.1 ≠ .error .depthLimit) := by
  intro start r
  have hform := spelledWithin_of_read hread
  have hsyntactic : form.Syntactic :=
    Value.Everywhere.mono (fun _ => Value.isSyntax_of_isSpelled) hform.spelled
  have hlimit : form.nesting ≤ maxEvalDepth := hform.nesting_le.trans hdepth
  have hshallow : ∀ m, start.ReachesQuietly m → m.Shallow table form := fun m =>
    (Machine.shallow_ofEval table held form b).reachesQuietly hshipped hsyntactic hlimit
  have hhalts : start.HaltsWith r :=
    Machine.haltsWith rfl (Machine.answers_eval rfl ⟨table, held⟩ form _ b [])
  refine ⟨hform.nesting_le, hhalts, fun m hreach ctx expr next hm => ?_, fun hquiet hend => ?_⟩
  · have htree := (hshallow m hreach).tree
    rw [hm] at htree
    exact ⟨htree.2.1.depth_lt, htree.2.1⟩
  · -- The machine that stands still is shallow, too, and so it ends below the limit.
    have htree := (hshallow _ (hhalts.reaches.quietly hquiet)).tree
    rw [Machine.ending, hend] at htree
    exact htree rfl

/-- Every kind of container, a definition, a branch and a call by `apply`. -/
theorem read_form_stays_shallow_branch :
    let source := "(do (def x [1 'y]) (if (eq? x x) \x7b:a (apply + [1 2])\x7d (x)))"
    let form : Value := .list [.atom "do",
      .list [.atom "def", .atom "x", .vector [.number 1, .quoted (.atom "y")]],
      .list [.atom "if", .list [.atom "eq?", .atom "x", .atom "x"],
        .dict [(.keyword "a", .list [.atom "apply", .atom "+", .vector [.number 1, .number 2]])],
        .list [.atom "x"]]]
    let start := Machine.ofEval 0 ⟨Table.shipped, []⟩ form .empty
    let r := (Eval.eval maxEvalDepth ⟨Table.shipped, []⟩ form).run .empty
    6 ≤ maxEvalDepth ∧ readWith ⟨true, 6⟩ source = .ok form ∧
      (∀ m, start.Reaches m → m.enters = false) ∧ start.HaltsWith r ∧
      form.nesting = 6 ∧ r.1 = .ok (.dict [(.keyword "a", .number 3)]) ∧
      r.1 ≠ .error .depthLimit := by
  have hread : readWith ⟨true, 6⟩
      "(do (def x [1 'y]) (if (eq? x x) \x7b:a (apply + [1 2])\x7d (x)))" = .ok (.list [.atom "do",
    .list [.atom "def", .atom "x", .vector [.number 1, .quoted (.atom "y")]],
    .list [.atom "if", .list [.atom "eq?", .atom "x", .atom "x"],
      .dict [(.keyword "a", .list [.atom "apply", .atom "+", .vector [.number 1, .number 2]])],
      .list [.atom "x"]]]) := rfl
  intro source form start r
  have hquiet : ∀ m, start.Reaches m → m.enters = false := fun m hreach =>
    Machine.enters_of_isQuiet 200 (by decide +kernel) hreach
  have hlimit : 6 ≤ maxEvalDepth := by decide
  obtain ⟨-, hhalts, -, hend⟩ :=
    read_form_stays_shallow hlimit (.inl hread) (List.Subset.refl Table.shipped) [] .empty
  exact ⟨hlimit, hread, hquiet, hhalts, by decide +kernel, by rfl, hend hquiet⟩

end CapLisp
