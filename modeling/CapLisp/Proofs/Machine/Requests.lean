/-
# What an evaluation asks for

The call tree of an expression asks for the values of other expressions.  Which they
are, and under which table, is read off the tree (`CallTree.Asks`): a special form, an
operand list and a container ask for parts of the expression, under the table of the
expression (`CallTree.asks_ofExpr`).

A tree ends with a value or an error.  What holds of the end is stated for the errors
that are allowed (`Ends`), given that each answer is among them.  No tree makes the error
of an evaluation at the limit by itself, so the errors that are allowed are all errors or
all but that one.
-/

import CapLisp.Proofs.Headroom
import CapLisp.Proofs.Machine.Halting
import CapLisp.Proofs.Signatures

namespace CapLisp

/-- Tells that an outcome is a value of which `P` holds, or an allowed error. -/
def Ends {α : Type} (Allowed : Error → Prop) (P : α → Prop) : Except Error α → Prop
  | .ok a => P a
  | .error e => Allowed e

/-- Tells that an outcome is a value of which `P` holds, or an error other than that of an
evaluation at the limit. -/
abbrev BelowLimit {α : Type} (P : α → Prop) : Except Error α → Prop := Ends (· ≠ .depthLimit) P

/-- What ends below the limit ends with an allowed error, if all but one are allowed. -/
theorem Ends.mono {α : Type} {Allowed Allowed' : Error → Prop} {P : α → Prop}
    (hallowed : ∀ e, Allowed e → Allowed' e) {outcome : Except Error α}
    (h : Ends Allowed P outcome) : Ends Allowed' P outcome := by
  cases outcome with
  | ok a => exact h
  | error e => exact hallowed e h

/-- An operation never fails with the error of an evaluation at the limit. -/
theorem Operation.Raises.ne_depthLimit {op : Operation} {e : Error} (h : op.Raises e) :
    e ≠ .depthLimit := by
  rintro rfl
  -- It would name an operation, and evaluation is none.
  rcases h.label_eq with hkind | hlabel
  · cases hkind
  · revert hlabel
    cases op <;> decide

namespace SpecialForm

/-- What a definition evaluates is one of its operands. -/
theorem belowLimit_target (form : SpecialForm) (operands : List Value) :
    BelowLimit (fun target => target.2 ∈ operands) (form.target operands) := by
  unfold target
  split
  · exact List.mem_cons_of_mem _ (List.mem_singleton_self _)
  · rintro ⟨⟩
  · rintro ⟨⟩

/-- Quoting evaluates nothing. -/
theorem belowLimit_runQuote (operands : List Value) (b : Bindings) :
    BelowLimit (fun _ => True) ((runQuote operands).run b).1 := by
  unfold runQuote
  split
  · trivial
  · rintro ⟨⟩

/-- Making a closure evaluates nothing. -/
theorem belowLimit_runClosure (operands : List Value) (b : Bindings) :
    BelowLimit (fun _ => True) ((runClosure operands).run b).1 := by
  unfold runClosure
  split
  · split
    · rintro ⟨⟩
    · trivial
  · rintro ⟨⟩
  · rintro ⟨⟩

end SpecialForm

/-- The value of an atom is looked up, not evaluated. -/
theorem Eval.belowLimit_atom (ctx : Context) (name : String) (b : Bindings) :
    BelowLimit (fun _ => True) ((Eval.atom ctx name).run b).1 := by
  unfold Eval.atom
  split
  · trivial
  · rw [Action.run_bind]
    dsimp only [Action.run, Action.get]
    cases b.env.lookup name with
    | some value => trivial
    | none => rintro ⟨⟩

/-- A call stands under the table of its caller. -/
theorem Context.table_forCall (ctx : Context) (func : Value) (args : List Value) :
    (ctx.forCall func args).table = ctx.table := by
  obtain ⟨table, held⟩ := ctx
  obtain ⟨held', h⟩ := exists_forCall_eq table held func args
  rw [h]

namespace CallTree

variable {α β : Type}

/-- Tells that a tree asks for nothing but expressions for which `Good` holds, under the
given table, and ends with an allowed error or a value of which `P` holds, if the errors
that it is answered with are allowed. -/
def Asks (table : Table) (Good : Value → Prop) (Allowed : Error → Prop) (P : α → Prop) :
    CallTree α → Prop
  | done outcome => Ends Allowed P outcome
  | get next => ∀ b, Asks table Good Allowed P (next b)
  | put _ next => Asks table Good Allowed P next
  | eval ctx expr next => ctx.table = table ∧ Good expr ∧
    ∀ outcome, Ends Allowed (fun _ => True) outcome → Asks table Good Allowed P (next outcome)

/-- What holds of the end of a tree: an application is left to do under the table. -/
def Tail.Under (table : Table) : Tail → Prop
  | .value _ => True
  | .apply ctx _ _ => ctx.table = table

section

variable {table : Table} {Good : Value → Prop} {Allowed : Error → Prop} {P : α → Prop}
  {Q : β → Prop}

/-- What a tree goes on with, error or value, is asked for as well. -/
theorem Asks.andThen {x : CallTree α} {next : Except Error α → CallTree β}
    (hx : x.Asks table Good Allowed P)
    (hnext : ∀ outcome, Ends Allowed P outcome → (next outcome).Asks table Good Allowed Q) :
    (x.andThen next).Asks table Good Allowed Q := by
  induction x with
  | done outcome => exact hnext outcome hx
  | get more ih => exact fun b => ih b (hx b)
  | put b more ih => exact ih hx
  | eval ctx expr more ih =>
    exact ⟨hx.1, hx.2.1, fun outcome houtcome => ih outcome (hx.2.2 outcome houtcome)⟩

/-- One tree after another asks for what the two ask for. -/
theorem Asks.bind {x : CallTree α} {next : α → CallTree β} (hx : x.Asks table Good Allowed P)
    (hnext : ∀ a, P a → (next a).Asks table Good Allowed Q) :
    (x >>= next).Asks table Good Allowed Q :=
  hx.andThen fun
    | .ok a, ha => hnext a ha
    | .error _, he => he

/-- Ending with a value asks for nothing. -/
theorem Asks.pure {a : α} (h : P a) : (Pure.pure a : CallTree α).Asks table Good Allowed P := h

/-- Ending with an error asks for nothing. -/
theorem Asks.fail {e : Error} (h : Allowed e) :
    (CallTree.fail e : CallTree α).Asks table Good Allowed P := h

/-- An action asks for nothing. -/
theorem Asks.lift {x : Action α} (h : ∀ b, Ends Allowed (fun _ => True) (x.run b).1) :
    (CallTree.lift x).Asks table Good Allowed fun _ => True := fun b => h b

/-- Reading the bindings asks for nothing. -/
theorem asks_get : (CallTree.lift Action.get).Asks table Good Allowed fun _ => True :=
  fun _ => trivial

/-- Defining a name asks for nothing. -/
theorem asks_define (name : String) (value : Value) :
    (CallTree.lift (Action.define name value)).Asks table Good Allowed fun _ => True :=
  fun _ => trivial

/-- In another environment a tree asks for the same. -/
theorem Asks.within {x : CallTree α} (hx : x.Asks table Good Allowed P) (env : Env Value) :
    (CallTree.within env x).Asks table Good Allowed P :=
  fun _ => hx.andThen fun _ houtcome _ => houtcome

/-- A tree whose value is the end leaves no application. -/
theorem Asks.toTail {x : CallTree Value} {P : Value → Prop} (hx : x.Asks table Good Allowed P) :
    (toTail x).Asks table Good Allowed (Tail.Under table) :=
  hx.andThen fun
    | .ok _, _ => trivial
    | .error _, he => he

/-! ### The trees of the evaluator -/

variable {ctx : Context}

/-- An operation asks for nothing. -/
theorem asks_operation (hallowed : ∀ e, e ≠ .depthLimit → Allowed e) {op : Operation}
    {args : List Value} (hfits : op.Fits args) :
    (ofCall ctx (.operation op args)).Asks table Good Allowed fun _ => True := by
  refine .lift fun b => ?_
  have haccepted := Operation.accepted_run hfits b
  dsimp only [Action.run]
  cases hrun : op.run b args with
  | ok r => trivial
  | error e => exact hallowed e (haccepted e hrun).ne_depthLimit

variable (hallowed : ∀ e, e ≠ .depthLimit → Allowed e) (htable : ctx.table = table)

include htable

/-- An evaluation asks for its expression. -/
theorem asks_evaluate {expr : Value} (h : Good expr) :
    (evaluate ctx expr).Asks table Good Allowed fun _ => True :=
  ⟨htable, h, fun outcome houtcome => by cases outcome <;> exact houtcome⟩

/-- An operand list asks for the operands. -/
theorem asks_evalAll {exprs : List Value} (h : ∀ expr ∈ exprs, Good expr) :
    (evalAll ctx exprs).Asks table Good Allowed fun _ => True := by
  induction exprs generalizing ctx with
  | nil => trivial
  | cons expr rest ih =>
    obtain ⟨hexpr, hrest⟩ := List.forall_mem_cons.1 h
    refine (asks_evaluate htable hexpr).bind fun value _ => ?_
    have hvalues := ih (show (ctx.hold value).table = table from htable) hrest
    exact hvalues.bind fun _ _ => .pure trivial

/-- A body asks for its forms. -/
theorem asks_evalBody (last : Value) {forms : List Value} (h : ∀ form ∈ forms, Good form) :
    (evalBody ctx last forms).Asks table Good Allowed fun _ => True := by
  induction forms generalizing last with
  | nil => trivial
  | cons form rest ih =>
    obtain ⟨hform, hrest⟩ := List.forall_mem_cons.1 h
    exact (asks_evaluate htable hform).bind fun value _ => ih value hrest

/-- A dict asks for its keys and values. -/
theorem asks_entries (made : Dict) {dict : Dict} (h : ∀ v ∈ Value.entryParts dict, Good v) :
    (entries ctx made dict).Asks table Good Allowed fun _ => True := by
  induction dict generalizing made with
  | nil => trivial
  | cons entry rest ih =>
    obtain ⟨hkey, h⟩ := List.forall_mem_cons.1 h
    obtain ⟨hvalue, hrest⟩ := List.forall_mem_cons.1 h
    refine (asks_evaluate htable hkey).bind fun key _ => ?_
    exact (asks_evaluate htable hvalue).bind fun value _ => ih _ hrest

/-- The clauses of a `cond` ask for their tests and expressions. -/
theorem asks_runClauses (operands : List Value) (h : ∀ v ∈ operands, Good v) :
    (runClauses ctx operands).Asks table Good Allowed fun _ => True := by
  match operands with
  | [] | [_] => trivial
  | test :: expr :: rest =>
    obtain ⟨htest, h⟩ := List.forall_mem_cons.1 h
    obtain ⟨hexpr, hrest⟩ := List.forall_mem_cons.1 h
    refine (asks_evaluate htable htest).bind fun value _ => ?_
    split
    · exact asks_evaluate htable hexpr
    · exact asks_runClauses rest hrest

section

variable {operands : List Value} (h : ∀ v ∈ operands, Good v)

include h

/-- The forms of a module are asked for in turn. -/
theorem asks_runForms : (runForms ctx operands).Asks table Good Allowed fun _ => True := by
  induction operands with
  | nil => trivial
  | cons form rest ih =>
    obtain ⟨hform, hrest⟩ := List.forall_mem_cons.1 h
    exact (asks_evaluate htable hform).bind fun _ _ => ih hrest

include hallowed

/-- A `def` asks for its second operand. -/
theorem asks_runDefine : (runDefine ctx operands).Asks table Good Allowed fun _ => True := by
  have htarget := (SpecialForm.belowLimit_target .define operands).mono hallowed
  refine Asks.bind htarget fun target hmem => ?_
  refine (asks_evaluate htable (h _ hmem)).bind fun value _ => ?_
  exact (asks_define target.1 value).bind fun _ _ => .pure trivial

/-- So does a `def-rec`. -/
theorem asks_runDefineRec :
    (runDefineRec ctx operands).Asks table Good Allowed fun _ => True := by
  have htarget := (SpecialForm.belowLimit_target .defineRec operands).mono hallowed
  refine Asks.bind htarget fun target hmem => ?_
  refine (asks_evaluate htable (h _ hmem)).bind fun value _ => ?_
  cases value with
  | lambda fn =>
    refine asks_get.bind fun b _ => ?_
    split
    · exact .fail (hallowed _ (by rintro ⟨⟩))
    · exact (asks_define target.1 _).bind fun _ _ => .pure trivial
  | _ => exact .fail (hallowed _ (by rintro ⟨⟩))

/-- An `if` asks for its test and for one of its branches. -/
theorem asks_runBranch : (runBranch ctx operands).Asks table Good Allowed fun _ => True := by
  unfold runBranch
  split
  · next test yes no =>
    obtain ⟨htest, h⟩ := List.forall_mem_cons.1 h
    obtain ⟨hyes, h⟩ := List.forall_mem_cons.1 h
    refine (asks_evaluate htable htest).bind fun value _ => ?_
    split
    · exact asks_evaluate htable hyes
    · exact asks_evaluate htable (List.forall_mem_singleton.1 h)
  · exact .fail (hallowed _ (by rintro ⟨⟩))

/-- A `cond` asks for what its clauses ask for. -/
theorem asks_runCond : (runCond ctx operands).Asks table Good Allowed fun _ => True := by
  unfold runCond
  split
  · exact asks_runClauses htable operands h
  · exact .fail (hallowed _ (by rintro ⟨⟩))

/-- A `module` asks for its metadata and its forms. -/
theorem asks_runModule : (runModule ctx operands).Asks table Good Allowed fun _ => True := by
  cases operands with
  | nil => exact .fail (hallowed _ (by rintro ⟨⟩))
  | cons metadata forms =>
    obtain ⟨hmetadata, hforms⟩ := List.forall_mem_cons.1 h
    refine (asks_evaluate htable hmetadata).bind fun value _ => ?_
    cases SpecialForm.Metadata.ofValue value with
    | error fault => exact .fail (hallowed _ (by rintro ⟨⟩))
    | ok info =>
      refine asks_get.bind fun b _ => ?_
      have hinner : (ctx.holdAll [value, .env b.env]).table = table := htable
      have hbody : (do
          runForms (ctx.holdAll [value, .env b.env]) forms
          return (← lift Action.get).env).Asks table Good Allowed fun _ => True :=
        (asks_runForms hinner hforms).bind fun _ _ => asks_get.bind fun _ _ => .pure trivial
      refine (hbody.within _).bind fun env _ => ?_
      split
      · exact .pure trivial
      · exact .fail (hallowed _ (by rintro ⟨⟩))

/-- **A special form asks for nothing but operands.** -/
theorem asks_ofForm (form : SpecialForm) :
    (ofForm ctx operands form).Asks table Good Allowed fun _ => True := by
  cases form with
  | closure =>
    exact .lift fun b => (SpecialForm.belowLimit_runClosure operands b).mono hallowed
  | quote => exact .lift fun b => (SpecialForm.belowLimit_runQuote operands b).mono hallowed
  | define => exact asks_runDefine hallowed htable h
  | defineRec => exact asks_runDefineRec hallowed htable h
  | sequence => exact asks_evalBody htable .null h
  | branch => exact asks_runBranch hallowed htable h
  | cond => exact asks_runCond hallowed htable h
  | module => exact asks_runModule hallowed htable h

end

include hallowed

/-- **What the evaluation of an expression asks for is a part of the expression.** -/
theorem asks_ofExpr {expr : Value} (h : ∀ v ∈ expr.parts, Good v) :
    (ofExpr ctx expr).Asks table Good Allowed (Tail.Under table) := by
  cases expr with
  | atom name =>
    exact Asks.toTail (.lift fun b => (Eval.belowLimit_atom ctx name b).mono hallowed)
  | list items =>
    cases items with
    | nil => exact .fail (hallowed _ (by rintro ⟨⟩))
    | cons head operands =>
      obtain ⟨hhead, hoperands⟩ := List.forall_mem_cons.1 h
      rw [ofExpr]
      split
      · next form _ => exact (asks_ofForm hallowed htable hoperands form).toTail
      · refine (asks_evaluate htable hhead).bind fun func _ => ?_
        have hheld : (ctx.hold func).table = table := htable
        have hargs : (evalAll (ctx.hold func) operands).Asks table Good Allowed fun _ => True :=
          asks_evalAll hheld hoperands
        exact hargs.bind fun args _ => .pure ((Context.table_forCall ctx func args).trans htable)
  | vector items => exact (asks_evalAll htable h).bind fun _ _ => .pure trivial
  | dict entries => exact (asks_entries htable [] h).bind fun _ _ => .pure trivial
  | _ => exact .pure trivial

end

end CallTree
end CapLisp
