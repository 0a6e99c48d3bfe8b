/-
# Special forms stay within the limit

What a form builds, it builds from its operands, from what they evaluate to
and from the environment: a closure captures the environment frozen, a module
hands out the environment that its forms build (`keeps_specialForm`).
-/

import CapLisp.Proofs.Invariant.Call
import CapLisp.Proofs.Metadata

namespace CapLisp
namespace Invariant

open SpecialForm

variable {table : Table} {I : Invariant table} {n : Stage} {eval : Evaluator}
  {held held' : List Value}

/-- Making a closure of good operands coincides whatever is held. -/
theorem coincide_runClosure {operands : List Value} (h : ∀ v ∈ operands, I.Good n v) :
    I.Coincide n I.Good (runClosure operands) (runClosure operands) := by
  fun_cases runClosure operands with
  | case1 items body bodies fault hparams => exact .fail trivial
  | case2 items body bodies params hparams =>
    refine .get_bind fun b hb hs => .bind Keeps.nextSerial.coincide
      fun m serial hbm hserial => .pure fun k hmk => ?_
    obtain ⟨hlate, hfirst, hnext⟩ := hserial
    -- Everything in the closure was there when its number was given out.
    have hbefore : b.stage ≤ ⟨b.stage.slots, serial⟩ := ⟨le_rfl, hlate⟩
    have hafter : (⟨b.stage.slots, serial + 1⟩ : Stage) ≤ k :=
      ⟨hbm.1.trans hmk.1, hnext.trans hmk.2⟩
    have hinside : Value.EverywhereInClosure (I.value ⟨b.stage.slots, serial⟩)
        ⟨serial, params, body :: bodies, b.env.freeze⟩ := by
      constructor
      · intro v hv
        exact (h v (List.mem_cons_of_mem _ hv)).mono (hb.trans hbefore)
      · intro v hv
        exact (hs.env.2 v (Env.mem_values_of_mem_freeze hv)).mono hbefore
    have hnew : I.value ⟨b.stage.slots, serial + 1⟩
        (.lambda ⟨serial, params, body :: bodies, b.env.freeze⟩) := I.lambda rfl hfirst hinside
    have hstep : (⟨b.stage.slots, serial⟩ : Stage) ≤ ⟨b.stage.slots, serial + 1⟩ :=
      ⟨le_rfl, Nat.le_succ serial⟩
    refine Good.mono hafter (Value.everywhere_lambda.2 ⟨hnew, ?_⟩)
    exact hinside.imp fun _ => I.mono hstep
  | case3 => exact .fail trivial
  | case4 => exact .fail trivial

/-- Quoting a good operand coincides whatever is held. -/
theorem coincide_runQuote {operands : List Value} (h : ∀ v ∈ operands, I.Good n v) :
    I.Coincide n I.Good (runQuote operands) (runQuote operands) := by
  fun_cases runQuote operands with
  | case1 form => exact .pure fun m hnm => (h form (by simp)).mono hnm
  | case2 => exact .fail trivial

/-- The target of a definition is good if the operands are. -/
theorem goodOutcome_target {form : SpecialForm} {operands : List Value}
    (h : ∀ v ∈ operands, I.Good n v) :
    I.GoodOutcome (fun m target => I.Good m target.2) n (form.target operands) := by
  fun_cases target form operands with
  | case1 name expr => exact h expr (by simp)
  | case2 => trivial
  | case3 => trivial

/-- Picking the target coincides whatever is held. -/
theorem coincide_target {form : SpecialForm} {operands : List Value}
    (h : ∀ v ∈ operands, I.Good n v) :
    I.Coincide n (fun m target => I.Good m target.2) (Action.ofExcept (form.target operands))
      (Action.ofExcept (form.target operands)) := by
  refine Keeps.coincide (.ofExcept fun _ hnm => ?_)
  exact (goodOutcome_target h).mono (fun hmn _ => Good.mono hmn) hnm

/-- Null is good. -/
theorem good_null : I.Good n .null := good_of_isData rfl rfl

/-- A definition coincides if evaluation does. -/
theorem coincide_runDefine (heval : I.CoincideEval eval) (hheld : I.HeldAlike held held')
    {operands : List Value} (h : ∀ v ∈ operands, I.Good n v) :
    I.Coincide n I.Good (runDefine eval ⟨table, held⟩ operands)
      (runDefine eval ⟨table, held'⟩ operands) := by
  refine .bind (coincide_target h) fun m target _ htarget => ?_
  refine .bind (heval m _ _ target.2 hheld htarget) fun k value _ hvalue => ?_
  exact .bind (.define hvalue) fun _ _ _ _ => .pure fun _ _ => good_null

/-- A closure that becomes recursive has the code and the scope that it had. -/
theorem Good.lambdaRec {fn : Closure Value} (h : I.Good n (.lambda fn)) (name : String) :
    I.Good n (.lambdaRec name fn) :=
  Value.everywhere_lambdaRec.2 ⟨I.lambdaRec h.here, (Value.everywhere_lambda.1 h).2⟩

/-- A form that asks whether its closure is held gets the same answer beside alike
held values. -/
theorem HeldAlike.holds_eq (hheld : I.HeldAlike held held')
    (hname : I.value n (.atom defineRec.name)) {fn : Closure Value}
    (hfn : I.Good n (.lambda fn)) (b : Bindings) :
    Context.holds fn.serial b ⟨table, held⟩ = Context.holds fn.serial b ⟨table, held'⟩ := by
  rw [Context.holds, Context.holds, Value.isHeldBy_eq, Value.isHeldBy_eq, List.any_cons,
    List.any_cons, hheld n fn hname hfn]

/-- A recursive definition coincides if evaluation does and what is held is held alike. -/
theorem coincide_runDefineRec (heval : I.CoincideEval eval) (hheld : I.HeldAlike held held')
    (hname : I.value n (.atom defineRec.name)) {operands : List Value}
    (h : ∀ v ∈ operands, I.Good n v) :
    I.Coincide n I.Good (runDefineRec eval ⟨table, held⟩ operands)
      (runDefineRec eval ⟨table, held'⟩ operands) := by
  refine .bind (coincide_target h) fun m target hnm htarget => ?_
  refine .bind (heval m _ _ target.2 hheld htarget) fun k value hmk hvalue => ?_
  cases value with
  | lambda fn =>
    refine .get_bind fun b hb _ => ?_
    rw [hheld.holds_eq (I.mono (hnm.trans hmk) hname) hvalue b]
    split
    · exact .fail trivial
    · have hrec := (hvalue.mono hb).lambdaRec target.1
      exact .bind (.define hrec) fun _ _ _ _ => .pure fun _ _ => good_null
  | _ => exact .fail trivial

/-- A branch coincides if evaluation does. -/
theorem coincide_runBranch (heval : I.CoincideEval eval) (hheld : I.HeldAlike held held')
    {operands : List Value} (h : ∀ v ∈ operands, I.Good n v) :
    I.Coincide n I.Good (runBranch eval ⟨table, held⟩ operands)
      (runBranch eval ⟨table, held'⟩ operands) := by
  match operands with
  | [test, yes, no] =>
    refine .bind (heval n _ _ test hheld (h test (by simp))) fun m value hnm _ => ?_
    split
    · exact heval m _ _ yes hheld ((h yes (by simp)).mono hnm)
    · exact heval m _ _ no hheld ((h no (by simp)).mono hnm)
  | [] | [_] | [_, _] | _ :: _ :: _ :: _ :: _ => exact .fail trivial

/-- The clauses of a conditional coincide if evaluation does. -/
theorem coincide_runClauses (heval : I.CoincideEval eval) (hheld : I.HeldAlike held held')
    {operands : List Value} (h : ∀ v ∈ operands, I.Good n v) :
    I.Coincide n I.Good (runClauses eval ⟨table, held⟩ operands)
      (runClauses eval ⟨table, held'⟩ operands) := by
  induction operands using runClauses.induct generalizing n with
  | case1 test expr rest ih =>
    refine .bind (heval n _ _ test hheld (h test (by simp))) fun m value hnm _ => ?_
    split
    · exact heval m _ _ expr hheld ((h expr (by simp)).mono hnm)
    · exact ih fun v hv => (h v (by simp [hv])).mono hnm
  | case2 operands hno =>
    rw [runClauses.eq_2 _ _ _ hno, runClauses.eq_2 _ _ _ hno]
    exact .pure fun _ _ => good_null

/-- A conditional coincides if evaluation does. -/
theorem coincide_runCond (heval : I.CoincideEval eval) (hheld : I.HeldAlike held held')
    {operands : List Value} (h : ∀ v ∈ operands, I.Good n v) :
    I.Coincide n I.Good (runCond eval ⟨table, held⟩ operands)
      (runCond eval ⟨table, held'⟩ operands) := by
  unfold runCond
  split
  · exact coincide_runClauses heval hheld h
  · exact .fail trivial

/-- The forms of a module coincide if evaluation does. -/
theorem coincide_runForms (heval : I.CoincideEval eval) (hheld : I.HeldAlike held held')
    {forms : List Value} (h : ∀ v ∈ forms, I.Good n v) :
    I.Coincide n (fun _ _ => True) (runForms eval ⟨table, held⟩ forms)
      (runForms eval ⟨table, held'⟩ forms) := by
  induction forms generalizing n with
  | nil => exact .pure fun _ _ => trivial
  | cons form rest ih =>
    obtain ⟨hform, hrest⟩ := List.forall_mem_cons.1 h
    refine .bind (heval n _ _ form hheld hform) fun m _ hnm _ => ?_
    exact ih fun v hv => (hrest v hv).mono hnm

/-- The value of a module is good where the metadata and the environment are. -/
theorem good_toValue {v : Value} (hv : I.Good n v) {info : Metadata}
    (hinfo : Metadata.ofValue v = .ok info) {e : Env Value} (he : I.GoodEnv n e) :
    I.Good n (info.toValue e) := by
  obtain ⟨entries, rfl, hname, hdoc, hexports⟩ := Metadata.ofValue_eq_ok hinfo
  have hthaw : I.Good n (.env (.mutable e.thaw)) :=
    good_env ⟨I.thaw he.1, fun w hw => he.2 w (Env.mem_values_of_mem_thaw hw)⟩
  have hkey : ∀ name, I.Good n (.keyword name) := fun name => good_of_isData rfl rfl
  rw [Metadata.toValue_eq]
  refine good_ofEntries ?_
  simp only [List.forall_mem_cons, hkey, hthaw, hv.find? hname, hv.find? hdoc,
    hv.find? hexports, List.not_mem_nil, false_implies, implies_true, and_self]

/-- A module coincides if evaluation does. -/
theorem coincide_runModule (heval : I.CoincideEval eval) (hheld : I.HeldAlike held held')
    {operands : List Value} (h : ∀ v ∈ operands, I.Good n v) :
    I.Coincide n I.Good (runModule eval ⟨table, held⟩ operands)
      (runModule eval ⟨table, held'⟩ operands) := by
  cases operands with
  | nil => exact .fail trivial
  | cons metadata forms =>
    obtain ⟨hmetadata, hforms⟩ := List.forall_mem_cons.1 h
    refine .bind (heval n _ _ metadata hheld hmetadata) fun m value hnm hvalue => ?_
    cases hinfo : Metadata.ofValue value with
    | error fault => exact .fail hvalue
    | ok info =>
      refine .get_bind fun b hb hs => ?_
      have hthaw : I.GoodEnv b.stage (.mutable b.env.thaw) :=
        ⟨I.thaw hs.env.1, fun v hv => hs.env.2 v (Env.mem_values_of_mem_thaw hv)⟩
      refine .bind (Q := I.GoodEnv) (.within hthaw ?_) fun k e hk he => ?_
      · refine .bind (coincide_runForms heval (hheld.append [value, .env b.env])
          fun v hv => (hforms v hv).mono (hnm.trans hb)) fun _ _ _ _ => ?_
        exact .get_bind fun b' _ hs' => .pure fun _ hle => hs'.env.mono hle
      · split
        · exact .pure fun i hki =>
            (good_toValue (hvalue.mono (hb.trans hk)) hinfo he).mono hki
        · exact .fail trivial

/-- **Every special form on good operands stays within the limit.** -/
theorem coincide_specialForm (heval : I.CoincideEval eval) (hheld : I.HeldAlike held held')
    {form : SpecialForm} (hname : I.value n (.atom form.name)) {operands : List Value}
    (h : ∀ v ∈ operands, I.Good n v) :
    I.Coincide n I.Good (form.run eval ⟨table, held⟩ operands)
      (form.run eval ⟨table, held'⟩ operands) := by
  cases form with
  | closure => exact coincide_runClosure h
  | quote => exact coincide_runQuote h
  | define => exact coincide_runDefine heval hheld h
  | defineRec => exact coincide_runDefineRec heval hheld hname h
  | sequence => exact coincide_evalBody heval hheld good_null h
  | branch => exact coincide_runBranch heval hheld h
  | cond => exact coincide_runCond heval hheld h
  | module => exact coincide_runModule heval hheld h

end Invariant
end CapLisp
