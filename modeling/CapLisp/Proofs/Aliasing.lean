/-
# `def-rec` and who else holds its closure

A closure that `def-rec` binds becomes a recursive one.  Had another place held it,
too, there would be two functions of one origin of which only one sees itself; so
`def-rec` takes a closure only if nothing else holds it once its expression is
evaluated.

| the expression comes to | `def-rec` |
| --- | --- |
| an error | ends with it |
| a closure that something holds, a recursive closure | refuses an alias |
| a closure that nothing holds | binds it |
| any other value | refuses what is no function |

Nothing holds a closure that a `fn` form has just built.  The converse fails: an
expression may take a closure out of a slot, write the slot and come to the closure,
which is then held nowhere and older than the expression.  A mutable environment can
let go of a closure in the same way, a persistent one cannot, since what it hides it
still holds.
-/

import CapLisp.Proofs.Growth
import CapLisp.Proofs.Numbering

namespace CapLisp

/-! ### Where a closure is -/

namespace Value

variable {serial k : Nat} {v : Value}

/-- Tells that the plain closure numbered `serial` is, or stands inside, a value. -/
def Contains (serial : Nat) (v : Value) : Prop :=
  ∃ fn : Closure Value, fn.serial = serial ∧ Inside (.lambda fn) v

/-- What the search finds is there. -/
theorem contains_of_holds (h : v.holds serial = true) : v.Contains serial := by
  induction v using inductionOnParts with
  | step v ih =>
    rw [holds_eq, Bool.or_eq_true, List.any_eq_true] at h
    rcases h with hself | ⟨u, hu, hhold⟩
    · cases v with
      | lambda fn => exact ⟨fn, beq_iff_eq.1 hself, .here⟩
      | _ => cases hself
    · have hpart : u ∈ v.parts := laterParts_subset serial v hu
      obtain ⟨fn, hserial, hinside⟩ := ih u hpart hhold
      exact ⟨fn, hserial, .part hpart hinside⟩

/-- **The search is exact** in a value that is numbered in order. -/
theorem Numbered.holds_iff (h : v.Numbered k) : v.holds serial = true ↔ v.Contains serial := by
  constructor
  · exact contains_of_holds
  · rintro ⟨fn, rfl, hinside⟩
    exact h.holds hinside

/-- A closure that was made recursive does not stand inside itself. -/
theorem Numbered.not_contains_lambdaRec {fn : Closure Value} (h : (Value.lambda fn).Numbered k)
    (name : String) : ¬ (Value.lambdaRec name fn).Contains fn.serial := by
  rintro ⟨g, hserial, hinside⟩
  cases hinside with
  | @part u _ hu hinside =>
    have hbelow : u.NumberedBelow fn.serial := (h.here fn rfl).2 u hu
    have hlt : g.serial < fn.serial := everywhere_iff_inside.1 hbelow _ hinside g rfl
    omega

end Value

/-- Tells that a closure stands in the environment, shadowed frames included, or in
the store. -/
def Bindings.Contains (serial : Nat) (b : Bindings) : Prop :=
  (∃ v ∈ b.env.values, v.Contains serial) ∨ ∃ v ∈ b.refs, v.Contains serial

/-- **A closure is held** if it stands in the bindings or in a value held elsewhere. -/
theorem Context.holds_iff {table : Table} {held : List Value} {b : Bindings} {k : Nat}
    (hb : b.Numbered) (hheld : ∀ v ∈ held, v.Numbered k) (serial : Nat) :
    Context.holds serial b ⟨table, held⟩ = true ↔
      b.Contains serial ∨ ∃ v ∈ held, v.Contains serial := by
  have hstate : (Value.state b.intoState).holds serial = true ↔ b.Contains serial := by
    have henv : (b.env.values.any (Value.holds serial) = true) ↔
        ∃ v ∈ b.env.values, v.Contains serial := by
      rw [List.any_eq_true]
      exact exists_congr fun v => and_congr_right fun hv => (hb.env v hv).holds_iff
    have hrefs : (b.refs.any (Value.holds serial) = true) ↔
        ∃ v ∈ b.refs, v.Contains serial := by
      rw [List.any_eq_true]
      exact exists_congr fun v => and_congr_right fun hv => (hb.refs v hv).holds_iff
    rw [Bindings.Contains, ← henv, ← hrefs, ← Bool.or_eq_true, ← List.any_append, Value.holds_eq]
    rfl
  rw [Context.holds, Value.isHeldBy_eq, List.any_cons, Bool.or_eq_true, hstate, List.any_eq_true]
  exact or_congr_right (exists_congr fun v => and_congr_right fun hv => (hheld v hv).holds_iff)

/-- A closure that was made recursive stands nowhere in bindings that bind it, unless
it stood there before. -/
theorem Bindings.not_contains_define {b : Bindings} {fn : Closure Value}
    (hb : ¬ b.Contains fn.serial) {k : Nat} (hfn : (Value.lambda fn).Numbered k) (name : String) :
    ¬ (b.define name (.lambdaRec name fn)).Contains fn.serial := by
  rintro (⟨v, hv, hcontains⟩ | hslot)
  · rcases Env.mem_values_of_mem_define hv with rfl | hv
    · exact hfn.not_contains_lambdaRec name hcontains
    · exact hb (.inl ⟨v, hv, hcontains⟩)
  · exact hb (.inr hslot)

/-! ### What `def-rec` comes to -/

namespace SpecialForm

/-- A `def-rec` form. -/
def recursion (name : String) (expr : Value) : Value :=
  .list [.atom defineRec.name, .atom name, expr]

/-- An expression that comes to the value in a slot and writes the slot on the way. -/
def takeOut (cell : String) : Value :=
  .list [.atom "first", .list [.atom "list", .list [.atom "read-ref", .atom cell],
    .list [.atom "write-ref", .atom cell, .number 0]]]

/-- What is wrong with a value that `def-rec` does not take. -/
def refusal : Value → FormFault
  | .lambda _ | .lambdaRec _ _ => .aliasedFunction
  | _ => .notAFunction

/-- What `def-rec` comes to once its expression came to a value. -/
def recursionEnd (ctx : Context) (name : String) : Value → Action Value
  | .lambda fn => makeRecursive ctx name fn
  | v => .fail (defineRec.error (refusal v))

/-- A `def-rec` evaluates its expression and goes by what that comes to. -/
theorem eval_recursion (room : Nat) (ctx : Context) (name : String) (expr : Value)
    (b : Bindings) :
    (Eval.eval (room + 1) ctx (recursion name expr)).run b =
      match (Eval.eval room ctx expr).run b with
      | (.ok v, b₁) => (recursionEnd ctx name v).run b₁
      | (.error e, b₁) => (.error e, b₁) := by
  have hrun : (Eval.eval (room + 1) ctx (recursion name expr)).run b = _ :=
    Action.run_bind (Eval.eval room ctx expr) _ b
  rw [hrun]
  rcases (Eval.eval room ctx expr).run b with ⟨e | v, b₁⟩
  · rfl
  · cases v <;> rfl

/-- A closure that nothing holds is bound. -/
theorem eval_recursion_of_free {room : Nat} {ctx : Context} {expr : Value} {b b₁ : Bindings}
    {fn : Closure Value} (h : (Eval.eval room ctx expr).run b = (.ok (.lambda fn), b₁))
    (hfree : ctx.holds fn.serial b₁ = false) (name : String) :
    (Eval.eval (room + 1) ctx (recursion name expr)).run b =
      (.ok .null, b₁.define name (.lambdaRec name fn)) := by
  rw [eval_recursion, h]
  refine (run_makeRecursive ctx name fn b₁).trans (if_neg ?_)
  rw [hfree]
  exact Bool.false_ne_true

/-- A closure that something holds is refused. -/
theorem eval_recursion_of_holds {room : Nat} {ctx : Context} {expr : Value} {b b₁ : Bindings}
    {fn : Closure Value} (h : (Eval.eval room ctx expr).run b = (.ok (.lambda fn), b₁))
    (hholds : ctx.holds fn.serial b₁ = true) (name : String) :
    (Eval.eval (room + 1) ctx (recursion name expr)).run b =
      (.error (defineRec.error .aliasedFunction), b₁) := by
  rw [eval_recursion, h]
  exact (run_makeRecursive ctx name fn b₁).trans (if_pos hholds)

/-- A `fn` form builds a closure with the next serial number and changes nothing else. -/
theorem exists_of_runClosure {operands : List Value} {v : Value} {b b₁ : Bindings}
    (h : (runClosure operands).run b = (.ok v, b₁)) :
    ∃ fn, v = .lambda fn ∧ fn.serial = b.fresh ∧ b₁ = { b with fresh := b.fresh + 1 } := by
  unfold runClosure at h
  split at h
  · split at h
    · cases h
    · obtain ⟨hv, rfl⟩ := Prod.mk.inj h
      exact ⟨_, (Except.ok.inj hv).symm, rfl, rfl⟩
  · cases h
  · cases h

end SpecialForm

open SpecialForm

section

variable {table : Table} {room : Nat} {held : List Value} {b b₁ : Bindings} {name : String}
  {expr v : Value}

/-- Evaluation keeps closures numbered in order, those of its value included. -/
theorem numbered_eval (htable : table.HandsOn Value.IsLambda) (hb : b.Numbered)
    (hexpr : expr.Numbered b.fresh)
    (h : (Eval.eval room ⟨table, held⟩ expr).run b = (.ok v, b₁)) :
    b₁.Numbered ∧ v.Numbered b₁.fresh := by
  have hkept := Invariant.keepsEval_eval (Invariant.limitsOnly_numbering.goodHosts htable) room
    b.stage held expr hexpr b le_rfl (Invariant.sound_numbering.2 hb)
  rw [h] at hkept
  exact ⟨Invariant.sound_numbering.1 hkept.sound, hkept.outcome⟩

/-- **What an accepted `def-rec` did**: it found a closure that nothing holds, and
bound the name to what it made of it. -/
theorem exists_of_eval_recursion (htable : table.HandsOn Value.IsLambda) (hb : b.Numbered)
    (hheld : ∀ u ∈ held, u.Numbered b.fresh) (hexpr : expr.Numbered b.fresh) {b' : Bindings}
    (h : (Eval.eval (room + 1) ⟨table, held⟩ (recursion name expr)).run b = (.ok v, b')) :
    ∃ fn b₁, (Eval.eval room ⟨table, held⟩ expr).run b = (.ok (.lambda fn), b₁) ∧ v = .null ∧
      b' = b₁.define name (.lambdaRec name fn) ∧
      ¬ b₁.Contains fn.serial ∧ ∀ u ∈ held, ¬ u.Contains fn.serial := by
  rw [eval_recursion] at h
  rcases hinner : (Eval.eval room ⟨table, held⟩ expr).run b with ⟨e | w, b₁⟩ <;>
    rw [hinner] at h
  · cases h
  cases w with
  | lambda fn =>
    change (makeRecursive _ name fn).run b₁ = _ at h
    rw [run_makeRecursive] at h
    split at h
    · cases h
    · next hfree =>
      obtain ⟨hv, rfl⟩ := Prod.mk.inj h
      rw [Context.holds_iff (numbered_eval htable hb hexpr hinner).1 hheld, not_or] at hfree
      refine ⟨fn, b₁, rfl, (Except.ok.inj hv).symm, rfl, hfree.1, ?_⟩
      intro u hu hcontains
      exact hfree.2 ⟨u, hu, hcontains⟩
  | _ => cases h

/-- **A closure that is held is refused**, and so is every other value; the bindings
are those that the expression left. -/
theorem eval_recursion_of_held (htable : table.HandsOn Value.IsLambda) (hb : b.Numbered)
    (hheld : ∀ u ∈ held, u.Numbered b.fresh) (hexpr : expr.Numbered b.fresh)
    (hinner : (Eval.eval room ⟨table, held⟩ expr).run b = (.ok v, b₁))
    (hv : ∀ fn, v = .lambda fn → b₁.Contains fn.serial ∨ ∃ u ∈ held, u.Contains fn.serial) :
    (Eval.eval (room + 1) ⟨table, held⟩ (recursion name expr)).run b =
      (.error (defineRec.error (refusal v)), b₁) := by
  cases v with
  | lambda fn =>
    refine eval_recursion_of_holds hinner ?_ name
    exact (Context.holds_iff (numbered_eval htable hb hexpr hinner).1 hheld _).2 (hv fn rfl)
  | _ =>
    rw [eval_recursion, hinner]
    rfl

/-- A closure that was just built is held nowhere. -/
theorem Context.holds_eq_false_of_new (hb : b.Numbered) (hheld : ∀ u ∈ held, u.Numbered b.fresh)
    (fresh : Nat) : Context.holds b.fresh { b with fresh := fresh } ⟨table, held⟩ = false := by
  rw [Context.holds, Value.isHeldBy_eq, List.any_eq_false]
  intro u hu
  have hbelow : u.NumberedBelow b.fresh := by
    rcases List.mem_cons.1 hu with rfl | hu
    · exact hb.state.below
    · exact (hheld u hu).below
  rw [hbelow.holds_eq_false le_rfl]
  exact Bool.false_ne_true

/-- **A `fn` form that evaluates without error is accepted.** -/
theorem eval_recursion_of_closure (hb : b.Numbered) (hheld : ∀ u ∈ held, u.Numbered b.fresh)
    {operands : List Value}
    (h : (Eval.eval room ⟨table, held⟩ (.list (.atom closure.name :: operands))).run b =
      (.ok v, b₁)) :
    ∃ fn, v = .lambda fn ∧
      (Eval.eval (room + 1) ⟨table, held⟩
        (recursion name (.list (.atom closure.name :: operands)))).run b =
        (.ok .null, b₁.define name (.lambdaRec name fn)) := by
  cases room with
  | zero => cases h
  | succ room =>
    obtain ⟨fn, rfl, hserial, rfl⟩ := exists_of_runClosure h
    refine ⟨fn, rfl, eval_recursion_of_free h ?_ name⟩
    rw [hserial]
    exact Context.holds_eq_false_of_new hb hheld _

/-- **`def-rec` never aliases.**  Under any table whose procedures of the host build no
closures, from any bindings and at any depth:

* if `(def-rec name expr)` succeeds, then `expr` came to a closure, the name is bound to
  what was made of it, and the closure itself stands nowhere in the environment, in the
  store or in what is held elsewhere;
* if `expr` comes to a closure that is still held, or to any other value, then it fails
  with an error of this form and leaves the bindings that `expr` left;
* if `expr` is a `fn` form that evaluates without error, then it succeeds. -/
theorem defineRec_never_aliases (htable : table.HandsOn Value.IsLambda) (room : Nat)
    (hb : b.Numbered) (hheld : ∀ u ∈ held, u.Numbered b.fresh) (name : String)
    (hexpr : expr.Numbered b.fresh) :
    let inner := (Eval.eval room ⟨table, held⟩ expr).run b
    let whole := (Eval.eval (room + 1) ⟨table, held⟩ (recursion name expr)).run b
    (∀ v, whole.1 = .ok v → ∃ fn, inner.1 = .ok (.lambda fn) ∧ v = .null ∧
      whole.2 = inner.2.define name (.lambdaRec name fn) ∧
      ¬ whole.2.Contains fn.serial ∧ ∀ u ∈ held, ¬ u.Contains fn.serial) ∧
    (∀ v, inner.1 = .ok v →
      (∀ fn, v = .lambda fn → inner.2.Contains fn.serial ∨ ∃ u ∈ held, u.Contains fn.serial) →
      whole = (.error (defineRec.error (refusal v)), inner.2)) ∧
    ∀ operands v, expr = .list (.atom closure.name :: operands) → inner.1 = .ok v →
      ∃ fn, v = .lambda fn ∧ whole = (.ok .null, inner.2.define name (.lambdaRec name fn)) := by
  intro inner whole
  have hsplit : ∀ {v}, inner.1 = .ok v →
      (Eval.eval room ⟨table, held⟩ expr).run b = (.ok v, inner.2) :=
    fun hv => Prod.ext hv rfl
  refine ⟨?_, ?_, ?_⟩
  · intro v hv
    obtain ⟨fn, b₁, hinner, hnull, hb', hfree, hheldFree⟩ :=
      exists_of_eval_recursion htable hb hheld hexpr (Prod.ext hv rfl : whole = (.ok v, whole.2))
    have hfn : (Value.lambda fn).Numbered b₁.fresh := (numbered_eval htable hb hexpr hinner).2
    have hinner₁ : inner.1 = .ok (.lambda fn) := congrArg Prod.fst hinner
    have hinner₂ : inner.2 = b₁ := congrArg Prod.snd hinner
    refine ⟨fn, hinner₁, hnull, hinner₂ ▸ hb', ?_, hheldFree⟩
    -- Only the function that was defined is new there, and the closures inside it are older.
    rw [hb']
    exact Bindings.not_contains_define hfree hfn name
  · intro v hv hcontains
    exact eval_recursion_of_held htable hb hheld hexpr (hsplit hv) hcontains
  · rintro operands v rfl hv
    exact eval_recursion_of_closure hb hheld (hsplit hv)

end

/-- A closure that a slot and a shadowed frame hold is refused once the slot is written,
since the frame still holds it; a closure built beside it is accepted. -/
theorem defineRec_never_aliases_shadowed :
    let old : Value := .lambda ⟨0, ["x"], [.atom "x"], []⟩
    let b : Bindings := ⟨.persistent [("g", .number 0), ("g", old), ("r", .ref 0)], [old], 1⟩
    let emptied : Value := takeOut "r"
    let built : Value := .list [.atom "fn", .vector [.atom "x"], .list [.atom "f", .atom "g"]]
    let inner := fun expr => (Eval.eval 8 ⟨Table.shipped, [recursion "f" expr]⟩ expr).run b
    let whole := fun expr =>
      (Eval.eval 9 ⟨Table.shipped, [recursion "f" expr]⟩ (recursion "f" expr)).run b
    Table.shipped.HandsOn Value.IsLambda ∧ b.Numbered ∧
    ((recursion "f" emptied).Numbered b.fresh ∧ (recursion "f" built).Numbered b.fresh) ∧
    (inner emptied).1 = .ok old ∧
    whole emptied = (.error (defineRec.error .aliasedFunction), (inner emptied).2) ∧
    ∃ fn, (inner built).1 = .ok (.lambda fn) ∧
      whole built = (.ok .null, (inner built).2.define "f" (.lambdaRec "f" fn)) ∧
      ¬ (whole built).2.Contains fn.serial := by
  intro old b emptied built inner whole
  have htable : Table.shipped.HandsOn Value.IsLambda :=
    Table.handsOn_of_subset (List.Subset.refl Table.shipped) Value.IsLambda
  have hold : old.Numbered 1 := by
    simp [old, Value.Numbered, Value.isNumbered, Value.closure?, Value.closureParts,
      Value.NumberedBelow, Value.EverywhereInClosure]
  have hb : b.Numbered := by
    constructor <;>
      simpa [b, Env.values, Value.Numbered, Value.isNumbered, Value.closure?] using hold
  have hemptied : (recursion "f" emptied).Numbered b.fresh := by
    simp [emptied, takeOut, recursion, Value.Numbered, Value.isNumbered, Value.closure?]
  have hbuilt : (recursion "f" built).Numbered b.fresh := by
    simp [built, recursion, Value.Numbered, Value.isNumbered, Value.closure?]
  have hexpr : ∀ {expr : Value}, (recursion "f" expr).Numbered b.fresh → expr.Numbered b.fresh :=
    fun h => h.inside _ (by simp [recursion, Value.parts])
  have hheld : ∀ {expr : Value}, (recursion "f" expr).Numbered b.fresh →
      ∀ u ∈ [recursion "f" expr], u.Numbered b.fresh := fun h => List.forall_mem_singleton.2 h
  have hinner : (inner emptied).1 = .ok old := by rfl
  obtain ⟨-, hrefused, -⟩ :=
    defineRec_never_aliases htable 8 hb (hheld hemptied) "f" (hexpr hemptied)
  obtain ⟨hbound, -, haccepted⟩ :=
    defineRec_never_aliases htable 8 hb (hheld hbuilt) "f" (hexpr hbuilt)
  have hframe : (inner emptied).2.Contains 0 := by
    have henv : (inner emptied).2.env = b.env := by rfl
    have hmem : old ∈ (inner emptied).2.env.values := by
      rw [henv]
      simp [b, Env.values]
    exact .inl ⟨old, hmem, _, rfl, .here⟩
  have hclosure : ∃ fn, (inner built).1 = .ok (.lambda fn) := ⟨_, rfl⟩
  obtain ⟨fn, hfn⟩ := hclosure
  obtain ⟨_, hlambda, hwhole⟩ := haccepted _ _ rfl hfn
  obtain rfl := Value.lambda.inj hlambda
  obtain ⟨g, hg, -, -, hfree, -⟩ := hbound _ (congrArg Prod.fst hwhole)
  obtain rfl := Value.lambda.inj (Except.ok.inj (hfn.symm.trans hg))
  refine ⟨htable, hb, ⟨hemptied, hbuilt⟩, hinner, ?_, fn, hfn, hwhole, hfree⟩
  refine hrefused _ hinner fun fn hfn => .inl ?_
  obtain rfl := Value.lambda.inj hfn
  exact hframe

section

variable {table : Table} {room : Nat} {held : List Value} {b b₁ : Bindings} {name : String}
  {expr : Value} {fn : Closure Value}

/-- **A closure that an expression comes to is new or was held before**, with the code
held meanwhile. -/
theorem new_or_held_of_eval (htable : table.HandsOn Value.IsLambda) (hb : b.Numbered)
    (hheld : ∀ u ∈ held, u.Numbered b.fresh) {code : Value} (hcode : code ∈ held)
    (hinside : Value.Inside expr code)
    (h : (Eval.eval room ⟨table, held⟩ expr).run b = (.ok (.lambda fn), b₁)) :
    b.fresh ≤ fn.serial ∨ b.Contains fn.serial ∨ ∃ u ∈ held, u.Contains fn.serial := by
  let kept : List Value := .state b.intoState :: held
  have hhosts : (Invariant.known table kept b.fresh).GoodHosts :=
    Invariant.limitsOnly_known.goodHosts htable
  have hexpr : (Invariant.known table kept b.fresh).Good b.stage expr :=
    Invariant.good_known (List.mem_cons_of_mem _ hcode) (hheld code hcode) hinside
  have hkept := Invariant.keepsEval_eval hhosts room b.stage held expr hexpr b le_rfl
    (Invariant.sound_known hb (List.mem_cons_self ..))
  rw [h] at hkept
  rcases hkept.outcome.here fn rfl with hnew | hold
  · exact .inl hnew
  · have hholds : Context.holds fn.serial b ⟨table, held⟩ = true := by
      rw [Context.holds, Value.isHeldBy_eq]
      exact hold
    exact .inr ((Context.holds_iff hb hheld fn.serial).1 hholds)

/-- **A closure that `def-rec` takes is new or was let go.**  Under any table whose
procedures of the host build no closures, from any bindings and at any depth, with the
code held meanwhile: if `(def-rec name expr)` succeeds, then the closure that it bound was
built while `expr` was evaluated, or it stood in a slot or in a mutable environment before
and nothing holds it any more. -/
theorem defineRec_new_or_released (htable : table.HandsOn Value.IsLambda) (room : Nat)
    (hb : b.Numbered) (hheld : ∀ u ∈ held, u.Numbered b.fresh) (name : String)
    (hcode : ∃ u ∈ held, Value.Inside expr u) {v : Value} {b' : Bindings}
    (h : (Eval.eval (room + 1) ⟨table, held⟩ (recursion name expr)).run b = (.ok v, b')) :
    ∃ fn b₁, (Eval.eval room ⟨table, held⟩ expr).run b = (.ok (.lambda fn), b₁) ∧
      b' = b₁.define name (.lambdaRec name fn) ∧
      (b.fresh ≤ fn.serial ∧ fn.serial < b₁.fresh ∨
        ¬ b₁.Contains fn.serial ∧
          ((∃ u ∈ b.refs, u.Contains fn.serial) ∨
            b.env.isImmutable = false ∧ ∃ u ∈ b.env.values, u.Contains fn.serial)) := by
  obtain ⟨code, hmem, hinside⟩ := hcode
  have hexpr : expr.Numbered b.fresh := Value.everywhere_iff_inside.2 fun w hw =>
    Value.everywhere_iff_inside.1 (hheld code hmem) w (hinside.trans hw)
  obtain ⟨fn, b₁, hinner, -, hb', hfree, hheldFree⟩ :=
    exists_of_eval_recursion htable hb hheld hexpr h
  refine ⟨fn, b₁, hinner, hb', ?_⟩
  have hfn : (Value.lambda fn).Numbered b₁.fresh := (numbered_eval htable hb hexpr hinner).2
  have hadds : b.Extends b₁ := by
    have hadds : b.Extends ((Eval.eval room ⟨table, held⟩ expr).run b).2 :=
      addingEval_eval table room held expr b
    rwa [hinner] at hadds
  rcases new_or_held_of_eval htable hb hheld hmem hinside hinner with
    hnew | (⟨u, hu, hcontains⟩ | hslot) | ⟨u, hu, hcontains⟩
  · exact .inl ⟨hnew, (hfn.here fn rfl).1⟩
  · refine .inr ⟨hfree, .inr ⟨?_, u, hu, hcontains⟩⟩
    -- The frames of a persistent environment are all there still.
    rw [← Bool.not_eq_true]
    intro himmutable
    exact hfree (.inl ⟨u, hadds.mem_values himmutable hu, hcontains⟩)
  · exact .inr ⟨hfree, .inl hslot⟩
  · exact absurd hcontains (hheldFree u hu)

end

/-- A closure that stood in a slot before its expression began is taken, since the
expression reads the slot and writes it. -/
theorem defineRec_takes_released :
    let old : Closure Value := ⟨0, ["x"], [.atom "x"], []⟩
    let b : Bindings := ⟨.persistent [("r", .ref 0)], [.lambda old], 1⟩
    let form := recursion "f" (takeOut "r")
    b.Contains old.serial ∧ old.serial < b.fresh ∧
    (Eval.eval 9 ⟨Table.shipped, [form]⟩ form).run b =
      (.ok .null, ⟨.persistent [("f", .lambdaRec "f" old), ("r", .ref 0)], [.number 0], 1⟩) := by
  intro old b form
  have hcontains : b.Contains old.serial :=
    .inr ⟨.lambda old, List.mem_singleton_self _, old, rfl, .here⟩
  have hinner : (Eval.eval 8 ⟨Table.shipped, [form]⟩ (takeOut "r")).run b =
      (.ok (.lambda old), ⟨b.env, [.number 0], 1⟩) := by rfl
  have hfree : Context.holds old.serial ⟨b.env, [.number 0], 1⟩ ⟨Table.shipped, [form]⟩ =
      false := by decide +kernel
  exact ⟨hcontains, Nat.zero_lt_one, eval_recursion_of_free hinner hfree "f"⟩

/-- Where the expression takes the closure out of its slot, it is one that was let go. -/
theorem defineRec_new_or_released_slot :
    let old : Closure Value := ⟨0, ["x"], [.atom "x"], []⟩
    let b : Bindings := ⟨.persistent [("r", .ref 0)], [.lambda old], 1⟩
    let b₁ : Bindings := ⟨b.env, [.number 0], 1⟩
    let form := recursion "f" (takeOut "r")
    Table.shipped.HandsOn Value.IsLambda ∧ b.Numbered ∧ form.Numbered b.fresh ∧
    (Eval.eval 8 ⟨Table.shipped, [form]⟩ (takeOut "r")).run b = (.ok (.lambda old), b₁) ∧
    (Eval.eval 9 ⟨Table.shipped, [form]⟩ form).run b =
      (.ok .null, b₁.define "f" (.lambdaRec "f" old)) ∧
    ¬ b₁.Contains old.serial ∧ ∃ u ∈ b.refs, u.Contains old.serial := by
  intro old b b₁ form
  have htable : Table.shipped.HandsOn Value.IsLambda :=
    Table.handsOn_of_subset (List.Subset.refl Table.shipped) Value.IsLambda
  have hb : b.Numbered := by
    constructor <;>
      simp [b, old, Env.values, Value.Numbered, Value.isNumbered, Value.closure?,
        Value.closureParts, Value.NumberedBelow, Value.EverywhereInClosure]
  have hform : form.Numbered b.fresh := by
    simp [form, takeOut, recursion, Value.Numbered, Value.isNumbered, Value.closure?]
  have hinside : Value.Inside (takeOut "r") form :=
    .part (by simp [form, recursion, Value.parts]) .here
  have hinner : (Eval.eval 8 ⟨Table.shipped, [form]⟩ (takeOut "r")).run b =
      (.ok (.lambda old), b₁) := by rfl
  have hholds : Context.holds old.serial b₁ ⟨Table.shipped, [form]⟩ = false := by decide +kernel
  have hwhole : (Eval.eval 9 ⟨Table.shipped, [form]⟩ form).run b =
      (.ok .null, b₁.define "f" (.lambdaRec "f" old)) := eval_recursion_of_free hinner hholds "f"
  obtain ⟨fn, _, hrun, -, hend⟩ :=
    defineRec_new_or_released htable 8 hb (List.forall_mem_singleton.2 hform) "f"
      ⟨_, List.mem_singleton_self _, hinside⟩ hwhole
  obtain ⟨hfn, rfl⟩ := Prod.mk.inj (hinner.symm.trans hrun)
  obtain rfl : old = fn := Value.lambda.inj (Except.ok.inj hfn)
  refine ⟨htable, hb, hform, hinner, hwhole, ?_⟩
  rcases hend with hnew | ⟨hfree, hslot | ⟨himmutable, -⟩⟩
  · exact absurd hnew.1 (Nat.not_succ_le_zero 0)
  · exact ⟨hfree, hslot⟩
  · cases himmutable

end CapLisp
